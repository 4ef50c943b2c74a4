import Ftwdb.Storage.Journal

/-!
# Durability acknowledgements

A database under calls, failing writes and syncs, crashes and reopens.  A crash
keeps any beginning of the file that is at least as long as its synced length.
Beside the database, a `World` records the batches whose frames went to the log,
those the open handle knows, and what callers have been promised: by a receipt
or a replay marked durable, by a watermark, or by a flush.  In every world that
can be reached the promises are kept.
-/

namespace Ftwdb

open ByteCodec Check KeyedMap List

/-! ## Worlds -/

/-- The database is open, or only its file is there. -/
inductive Process where
  | running (db : Database)
  | stopped (file : File)

/-- What a caller has been told to be durable. -/
inductive Promise where
  | batch (b : Batch)
  /-- The batch that was accepted under this identity. -/
  | replay (identity : Tables.FrameIdentity)
deriving DecidableEq

/-- A process or the file it left, and what was written and promised. -/
structure World where
  process : Process
  /-- Batches whose frames went to the log, the last one perhaps not completely. -/
  logged : List Batch
  /-- Batches that the open handle knows. -/
  held : List Batch
  promised : List Promise

inductive Event where
  | call (c : Call) (io : Io)
  /-- The watermarks of a source are reported. -/
  | watermarks (sourceId : U128)
  /-- The process ends; at least the synced part of the file and `keep` bytes of it survive. -/
  | crash (keep : Nat)
  | reopen (io : OpenIo)

/-- The batches of `logged` that are complete in the file of a handle. -/
def survived (logged : List Batch) (db : Database) : List Batch :=
  logged.filter fun b => b.stop ≤ db.file.length

namespace World

/-- No file yet. -/
def initial : World := ⟨.stopped .empty, [], [], []⟩

/-- The open handle, if there is one. -/
def handle (w : World) : Option Database :=
  match w.process with
  | .running db => some db
  | .stopped _ => none

/-- What the result of a call promises. -/
def promises (held : List Batch) (c : Call) (b : Option Batch) :
    Except Error (Option Commit) → List Promise
  | .error _ => []
  | .ok none => held.map .batch
  | .ok (some commit) =>
    if commit.durable then
      if commit.deduplicated then [.replay c.identity] else b.toList.map .batch
    else []

/-- The batches of an open handle that a watermark covers. -/
def covered (watermark : Option UInt64) (sourceId : U128) (held : List Batch) : List Batch :=
  held.filter fun b =>
    match b.identity with
    | .ingress identity =>
      decide (identity.sourceId = sourceId) && watermark.any (identity.sequence ≤ ·)
    | _ => false

variable [Jiff]

/-- One event; an event that does not apply changes nothing. -/
def step (config : Config) (w : World) : Event → World
  | .call c io =>
    match w.process with
    | .stopped _ => w
    | .running db =>
      let b := db.attempt c
      match db.call io c with
      | (.error _, db) => { w with process := .running db, logged := w.logged ++ b.toList }
      | (.ok result, db) =>
        { process := .running db
          logged := w.logged ++ b.toList
          held := w.held ++ b.toList
          promised := w.promised ++ promises w.held c b (.ok result) }
  | .watermarks sourceId =>
    match w.process with
    | .stopped _ => w
    | .running db => { w with
        promised := w.promised ++
          (covered (db.ingressWatermarks sourceId).durableThrough sourceId w.held).map .batch }
  | .crash keep =>
    match w.process with
    | .stopped file => { w with process := .stopped (file.crash keep), held := [] }
    | .running db => { w with process := .stopped (db.file.crash keep), held := [] }
  | .reopen io =>
    match w.process with
    | .running _ => w
    | .stopped file =>
      match Database.openMode config false [] file io with
      | (.error _, file) => { w with process := .stopped file }
      | (.ok db, _) =>
        { w with
          process := .running db
          logged := survived w.logged db
          held := survived w.logged db }

/-- The world behind a list of events. -/
def run (config : Config) (events : List Event) : World :=
  events.foldl (step config) initial

end World

/-! ## The invariant -/

/-- A crash makes nothing durable and takes nothing durable away. -/
theorem File.synced_crash (f : File) (keep : Nat) : (f.crash keep).synced = f.synced := by
  have := f.synced_le
  simp only [File.crash, File.truncate, length_take]
  omega

/-- A promise about batches whose frames lie in the synced part of the log. -/
def Promise.Safe (bs : List Batch) (synced : Nat) : Promise → Prop
  | .batch b => b ∈ bs ∧ b.stop ≤ synced
  | .replay identity => ∃ b ∈ bs, b.identity = identity ∧ b.stop ≤ synced

theorem Promise.Safe.imp {bs bs' : List Batch} {synced synced' : Nat} {p : Promise}
    (h : p.Safe bs synced)
    (hbs : ∀ b ∈ bs, b.stop ≤ synced → b ∈ bs' ∧ b.stop ≤ synced') : p.Safe bs' synced' := by
  cases p with
  | batch b => exact hbs b h.1 h.2
  | replay identity =>
    obtain ⟨b, hb, hid, hstop⟩ := h
    obtain ⟨hb', hstop'⟩ := hbs b hb hstop
    exact ⟨b, hb', hid, hstop'⟩

theorem Promise.Safe.mono {bs bs' : List Batch} {synced synced' : Nat} {p : Promise}
    (h : p.Safe bs synced) (hbs : bs ⊆ bs') (hsynced : synced ≤ synced') : p.Safe bs' synced' :=
  h.imp fun _ hb hstop => ⟨hbs hb, Nat.le_trans hstop hsynced⟩

/-- A new identity does not lower a cursor. -/
theorem raiseCursor_mono {t : Tables} {identity : Tables.FrameIdentity} (hfresh : t.Fresh identity)
    {source : U128} {a : UInt64} (ha : t.ingressLastSequences[source]? = some a) :
    ∃ a', (Database.raiseCursor t.ingressLastSequences identity)[source]? = some a' ∧ a ≤ a' := by
  cases identity with
  | anonymous => exact ⟨a, ha, UInt64.le_refl a⟩
  | identified commitId => exact ⟨a, ha, UInt64.le_refl a⟩
  | ingress identity =>
    rw [Database.raiseCursor, getElem?_insert_eq]
    split
    · next heq =>
      rw [← heq] at ha
      exact ⟨_, rfl, UInt64.le_of_lt (hfresh.2.2.2 a ha)⟩
    · exact ⟨a, ha, UInt64.le_refl a⟩

/-- What a promise says about the batches that a handle knows. -/
def Promise.Kept (held : List Batch) : Promise → Prop
  | .batch b => b ∈ held
  | .replay identity => ∃ b ∈ held, b.identity = identity

theorem Promise.Safe.kept {bs : List Batch} {synced : Nat} {p : Promise} (h : p.Safe bs synced) :
    p.Kept bs := by
  cases p with
  | batch b => exact h.1
  | replay identity =>
    obtain ⟨b, hb, hid, -⟩ := h
    exact ⟨b, hb, hid⟩

section

variable [Jiff]

/-- An open database: its tables come from the journal `es`, its file holds that
log and, once the writer is poisoned, perhaps a part of one more frame. -/
structure Running (config : Config) (db : Database) (logged held : List Batch)
    (promised : List Promise) (es : List (Frame × Batch)) (t : Tables) : Prop where
  journal : Journal config.limits es t
  configured : db.config = config
  tables : db.toTables.Matches t
  held_eq : held = es.map Prod.snd
  log : ∃ es' t' n, Journal config.limits (es ++ es') t' ∧
    logged = (es ++ es').map Prod.snd ∧
    db.file.bytes = (logBytes ((es ++ es').map Prod.fst)).take n ∧
    (logBytes (es.map Prod.fst)).length ≤ n
  clean : db.poisoned = false →
    logged = held ∧ db.file.bytes = logBytes (es.map Prod.fst)
  counter : db.poisoned = false → db.bytesSinceSync = 0 →
    db.file.synced = db.file.bytes.length
  cursors : ∀ (source : U128) (durable : UInt64),
    db.ingressDurableSequences[source]? = some durable →
    ∃ accepted, db.ingressLastSequences[source]? = some accepted ∧ durable ≤ accepted
  watermark : ∀ b ∈ held, ∀ identity, b.identity = .ingress identity →
    db.ingressDurableSequences[identity.sourceId]?.any (identity.sequence ≤ ·) = true →
    b.stop ≤ db.file.synced
  header : databaseHeaderBytes ≤ db.file.synced
  promises : ∀ p ∈ promised, p.Safe held db.file.synced

/-- Only the file is there: a beginning of the log of a journal.  Before the
header is synced nothing has been written or promised. -/
structure Stopped (config : Config) (file : File) (logged : List Batch) (promised : List Promise)
    (es : List (Frame × Batch)) (t : Tables) (m : Nat) : Prop where
  journal : Journal config.limits es t
  logged_eq : logged = es.map Prod.snd
  bytes : file.bytes = (logBytes (es.map Prod.fst)).take m
  early : file.synced < databaseHeaderBytes → es = [] ∧ promised = []
  promises : ∀ p ∈ promised, p.Safe logged file.synced

/-- The invariant of every world that can be reached. -/
def World.Inv (config : Config) (w : World) : Prop :=
  match w.process with
  | .running db => ∃ es t, Running config db w.logged w.held w.promised es t
  | .stopped file => ∃ es t m, Stopped config file w.logged w.promised es t m

namespace Running

variable {config : Config} {db : Database} {logged held : List Batch} {promised : List Promise}
  {es : List (Frame × Batch)} {t : Tables}

theorem carries (h : Running config db logged held promised es t) : db.toTables.Carries held := by
  rw [h.held_eq]
  exact h.journal.carries.of_forgetDurable_eq h.tables.symm

theorem stop_le_length (h : Running config db logged held promised es t) :
    ∀ b ∈ held, b.stop ≤ db.file.bytes.length := by
  obtain ⟨es', t', n, hjournal, -, hbytes, hn⟩ := h.log
  intro b hb
  rw [h.held_eq] at hb
  have hstop := h.journal.stop_le b hb
  rw [hbytes, length_take]
  have hle : (logBytes (es.map Prod.fst)).length ≤
      (logBytes ((es ++ es').map Prod.fst)).length := by
    rw [map_append, logBytes_append, length_append]
    omega
  omega

/-- A crash. -/
theorem crash (h : Running config db logged held promised es t) (keep : Nat) :
    ∃ es t m, Stopped config (db.file.crash keep) logged promised es t m := by
  obtain ⟨es', t', n, hjournal, hlogged, hbytes, hn⟩ := h.log
  refine ⟨es ++ es', t', min (max keep db.file.synced) n,
    { journal := hjournal, logged_eq := hlogged, bytes := ?_, early := ?_, promises := ?_ }⟩
  · change db.file.bytes.take _ = _
    rw [hbytes, take_take]
  · intro hearly
    rw [File.synced_crash] at hearly
    exact absurd h.header (Nat.not_le.mpr hearly)
  · intro p hp
    rw [File.synced_crash]
    refine (h.promises p hp).mono ?_ (Nat.le_refl _)
    rw [h.held_eq, hlogged, map_append]
    exact subset_append_left ..

/-- A handle that changed nothing but, perhaps, that it is poisoned now. -/
theorem refused (h : Running config db logged held promised es t) (poisoned : Bool) :
    Running config { db with poisoned := db.poisoned || poisoned } logged held promised es t :=
  { h with
    clean := fun hclean => h.clean (Bool.or_eq_false_iff.mp hclean).1
    counter := fun hclean => h.counter (Bool.or_eq_false_iff.mp hclean).1 }

/-- More promises about batches in the synced part of the log. -/
theorem promise (h : Running config db logged held promised es t) {ps : List Promise}
    (hps : ∀ p ∈ ps, p.Safe held db.file.synced) :
    Running config db logged held (promised ++ ps) es t :=
  { h with promises := fun p hp => (mem_append.mp hp).elim (h.promises p) (hps p) }

/-- Nothing the handle knows lies behind the synced part of its log. -/
theorem allSynced (h : Running config db logged held promised es t)
    (hsynced : db.file.synced = db.file.bytes.length) :
    ∀ b ∈ held, b.stop ≤ db.file.synced := by
  rw [hsynced]
  exact h.stop_le_length

theorem flush (h : Running config db logged held promised es t) :
    Running config
      { db with
        file := db.file.sync
        bytesSinceSync := 0
        ingressDurableSequences := db.ingressLastSequences }
      logged held (promised ++ held.map .batch) es t :=
  { h with
    counter := fun _ _ => rfl
    cursors := fun _ durable hdurable => ⟨durable, hdurable, UInt64.le_refl durable⟩
    watermark := fun b hb _ _ _ => h.stop_le_length b hb
    header := Nat.le_trans h.header db.file.synced_le
    promises := by
      intro p hp
      rcases mem_append.mp hp with hp | hp
      · exact (h.promises p hp).mono (List.Subset.refl _) db.file.synced_le
      · obtain ⟨b, hb, rfl⟩ := mem_map.mp hp
        exact ⟨hb, h.stop_le_length b hb⟩ }

variable {commit : Commit} {durable : Bool}

/-- The journal with the batch that a call adds. -/
theorem snoc (h : Running config db logged held promised es t) {c : Call} {frame : Frame}
    {tables : Tables} (hrequested : db.Requested c frame tables commit durable) :
    ∃ t', tables.Matches t' ∧ Journal config.limits
      (es ++ [(frame, c.batch db.file.length frame.encode.length)]) t' := by
  obtain ⟨hlogged, hbytes⟩ := h.clean hrequested.poisoned
  obtain ⟨t', hstep, hmatch⟩ := hrequested.writes.step t h.tables
  have hfits := hrequested.writes.fits
  rw [h.configured] at hstep hfits
  refine ⟨t', hmatch, .snoc h.journal hfits ?_ rfl hstep ?_⟩
  · rw [← hbytes]
    rfl
  · rw [← h.held_eq]
    exact (hrequested.carries held h.carries).of_forgetDurable_eq hmatch

/-- A call whose write or sync failed: its frame is in the log in part. -/
theorem broke (h : Running config db logged held promised es t) {c : Call} {frame : Frame}
    {tables : Tables}
    (hrequested : db.Requested c frame tables commit durable) {db' : Database} {io : Io}
    (hbroke : db.Broke db' frame io) :
    Running config db'
      (logged ++ [c.batch db.file.length frame.encode.length]) held promised es t where
  journal := h.journal
  configured := hbroke.config.trans h.configured
  tables := by
    rw [hbroke.tables]
    exact h.tables
  held_eq := h.held_eq
  log := by
    obtain ⟨t', -, hjournal⟩ := h.snoc hrequested
    obtain ⟨hlogged, hbytes⟩ := h.clean hrequested.poisoned
    obtain ⟨n, hn⟩ := hbroke.bytes
    refine ⟨_, t', (logBytes (es.map Prod.fst)).length + n, hjournal, ?_, ?_,
      Nat.le_add_right ..⟩
    · simp [hlogged, h.held_eq]
    · rw [hn, hbytes, map_append, logBytes_append, take_length_add_append]
      simp [frameBytes_cons]
  clean hclean := absurd (hbroke.poisoned.symm.trans hclean) (by simp)
  counter hclean := absurd (hbroke.poisoned.symm.trans hclean) (by simp)
  cursors := by
    rw [hbroke.cursors, hbroke.tables]
    exact h.cursors
  watermark := by
    rw [hbroke.cursors, hbroke.synced]
    exact h.watermark
  header := by
    rw [hbroke.synced]
    exact h.header
  promises := by
    rw [hbroke.synced]
    exact h.promises

/-- A call whose frame was accepted. -/
theorem accepted (h : Running config db logged held promised es t) {c : Call} {frame : Frame}
    {db' : Database}
    (hrequested : db.Requested c frame db'.toTables commit durable)
    (haccepted : db.Accepted db' frame durable) :
    ∃ es' t', Running config db'
      (logged ++ [c.batch db.file.length frame.encode.length])
      (held ++ [c.batch db.file.length frame.encode.length])
      (promised ++ if durable then [.batch (c.batch db.file.length frame.encode.length)] else [])
      es' t' := by
  obtain ⟨t', hmatch, hjournal⟩ := h.snoc hrequested
  obtain ⟨hlogged, hbytes⟩ := h.clean hrequested.poisoned
  generalize hb : c.batch db.file.length frame.encode.length = b at hjournal ⊢
  have hlog : db'.file.bytes = logBytes ((es ++ [(frame, b)]).map Prod.fst) := by
    rw [haccepted.bytes, hbytes, map_append, logBytes_append]
    simp [frameBytes_cons]
  have hheld : held ++ [b] = (es ++ [(frame, b)]).map Prod.snd := by
    simp [h.held_eq]
  have hstop : ∀ b' ∈ held ++ [b], b'.stop ≤ db'.file.bytes.length := by
    rw [hlog, hheld]
    exact hjournal.stop_le
  have hsynced : db.file.synced ≤ db'.file.synced := by
    have := db.file.synced_le
    rw [haccepted.synced, haccepted.bytes, length_append]
    split <;> omega
  refine ⟨es ++ [(frame, b)], t', ?_⟩
  refine
    { journal := hjournal
      configured := haccepted.config.trans h.configured
      tables := hmatch
      held_eq := hheld
      log := ⟨[], t', _, by simpa using hjournal, by simp [hlogged, hheld],
        by rw [append_nil, take_length]; exact hlog, Nat.le_refl _⟩
      clean := fun _ => ⟨by rw [hlogged], hlog⟩
      counter := ?_
      cursors := ?_
      watermark := ?_
      header := Nat.le_trans h.header hsynced
      promises := ?_ }
  · intro _ hzero
    rw [haccepted.unsynced] at hzero
    rw [haccepted.synced]
    cases durable with
    | true => rfl
    | false =>
      simp only [Bool.false_eq_true, if_false, Frame.length_encode, frameHeaderBytes] at hzero
      omega
  · intro source d hd
    rw [haccepted.cursors] at hd
    cases durable with
    | true => exact ⟨d, hd, UInt64.le_refl d⟩
    | false =>
      obtain ⟨a, ha, hle⟩ := h.cursors source d hd
      obtain ⟨a', ha', hle'⟩ := raiseCursor_mono hrequested.fresh ha
      rw [hrequested.cursors]
      exact ⟨a', ha', UInt64.le_trans hle hle'⟩
  · intro b' hb' identity hid hcovered
    rw [haccepted.cursors] at hcovered
    cases durable with
    | true =>
      rw [haccepted.synced]
      exact hstop b' hb'
    | false =>
      rcases Tables.mem_concat hb' with hb' | rfl
      · exact Nat.le_trans (h.watermark b' hb' identity hid hcovered) hsynced
      · -- a new sequence lies above the source's last one, so no durable cursor covers it
        obtain ⟨d, hd, hseq⟩ := (Option.any_eq_true ..).mp hcovered
        obtain ⟨a, ha, hle⟩ := h.cursors identity.sourceId d hd
        have hfresh := hrequested.fresh
        rw [show c.identity = .ingress identity from
          (congrArg Batch.identity hb).trans hid] at hfresh
        have hlt := hfresh.2.2.2 a ha
        rw [decide_eq_true_eq] at hseq
        exact absurd (UInt64.le_trans hseq hle) (UInt64.not_le.mpr hlt)
  · intro p hp
    rcases mem_append.mp hp with hp | hp
    · exact (h.promises p hp).mono (subset_append_left ..) hsynced
    · cases durable with
      | true =>
        rw [mem_singleton.mp hp]
        refine ⟨mem_append_right _ mem_cons_self, ?_⟩
        rw [haccepted.synced]
        exact hstop b (mem_append_right _ mem_cons_self)
      | false => cases hp

/-- A repetition that is called durable is one of a batch in the synced part. -/
theorem answered (h : Running config db logged held promised es t) {c : Call}
    (hdecision : db.decideCall c = .answer commit) :
    ∀ p ∈ World.promises held c none (.ok (some commit)), p.Safe held db.file.synced := by
  intro p hp
  simp only [World.promises] at hp
  split at hp
  · next hdurable =>
    split at hp
    · next hdedup =>
      rw [mem_singleton.mp hp]
      obtain ⟨hclean, ⟨commitId, r, hid, hr, hcounter⟩ | ⟨identity, r, hid, hr, hsame, hcursor⟩⟩ :=
        Database.answer_known hdecision hdedup
      · obtain ⟨-, b, hb, hbid⟩ := h.carries.ofIdentified commitId r hr
        exact ⟨b, hb, hbid.trans hid.symm,
          h.allSynced (h.counter hclean (hcounter hdurable)) b hb⟩
      · obtain ⟨hkey, b, hb, hbid⟩ := h.carries.ofIngress identity.key r hr
        have hidentity : r.identity = identity := by
          obtain ⟨hsource, hsequence⟩ := IngressKey.mk.inj hkey
          exact IngressIdentity.ext hsource hsequence hsame
        rw [hidentity] at hbid
        exact ⟨b, hb, hbid.trans hid.symm, h.watermark b hb identity hbid (hcursor hdurable)⟩
    · cases hp
  · cases hp

end Running

/-- One call. -/
theorem World.Inv.call {config : Config} {w : World} (h : w.Inv config) (c : Call) (io : Io) :
    (w.step config (.call c io)).Inv config := by
  obtain ⟨process, logged, held, promised⟩ := w
  cases process with
  | stopped file => exact h
  | running db =>
  obtain ⟨es, t, h⟩ := h
  by_cases hc : c = .flush
  · subst hc
    rcases db.flush_cases io with ⟨e, poison, hflush, -⟩ | ⟨-, -, hflush⟩
    · simp only [World.step, Database.attempt, Database.decideCall, Option.toList_none,
        append_nil, Database.call, hflush, Except.map]
      exact ⟨es, t, h.refused poison⟩
    · simp only [World.step, Database.attempt, Database.decideCall, Option.toList_none,
        append_nil, Database.call, hflush, Except.map]
      exact ⟨es, t, h.flush⟩
  · obtain ⟨receipt, tables, ⟨result, db'⟩, hcall, hacted, hrequested⟩ := db.call_acted io hc
    simp only [World.step, hcall]
    cases hacted with
    | answered hdecision =>
      simp only [Database.attempt, hdecision, Except.map, Option.toList_none, append_nil]
      exact ⟨es, t, h.promise (h.answered hdecision)⟩
    | refused hdecision =>
      simp only [Database.attempt, hdecision, Except.map, Option.toList_none, append_nil]
      exact ⟨es, t, h.refused _⟩
    | broke hdecision hbroke =>
      simp only [Database.attempt, hdecision, Except.map]
      exact ⟨es, t, h.broke (hrequested _ _ false hdecision) hbroke⟩
    | @accepted frame catalog durable _ hdecision haccepted htables =>
      have hr := hrequested frame catalog durable hdecision
      rw [← htables] at hr
      obtain ⟨es', t', hrunning⟩ := h.accepted hr haccepted
      simp only [Database.attempt, hdecision, Except.map, World.promises, hr.commit_durable,
        hr.commit_new]
      exact ⟨es', t', hrunning⟩

namespace Stopped

variable {config : Config} {file : File} {logged : List Batch} {promised : List Promise}
  {es : List (Frame × Batch)} {t : Tables} {m : Nat}

theorem crash (h : Stopped config file logged promised es t m) (keep : Nat) :
    Stopped config (file.crash keep) logged promised es t (min (max keep file.synced) m) := by
  refine {
    journal := h.journal, logged_eq := h.logged_eq, bytes := ?_, early := ?_, promises := ?_ }
  · change file.bytes.take _ = _
    rw [h.bytes, take_take]
  · rw [File.synced_crash]
    exact h.early
  · rw [File.synced_crash]
    exact h.promises

/-- A handle opened over a file with a whole header holds the batches that are
complete in it, and these include all that was promised. -/
theorem openExclusive (h : Stopped config file logged promised es t m)
    (hlong : databaseHeaderBytes ≤ file.bytes.length) (io : OpenIo) :
    (∃ db es' t', Database.openExclusive config [] file io = (.ok db, db.file) ∧
      Running config db (survived logged db) (survived logged db) promised es' t') ∨
    (∃ file' m', Database.openExclusive config [] file io = (.error .io, file') ∧ io ≠ {} ∧
      Stopped config file' logged promised es t m') := by
  have hm : databaseHeaderBytes ≤ m := by
    rw [h.bytes, length_take] at hlong
    omega
  obtain ⟨es', t', torn, hjournal, htorn, htake, hfilter, hkept⟩ := h.journal.cut hm
  have hbytes : file.bytes = logBytes (es'.map Prod.fst) ++ torn := h.bytes.trans htake
  have hsynced : ∀ b ∈ logged, b.stop ≤ file.synced → b ∈ es'.map Prod.snd := by
    intro b hb hstop
    rw [h.logged_eq] at hb
    refine hkept b hb (Nat.le_trans hstop (Nat.le_trans file.synced_le ?_))
    rw [h.bytes, length_take]
    exact Nat.min_le_left ..
  rcases Database.openExclusive_logged hbytes hjournal.fits hjournal.replay htorn io with
    ⟨db, hopen, hdb, -, hfile, hdbsynced, hcursors⟩ | ⟨file', hopen, hio, hfile, hfilesynced⟩
  · have hsurvived : survived logged db = es'.map Prod.snd := by
      rw [survived, h.logged_eq, File.length, hfile]
      exact hfilter
    refine .inl ⟨db, es', t', hopen, ?_⟩
    rw [hsurvived]
    exact
      { journal := hjournal
        configured := hdb.config
        tables := hdb.tables
        held_eq := rfl
        log := ⟨[], t', _, by simpa using hjournal, by simp,
          by rw [append_nil, take_length]; exact hfile, Nat.le_refl _⟩
        clean := fun _ => ⟨rfl, hfile⟩
        counter := fun _ _ => hdbsynced
        cursors := fun source durable hdurable =>
          ⟨durable, hcursors ▸ hdurable, UInt64.le_refl durable⟩
        watermark := fun b hb _ _ _ => by
          rw [hdbsynced, hfile]
          exact hjournal.stop_le b hb
        header := by
          rw [hdbsynced, hfile, length_logBytes]
          exact Nat.le_add_right ..
        promises := fun p hp => (h.promises p hp).imp fun b hb hstop => by
          rw [hdbsynced, hfile]
          exact ⟨hsynced b hb hstop, hjournal.stop_le b (hsynced b hb hstop)⟩ }
  · have hpromises : ∀ p ∈ promised, p.Safe logged file'.synced := fun p hp =>
      (h.promises p hp).imp fun b hb hstop => by
        have := hjournal.stop_le b (hsynced b hb hstop)
        exact ⟨hb, by omega⟩
    have hearly : file'.synced < databaseHeaderBytes → es = [] ∧ promised = [] := by
      intro hearly
      have := length_logBytes (es'.map Prod.fst)
      exact h.early (by omega)
    rcases hfile with hfile | hfile
    · exact .inr ⟨file', m, hopen, hio, h.journal, h.logged_eq, hfile.trans h.bytes, hearly,
        hpromises⟩
    · refine .inr ⟨file', min (logBytes (es'.map Prod.fst)).length m, hopen, hio, h.journal,
        h.logged_eq, ?_, hearly, hpromises⟩
      rw [hfile, ← take_take, htake, take_left]

end Stopped

variable {config : Config}

theorem World.Inv.crash {w : World} (h : w.Inv config) (keep : Nat) :
    (w.step config (.crash keep)).Inv config := by
  obtain ⟨process, logged, held, promised⟩ := w
  cases process with
  | stopped file =>
    obtain ⟨es, t, m, h⟩ := h
    exact ⟨es, t, _, h.crash keep⟩
  | running db =>
    obtain ⟨es, t, h⟩ := h
    exact h.crash keep

theorem World.Inv.watermarks {w : World} (h : w.Inv config) (sourceId : U128) :
    (w.step config (.watermarks sourceId)).Inv config := by
  obtain ⟨process, logged, held, promised⟩ := w
  cases process with
  | stopped file => exact h
  | running db =>
    obtain ⟨es, t, h⟩ := h
    refine ⟨es, t, h.promise fun p hp => ?_⟩
    obtain ⟨b, hb, rfl⟩ := mem_map.mp hp
    obtain ⟨hheld, hcovered⟩ := mem_filter.mp hb
    split at hcovered
    · next identity hid =>
      rw [Bool.and_eq_true, decide_eq_true_eq] at hcovered
      obtain ⟨rfl, hsequence⟩ := hcovered
      exact ⟨hheld, h.watermark b hheld identity hid hsequence⟩
    · cases hcovered

/-- A reopen that comes down to an open over a file with a whole header. -/
theorem Stopped.reopen {file file₀ : File} {logged held : List Batch}
    {promised : List Promise} {es : List (Frame × Batch)} {t : Tables} {m : Nat}
    (h : Stopped config file logged promised es t m)
    (hlong : databaseHeaderBytes ≤ file.bytes.length) {io : OpenIo}
    (hopen : Database.openMode config false [] file₀ io =
      Database.openExclusive config [] file io) :
    (World.step config ⟨.stopped file₀, logged, held, promised⟩ (.reopen io)).Inv config := by
  rcases h.openExclusive hlong io with
    ⟨db, es', t', hok, hrunning⟩ | ⟨file', m', herror, -, hstopped⟩
  · simp only [World.step, hopen, hok]
    exact ⟨es', t', hrunning⟩
  · simp only [World.step, hopen, herror]
    exact ⟨es, t, m', hstopped⟩

theorem World.Inv.reopen {w : World} (h : w.Inv config) (io : OpenIo) :
    (w.step config (.reopen io)).Inv config := by
  obtain ⟨process, logged, held, promised⟩ := w
  cases process with
  | running db => exact h
  | stopped file =>
  obtain ⟨es, t, m, h⟩ := h
  cases hconfig : config.validate with
  | error e =>
    simp only [World.step, Database.openMode, hconfig]
    exact ⟨es, t, m, h⟩
  | ok _ =>
  have hopen : Database.openMode config false [] file io =
      Database.openExclusive config [] file io := by
    rw [Database.openMode, hconfig]
    rfl
  by_cases hlong : databaseHeaderBytes ≤ file.bytes.length
  · exact h.reopen hlong hopen
  -- the header is not whole yet, so nothing was written behind it
  obtain ⟨rfl, hnone⟩ := h.early (Nat.lt_of_le_of_lt file.synced_le (Nat.not_le.mp hlong))
  have hpromised : ∀ synced : Nat, ∀ p ∈ promised, p.Safe logged synced := by
    rw [show promised = [] from hnone]
    simp
  by_cases hnil : file.bytes = []
  · rcases Database.openExclusive_new hnil config [] io with
      ⟨file', n, herror, hbytes, -⟩ | ⟨file', hbytes, hsynced, hagain⟩
    · simp only [World.step, hopen, herror]
      exact ⟨[], {}, n, .nil, h.logged_eq, hbytes, fun _ => ⟨rfl, hnone⟩, hpromised _⟩
    · have hfile : Stopped config file' logged promised [] {} databaseHeaderBytes :=
        ⟨.nil, h.logged_eq, hbytes, fun _ => ⟨rfl, hnone⟩, hpromised _⟩
      exact hfile.reopen (Nat.le_of_eq (congrArg List.length hbytes).symm) (hopen.trans hagain)
  · have hshort := Database.openExclusive_short hnil (Nat.not_le.mp hlong) config [] io
    simp only [World.step, hopen, hshort]
    exact ⟨[], t, m, h⟩

theorem World.inv_run (config : Config) (events : List Event) :
    (World.run config events).Inv config := by
  have hstep : ∀ w : World, w.Inv config → ∀ event, (w.step config event).Inv config := by
    intro w hw event
    cases event with
    | call c io => exact hw.call c io
    | watermarks sourceId => exact hw.watermarks sourceId
    | crash keep => exact hw.crash keep
    | reopen io => exact hw.reopen io
  have hinitial : World.initial.Inv config :=
    ⟨[], {}, 0, .nil, rfl, rfl, fun _ => ⟨rfl, rfl⟩, by simp [World.initial]⟩
  rw [World.run]
  induction events using List.reverseRecOn with
  | nil => exact hinitial
  | append_singleton events event ih =>
    rw [foldl_concat]
    exact hstep _ ih event

/-! ## The promises are kept -/

/-- What the acknowledgements of a world are worth. -/
structure World.Sound (config : Config) (w : World) : Prop where
  /-- An open handle holds exactly the batches it is said to know. -/
  carries : ∀ db, w.process = .running db → db.toTables.Carries w.held
  /-- All that was ever promised is among them. -/
  kept : ∀ db, w.process = .running db → ∀ p ∈ w.promised, p.Kept w.held
  watermarks : ∀ db, w.process = .running db → ∀ source durable,
    (db.ingressWatermarks source).durableThrough = some durable →
      ∃ accepted, (db.ingressWatermarks source).acceptedThrough = some accepted ∧
        durable ≤ accepted
  counter : ∀ db, w.process = .running db → db.poisoned = false → db.bytesSinceSync = 0 →
    db.file.synced = db.file.length
  /-- A file about which something was promised can be opened. -/
  reopens : ∀ file, w.process = .stopped file → w.promised ≠ [] →
    ∃ db, Database.openMode config false [] file {} = (.ok db, db.file)

/-- Durability acknowledgements are sound behind any calls, failures, crashes and
reopens, under every policy. -/
theorem World.run_sound (config : Config) (hconfig : config.validate = .ok ())
    (events : List Event) : (World.run config events).Sound config := by
  have hinv := World.inv_run config events
  generalize World.run config events = w at hinv ⊢
  obtain ⟨process, logged, held, promised⟩ := w
  cases process with
  | running db =>
    obtain ⟨es, t, h⟩ := hinv
    refine ⟨?_, ?_, ?_, ?_, ?_⟩
    · rintro _ ⟨⟩
      exact h.carries
    · rintro _ ⟨⟩ p hp
      exact (h.promises p hp).kept
    · rintro _ ⟨⟩
      exact h.cursors
    · rintro _ ⟨⟩
      exact h.counter
    · rintro _ ⟨⟩
  | stopped file =>
    obtain ⟨es, t, m, h⟩ := hinv
    refine ⟨?_, ?_, ?_, ?_, ?_⟩
    · rintro _ ⟨⟩
    · rintro _ ⟨⟩
    · rintro _ ⟨⟩
    · rintro _ ⟨⟩
    rintro _ ⟨⟩ hpromised
    have hlong : databaseHeaderBytes ≤ file.bytes.length := by
      refine Nat.le_trans (Nat.le_of_not_lt fun hearly => ?_) file.synced_le
      exact hpromised (h.early hearly).2
    rcases h.openExclusive hlong {} with ⟨db, es', t', hok, -⟩ | ⟨_, _, _, hio, _⟩
    · refine ⟨db, ?_⟩
      rw [Database.openMode, hconfig]
      exact hok
    · exact absurd rfl hio

end

/-- A configuration under which only a flush syncs. -/
def Config.manual : Config := { durability := .manual }

/-- A source skips a batch that a crash took away: its batch 5 is lost, and batch
6 is written and flushed. -/
def skippingSource : List Event :=
  [.reopen {},
    .call (.commitIngress ⟨1, 5, 105⟩ { records := [.entity
      { id := 1, kind := "site", name := "home", parent := none, validFrom := 0, validTo := none,
        properties := ∅ }] }) {},
    .crash 0, .reopen {},
    .call (.commitIngress ⟨1, 6, 106⟩ { records := [.entity
      { id := 2, kind := "meter", name := "main", parent := none, validFrom := 0, validTo := none,
        properties := ∅ }] }) {},
    .call .flush {}]

set_option maxRecDepth 20000 in
/-- The watermark 6 does not bring back the batch 5 that an earlier handle had
accepted: a watermark speaks of the batches of the handle that reports it. -/
theorem skippingSource_covers_lost :
    letI := Jiff.withoutZones
    ((World.run .manual (skippingSource.take 2)).held.map Batch.identity =
        [.ingress ⟨1, 5, 105⟩]) ∧
      (World.run .manual skippingSource).handle.map
        (fun db => (db.ingressWatermarks 1).durableThrough) = some (some 6) ∧
      (World.run .manual (skippingSource ++ [.crash 0, .reopen {}])).handle.map
        (fun db => (db.ingressReceipts[(⟨1, 5⟩ : IngressKey)]?, db.catalog.entities[(1 : U128)]?)) =
          some (none, none) := by
  decide +kernel

set_option maxRecDepth 20000 in
/-- Manual durability: the flush promises batch 6, and the handle behind a second
crash and reopen has the entity of that batch and no other. -/
theorem World.run_sound_skippingSource :
    letI := Jiff.withoutZones
    Config.manual.validate = .ok () ∧
      (World.run .manual (skippingSource ++ [.crash 0, .reopen {}])).promised.length = 1 ∧
      (World.run .manual (skippingSource ++ [.crash 0, .reopen {}])).handle.map
        (fun db => db.catalog.entities.keys) = some [2] ∧
      (World.run .manual (skippingSource ++ [.crash 0, .reopen {}])).Sound .manual := by
  let := Jiff.withoutZones
  refine ⟨by decide, by decide +kernel, by decide +kernel, ?_⟩
  exact World.run_sound .manual (by decide) _

end Ftwdb
