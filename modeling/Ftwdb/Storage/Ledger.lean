import Ftwdb.Storage.Journal
import Ftwdb.Storage.ReclaimLaws

/-!
# Ledgers

The published seals only decide which points a scan drops at a checkpoint.  What
is left of the tables without the points is their ledger, and every replay of
one log gives the same ledger (`Tables.replay_ledger`).  `Database.Framed` says
that this is the ledger of the handle.  Every handle that can write is framed
(`Database.Reachable.healthy`), which is why a frame that the handle has decided
to write is accepted by any replay of its log.
-/

namespace Ftwdb

open ByteCodec Check KeyedMap

/-! ## Ledgers -/

namespace Tables

/-- The tables without the points. -/
def ledger (t : Tables) : Tables :=
  { t with index := ∅, points := 0, commits := 0, pendingReclaim := false }

section Ledger

variable {t u t' : Tables}

theorem catalog_of_ledger (h : t.ledger = u.ledger) : t.catalog = u.catalog :=
  (congrArg Tables.catalog h :)

theorem commitIds_of_ledger (h : t.ledger = u.ledger) : t.commitIds = u.commitIds :=
  (congrArg Tables.commitIds h :)

theorem Fresh.of_ledger {identity : FrameIdentity} (hfresh : t.Fresh identity)
    (h : t.ledger = u.ledger) : u.Fresh identity := by
  have hreceipts : t.ingressReceipts = u.ingressReceipts := (congrArg Tables.ingressReceipts h :)
  have hcursors : t.ingressLastSequences = u.ingressLastSequences :=
    (congrArg Tables.ingressLastSequences h :)
  cases identity with
  | anonymous => exact trivial
  | identified commitId =>
    rw [Fresh, commitIds_of_ledger h] at hfresh
    exact hfresh
  | ingress identity =>
    rw [Fresh, commitIds_of_ledger h, hreceipts, hcursors] at hfresh
    exact hfresh

theorem ledger_addFrameReceipt (t : Tables) (identity : FrameIdentity) (payload : Bytes)
    (offset : Nat) (commit : Commit) :
    (t.addFrameReceipt identity payload offset commit).ledger =
      t.ledger.addFrameReceipt identity payload offset commit := by
  cases identity <;> rfl

theorem ledger_forgetDurable (h : t.ledger = u.ledger) :
    t.forgetDurable.ledger = u.forgetDurable.ledger := congrArg forgetDurable h

/-- A fold whose steps go through on both sides of equal ledgers. -/
theorem foldlM_ledger {α : Type} {f : Tables → α → Applied}
    (hstep : ∀ {t u t' : Tables} {a : α}, t.ledger = u.ledger → f t a = .ok t' →
      ∃ u', f u a = .ok u' ∧ t'.ledger = u'.ledger)
    {as : List α} (h : t.ledger = u.ledger) (ht : as.foldlM f t = .ok t') :
    ∃ u', as.foldlM f u = .ok u' ∧ t'.ledger = u'.ledger := by
  induction as generalizing t u with
  | nil =>
    obtain rfl : t = t' := by simpa [pure, Except.pure] using ht
    exact ⟨u, rfl, h⟩
  | cons a as ih =>
    rw [List.foldlM_cons, bind_eq_ok] at ht
    obtain ⟨t₁, ht₁, hrest⟩ := ht
    obtain ⟨u₁, hu₁, h₁⟩ := hstep h ht₁
    obtain ⟨u', hu', h'⟩ := ih h₁ hrest
    refine ⟨u', ?_, h'⟩
    rw [List.foldlM_cons, hu₁]
    exact hu'

theorem applyIdentityIndex_ledger {payload : Bytes} {offset : Nat} (h : t.ledger = u.ledger)
    (ht : t.applyIdentityIndex payload offset = .ok t') :
    ∃ u', u.applyIdentityIndex payload offset = .ok u' ∧ t'.ledger = u'.ledger := by
  simp only [applyIdentityIndex, bind_eq_ok, mapError_eq_ok] at ht ⊢
  obtain ⟨index, hindex, t₁, ht₁, ht'⟩ := ht
  obtain ⟨u₁, hu₁, h₁⟩ := foldlM_ledger
    (f := fun t r => t.applyIdentifiedReceipt r offset) (fun {t u t' r} h ht => by
      obtain ⟨kept, hlong, hkept, hfresh, rfl⟩ := applyIdentifiedReceipt_eq_ok.mp ht
      rw [commitIds_of_ledger h] at hfresh
      exact ⟨_, applyIdentifiedReceipt_eq_ok.mpr ⟨kept, hlong, hkept, hfresh, rfl⟩,
        congrArg (addIdentified · r.commitId (r.stored kept offset)) h⟩) h ht₁
  obtain ⟨u', hu', h'⟩ := foldlM_ledger
    (f := fun t r => t.applyIngressReceipt r offset) (fun {t u t' r} h ht => by
      obtain ⟨kept, hlong, hkept, hfresh, rfl⟩ := applyIngressReceipt_eq_ok.mp ht
      exact ⟨_, applyIngressReceipt_eq_ok.mpr ⟨kept, hlong, hkept, hfresh.of_ledger h, rfl⟩,
        congrArg (addIngress · (r.stored kept)) h⟩) h₁ ht'
  exact ⟨u', ⟨index, hindex, u₁, hu₁, hu'⟩, h'⟩

theorem applySealCheckpoint_ledger {published : List UInt64} {f : Frame} {offset : Nat}
    (ht : t.applySealCheckpoint published f offset = .ok t') : t'.ledger = t.ledger := by
  simp only [applySealCheckpoint, bind_eq_ok, Except.ok.injEq] at ht
  obtain ⟨_, -, rfl⟩ := ht
  split <;> rfl

variable [Jiff]

variable {limits limits' : Limits} {offset : Nat} {u' : Tables}
  {published published' : List UInt64}

theorem applyTransaction_ledger {f : Frame} (h : t.ledger = u.ledger)
    (ht : t.applyTransaction limits f offset = .ok t')
    (hu : u.applyTransaction limits' f offset = .ok u') : t'.ledger = u'.ledger := by
  obtain ⟨records, catalog, -, hrecords, happlied, -, rfl⟩ := applyTransaction_eq_ok.mp ht
  obtain ⟨records', catalog', -, hrecords', happlied', -, rfl⟩ := applyTransaction_eq_ok.mp hu
  obtain rfl := Except.ok.inj (hrecords.symm.trans hrecords')
  rw [← catalog_of_ledger h] at happlied'
  obtain rfl := Except.ok.inj (happlied.symm.trans happlied')
  rw [recordTransaction, recordTransaction, ledger_addFrameReceipt, ledger_addFrameReceipt]
  exact congrArg (fun t : Tables => addFrameReceipt
    { t with catalog := catalog, catalogRecords := t.catalogRecords + metadataRecords records }
    _ _ _ _) h

/-- A frame that two tables with one ledger accept leaves them one ledger,
whatever the limits are and whatever seals are published. -/
theorem applyFrame_ledger {f : Frame} (h : t.ledger = u.ledger)
    (ht : t.applyFrame limits published offset f = .ok t')
    (hu : u.applyFrame limits' published' offset f = .ok u') : t'.ledger = u'.ledger := by
  obtain ⟨t₁, ht₁, rfl⟩ := map_eq_ok.mp ht
  obtain ⟨u₁, hu₁, rfl⟩ := map_eq_ok.mp hu
  cases hkind : f.kind with
  | legacyPoints =>
    simp only [applyPayload, hkind] at ht₁ hu₁
    simp only [applyLegacyPoints, bind_eq_ok, Except.ok.injEq] at ht₁ hu₁
    obtain ⟨_, -, rfl⟩ := ht₁
    obtain ⟨_, -, rfl⟩ := hu₁
    exact h
  | sealCheckpoint =>
    simp only [applyPayload, hkind] at ht₁ hu₁
    exact (applySealCheckpoint_ledger ht₁).trans (h.trans (applySealCheckpoint_ledger hu₁).symm)
  | identityIndex =>
    simp only [applyPayload, hkind] at ht₁ hu₁
    obtain ⟨u₂, hu₂, h₂⟩ := applyIdentityIndex_ledger h ht₁
    obtain rfl := Except.ok.inj (hu₂.symm.trans hu₁)
    exact h₂
  | transaction | identifiedTransaction | ingressTransaction =>
    simp only [applyPayload, hkind] at ht₁ hu₁
    exact (applyTransaction_ledger h ht₁ hu₁ :)

/-- All replays of one log give one ledger. -/
theorem replay_ledger {fs : List Frame} (h : t.ledger = u.ledger)
    (ht : replay limits published offset t fs = .ok t')
    (hu : replay limits' published' offset u fs = .ok u') : t'.ledger = u'.ledger := by
  induction fs generalizing offset t u with
  | nil =>
    cases ht
    cases hu
    exact h
  | cons f fs ih =>
    obtain ⟨t₁, hft, ht⟩ := replay_cons.mp ht
    obtain ⟨u₁, hfu, hu⟩ := replay_cons.mp hu
    exact ih (applyFrame_ledger h hft hfu) ht hu

end Ledger

/-- The ledger and the points make the tables. -/
theorem eq_of_ledger {t u : Tables} (h : t.ledger = u.ledger) (hindex : t.index = u.index)
    (hpoints : t.points = u.points) (hcommits : t.commits = u.commits)
    (hpending : t.pendingReclaim = u.pendingReclaim) : t = u := by
  cases t
  cases u
  simp_all [ledger]

end Tables

/-! ## Calls and ledgers -/

/-- The tables behind an accepted call. -/
def Call.enter (c : Call) (t : Tables) (frame : Frame) (catalog : Option Catalog) (offset : Nat)
    (commit : Commit) : Tables :=
  match c with
  | .append points => Database.insertPoints t points
  | .commit transaction =>
    Database.acceptTransaction t transaction frame.payload catalog offset commit
  | .commitIngress identity transaction =>
    Database.acceptTransaction t (transaction.withIngressIdentity identity) frame.payload catalog
      offset commit
  | .flush => t

theorem Database.ledger_acceptTransaction {t u : Tables}
    (h : t.forgetDurable.ledger = u.forgetDurable.ledger) (transaction : Transaction)
    (payload : Bytes) (catalog : Option Catalog) (offset : Nat) (commit : Commit) :
    (acceptTransaction t transaction payload catalog offset commit).forgetDurable.ledger =
      (acceptTransaction u transaction payload catalog offset commit).forgetDurable.ledger := by
  rw [Tables.forgetDurable_acceptTransaction, Tables.forgetDurable_acceptTransaction,
    acceptTransaction, acceptTransaction, Tables.ledger_addFrameReceipt,
    Tables.ledger_addFrameReceipt]
  exact congrArg (fun t : Tables => Tables.addFrameReceipt
    { t with
      catalog := catalog.getD t.catalog
      catalogRecords := t.catalogRecords + Tables.metadataRecords transaction.records } _ _ _ _) h

/-- What a call enters depends on the tables without their durability flags. -/
theorem Call.forgetDurable_enter {t u : Tables} (h : t.forgetDurable = u.forgetDurable)
    (c : Call) (frame : Frame) (catalog : Option Catalog) (offset : Nat) (commit : Commit) :
    (c.enter t frame catalog offset commit).forgetDurable =
      (c.enter u frame catalog offset commit).forgetDurable := by
  cases c with
  | append points => exact congrArg (Database.insertPoints · points) h
  | commit transaction =>
    rw [enter, enter, Tables.forgetDurable_acceptTransaction, h,
      Tables.forgetDurable_acceptTransaction]
  | commitIngress identity transaction =>
    rw [enter, enter, Tables.forgetDurable_acceptTransaction, h,
      Tables.forgetDurable_acceptTransaction]
  | flush => exact h

/-- What a call adds to the ledger depends on the ledger alone. -/
theorem Call.ledger_enter {t u : Tables} (h : t.forgetDurable.ledger = u.forgetDurable.ledger)
    (c : Call) (frame : Frame) (catalog : Option Catalog) (offset : Nat) (commit : Commit) :
    (c.enter t frame catalog offset commit).forgetDurable.ledger =
      (c.enter u frame catalog offset commit).forgetDurable.ledger := by
  cases c with
  | append points => exact h
  | commit transaction => exact Database.ledger_acceptTransaction h ..
  | commitIngress identity transaction => exact Database.ledger_acceptTransaction h ..
  | flush => exact h

namespace Database

variable [Jiff]

/-- The receipt of an accepted call. -/
def callReceipt (db : Database) (c : Call) (frame : Frame) (durable : Bool) : Commit :=
  match c with
  | .append points => db.writtenCommit frame points.length 1 durable
  | .commit t | .commitIngress _ t => db.writtenCommit frame t.pointCount t.recordCount durable
  | .flush => db.writtenCommit frame 0 0 durable

/-- A call other than a flush, with the tables it leaves when it is accepted. -/
theorem call_enters (db : Database) (io : Io) {c : Call} (hc : c ≠ .flush) :
    ∃ r, db.call io c = (r.1.map some, r.2) ∧
      Acted db (db.decideCall c) io (db.callReceipt c)
        (fun frame catalog commit =>
          c.enter db.toTables frame catalog db.file.length commit) r := by
  cases c with
  | append points => exact ⟨_, rfl, db.append_acted points io⟩
  | commit t => exact ⟨_, rfl, db.commit_acted t io⟩
  | commitIngress identity t =>
    exact ⟨_, rfl, db.commit_acted (t.withIngressIdentity identity) io⟩
  | flush => exact absurd rfl hc

theorem writes_call {db : Database} {c : Call} {frame : Frame} {catalog : Option Catalog}
    (h : db.decideCall c = .write frame catalog) (published : List UInt64) (durable : Bool) :
    db.Writes published frame
      (c.enter db.toTables frame catalog db.file.length (db.callReceipt c frame durable)) := by
  cases c with
  | append points => exact writes_append h published
  | commit t => exact writes_commit h published durable
  | commitIngress identity t =>
    have hdecide : db.decide (t.withIngressIdentity identity) = .write frame catalog := h
    exact writes_commit hdecide published durable
  | flush => cases h

/-- The handle with the points of other tables. -/
def reindexed (db : Database) (t : Tables) : Database :=
  { db with
    index := t.index.sort
    points := t.points
    commits := t.commits
    pendingReclaim := t.pendingReclaim }

/-- No decision looks at the points. -/
theorem decideCall_reindexed (db : Database) (t : Tables) (c : Call) :
    (db.reindexed t).decideCall c = db.decideCall c := by
  cases c <;> rfl

/-- The file holds the frames `fs`, and the handle has the ledger of every replay
of them. -/
structure Framed (db : Database) (fs : List Frame) : Prop where
  bytes : db.file.bytes = logBytes fs
  ledger : ∀ {limits : Limits} {published : List UInt64} {t : Tables},
    replay limits published databaseHeaderBytes {} fs = .ok t →
      db.toTables.forgetDurable.ledger = t.forgetDurable.ledger

namespace Framed

variable {db db' : Database} {fs : List Frame} {t : Tables} {limits : Limits}
  {published : List UInt64}

/-- With the points of a replay, the handle has the tables of the replay. -/
theorem reindexed_matches (h : db.Framed fs)
    (hreplay : replay limits published databaseHeaderBytes {} fs = .ok t) :
    (db.reindexed t).toTables.Matches t := by
  have hledger := h.ledger hreplay
  refine Tables.eq_of_ledger ?_ rfl rfl rfl rfl
  exact hledger

/-- Any replay of the log accepts the frame of a call, and has entered it then. -/
theorem applyFrame_call (h : db.Framed fs)
    (hreplay : replay limits published databaseHeaderBytes {} fs = .ok t) {c : Call}
    {frame : Frame} {catalog : Option Catalog} (hdecision : db.decideCall c = .write frame catalog)
    (durable : Bool) :
    frame.Fits db.config.limits ∧ ∃ t',
      t.applyFrame db.config.limits published db.file.length frame = .ok t' ∧
      (c.enter (db.reindexed t).toTables frame catalog db.file.length
        (db.callReceipt c frame durable)).Matches t' := by
  have hwrites := writes_call ((db.decideCall_reindexed t c).trans hdecision) published durable
  exact ⟨hwrites.fits, hwrites.step t (h.reindexed_matches hreplay)⟩

/-- One more frame, which leaves the handle the ledger it leaves a replay. -/
theorem concat (h : db.Framed fs) {frame : Frame}
    (hbytes : db'.file.bytes = db.file.bytes ++ frame.encode)
    (hledger : ∀ {limits : Limits} {published : List UInt64} {t t' : Tables},
      replay limits published databaseHeaderBytes {} fs = .ok t →
      t.applyFrame limits published db.file.length frame = .ok t' →
      db'.toTables.forgetDurable.ledger = t'.forgetDurable.ledger) :
    db'.Framed (fs ++ [frame]) where
  bytes := by
    rw [hbytes, h.bytes, logBytes_append, frameBytes_cons, frameBytes_nil, List.append_nil]
  ledger := by
    intro limits published t' hreplay
    obtain ⟨t, ht, hstep⟩ := replay_of_append hreplay
    rw [← length_logBytes, ← h.bytes, replay] at hstep
    cases happly : t.applyFrame limits published db.file.bytes.length frame with
    | error e => simp [happly] at hstep
    | ok t₁ =>
      simp only [happly, replay] at hstep
      cases hstep
      exact hledger ht happly

end Framed

/-- A handle that can write has its log in frames. -/
def Healthy (db : Database) : Prop :=
  db.readOnly = false → db.poisoned = false →
    ∃ fs, (∀ f ∈ fs, f.Fits db.config.limits) ∧ db.Framed fs

namespace Healthy

variable {db db' : Database}

/-- Changes that leave the bytes and the ledger alone. -/
theorem of_same (h : db.Healthy) (hreadOnly : db'.readOnly = db.readOnly)
    (hpoisoned : db'.poisoned = false → db.poisoned = false) (hconfig : db'.config = db.config)
    (hbytes : db'.file.bytes = db.file.bytes)
    (hledger : db'.toTables.forgetDurable.ledger = db.toTables.forgetDurable.ledger) :
    db'.Healthy := by
  intro hwritable hhealthy
  obtain ⟨fs, hfits, hframed⟩ := h (hreadOnly ▸ hwritable) (hpoisoned hhealthy)
  exact ⟨fs, hconfig ▸ hfits, hbytes.trans hframed.bytes, fun hreplay =>
    hledger.trans (hframed.ledger hreplay)⟩

/-- One more frame at the end of the log. -/
theorem concat (h : db.Healthy) {frame : Frame} (hreadOnly : db'.readOnly = db.readOnly)
    (hpoisoned : db'.poisoned = false → db.poisoned = false) (hconfig : db'.config = db.config)
    (hfits : frame.Fits db.config.limits)
    (hbytes : db'.file.bytes = db.file.bytes ++ frame.encode)
    (hledger : ∀ {fs : List Frame}, db.Framed fs →
      ∀ {limits : Limits} {published : List UInt64} {t t' : Tables},
      replay limits published databaseHeaderBytes {} fs = .ok t →
      t.applyFrame limits published db.file.length frame = .ok t' →
      db'.toTables.forgetDurable.ledger = t'.forgetDurable.ledger) : db'.Healthy := by
  intro hwritable hhealthy
  obtain ⟨fs, hall, hframed⟩ := h (hreadOnly ▸ hwritable) (hpoisoned hhealthy)
  refine ⟨fs ++ [frame], ?_, hframed.concat hbytes (hledger hframed)⟩
  intro f hf
  rw [hconfig]
  rcases List.mem_append.mp hf with hf | hf
  · exact hall f hf
  · rw [List.mem_singleton.mp hf]
    exact hfits

theorem opened {config : Config} {readOnly : Bool} {published : List UInt64} {file file' : File}
    {io : OpenIo} (h : openMode config readOnly published file io = (.ok db, file')) :
    db.Healthy := by
  obtain ⟨hconfig, hreadOnly, -, fs, torn, t, hfits, hreplay, hmatch, hbytes, hclean⟩ :=
    openMode_eq_ok h
  intro hwritable _
  rw [hclean (hreadOnly.symm.trans hwritable), List.append_nil] at hbytes
  refine ⟨fs, hconfig ▸ hfits, hbytes, fun {limits published' t'} hreplay' => ?_⟩
  have hledger := Tables.replay_ledger rfl hreplay hreplay'
  rw [hmatch.eq]
  exact (Tables.ledger_forgetDurable hledger :)

/-- Whatever a call does, it leaves the log in frames or the handle poisoned. -/
theorem call (h : db.Healthy) (io : Io) (c : Call) : (db.call io c).2.Healthy := by
  by_cases hc : c = .flush
  · subst hc
    rw [Database.call]
    rcases db.flush_cases io with ⟨e, poison, hflush, -⟩ | ⟨hreadOnly, hpoisoned, hflush⟩
    · rw [hflush]
      exact h.of_same rfl (fun hp => (Bool.or_eq_false_iff.mp hp).1) rfl rfl rfl
    · rw [hflush]
      exact h.of_same rfl id rfl rfl rfl
  obtain ⟨r, hcall, hacted⟩ := db.call_enters io hc
  rw [hcall]
  cases hacted with
  | answered => exact h
  | refused => exact h.of_same rfl (fun hp => (Bool.or_eq_false_iff.mp hp).1) rfl rfl rfl
  | broke _ hbroke =>
    intro _ hhealthy
    rw [hbroke.poisoned] at hhealthy
    cases hhealthy
  | @accepted frame catalog durable db' hdecision haccepted htables =>
    refine h.concat haccepted.readOnly (fun hp => haccepted.poisoned ▸ hp) haccepted.config
      (writes_call hdecision [] durable).fits haccepted.bytes ?_
    intro fs hframed limits published t t' hreplay happly
    obtain ⟨-, t₁, happly₁, hmatch⟩ := hframed.applyFrame_call hreplay hdecision durable
    have hsame : db.toTables.forgetDurable.ledger =
        (db.reindexed t).toTables.forgetDurable.ledger := rfl
    rw [htables, c.ledger_enter hsame,
      Tables.ledger_forgetDurable (Tables.applyFrame_ledger rfl happly happly₁)]
    exact (congrArg Tables.ledger hmatch.eq :)

theorem writeSealCheckpoint (h : db.Healthy) (generation points : UInt64) (io flushIo : Io) :
    (db.writeSealCheckpoint generation points io flushIo).2.Healthy := by
  refine writeSealCheckpoint_preserves h ?_ (fun _ hwritten => hwritten.call flushIo .flush)
    fun _ hflushed => hflushed.of_same rfl id rfl rfl rfl
  cases hwrite : db.writeFrame (checkpointFrame generation points) io with
  | mk result db₁ =>
    cases result with
    | error e =>
      intro _ hhealthy
      rw [(writeFrame_eq_error hwrite).2.poisoned] at hhealthy
      cases hhealthy
    | ok durable =>
      obtain ⟨haccepted, htables⟩ := writeFrame_eq_ok hwrite
      refine h.concat haccepted.readOnly (fun hp => haccepted.poisoned ▸ hp) haccepted.config
        ?_ haccepted.bytes ?_
      · intro offset
        simp [checkFrameHeader, checkpointFrame, sealCheckpointBytes, failIf]
      · intro fs hframed limits published t t' hreplay happly
        obtain ⟨t₁, happly₁, rfl⟩ := map_eq_ok.mp happly
        have hledger := Tables.ledger_forgetDurable (Tables.applySealCheckpoint_ledger happly₁)
        rw [htables, hframed.ledger hreplay]
        exact hledger.symm

theorem adopt {order : List UInt64} {file : File} {scan : Scan} (hsound : db.Sound)
    (h : db.compactLog order = .ok (file, scan)) : (db.adopt file scan).Healthy := by
  obtain ⟨frames, t, hcompacted, hbytes, htables⟩ := compactLog_eq_ok hsound h
  intro _ _
  refine ⟨frames, hcompacted.fits, hbytes, fun {limits published t'} hreplay => ?_⟩
  rw [← Tables.ledger_forgetDurable (Tables.replay_ledger rfl hcompacted.replay hreplay)]
  calc (db.adopt file scan).toTables.forgetDurable.ledger
      = scan.toTables.markReceiptsDurable.forgetDurable.ledger := rfl
    _ = t.sortIndex.forgetDurable.ledger := by
        rw [Tables.forgetDurable_markReceiptsDurable, htables]
    _ = t.forgetDurable.ledger := rfl

theorem reclaimLiveLog (h : db.Healthy) (hsound : db.Sound) (order : List UInt64)
    (io : ReclaimIo) : (db.reclaimLiveLog order io).2.Healthy := by
  refine (reclaimLiveLog_preserves (P := fun db => db.Healthy ∧ db.Sound) ⟨h, hsound⟩
    ⟨h.call io.flush .flush, hsound.flush io.flush⟩ ?_ ?_).1
  · intro db' hflushed
    exact ⟨fun _ hhealthy => absurd hhealthy (by simp), hflushed.2⟩
  · intro db' file scan hflushed hcompact
    exact ⟨adopt hflushed.2 hcompact, Sound.compactLog_adopt hcompact _⟩

end Healthy

theorem Reachable.healthy {db : Database} (h : Reachable db) : db.Healthy := by
  induction h with
  | opened h => exact .opened h
  | append points io _ ih => exact ih.call io (.append points)
  | commit t io _ ih => exact ih.call io (.commit t)
  | flush io _ ih => exact ih.call io .flush
  | writeSealCheckpoint generation points io flushIo _ ih =>
    exact ih.writeSealCheckpoint generation points io flushIo
  | attachSealedSegments segments _ ih => exact ih.of_same rfl id rfl rfl rfl
  | clearLiveIndex _ ih => exact ih.of_same rfl id rfl rfl rfl
  | reclaimLiveLog order io hreachable ih => exact ih.reclaimLiveLog hreachable.sound order io

end Database

end Ftwdb
