import Ftwdb.Storage.Ledger

/-!
# Failed calls

A call that fails with anything but an I/O error or damaged bytes leaves the
handle as it was.  A write or sync that fails leaves the tables as they were and
a part of the frame in the file, possibly all of it; the handle is poisoned, and
from then on every call fails and changes nothing.  A reopen finds the tables
without the transaction or with all of it (`Database.Reachable.failsStop`).
-/

namespace Ftwdb

open ByteCodec Check KeyedMap List

theorem File.ext_bytes {file file' : File} (hbytes : file'.bytes = file.bytes)
    (hsynced : file'.synced = file.synced) : file' = file := by
  cases file
  cases file'
  simp_all

namespace Database

/-! ## Reopening -/

section Reopen

variable [Jiff] {config : Config} {published : List UInt64} {file : File} {fs : List Frame}
  {torn : Bytes}

/-- An open over complete frames and a torn one succeeds if the frames fit and
replay. -/
theorem openMode_of_replay (hvalid : config.validate = .ok ()) {t : Tables}
    (hbytes : file.bytes = logBytes fs ++ torn) (htorn : TornFrame config.limits torn)
    (hfits : ∀ f ∈ fs, f.Fits config.limits)
    (hreplay : replay config.limits published databaseHeaderBytes {} fs = .ok t) :
    ∃ db, openMode config false published file {} = (.ok db, db.file) ∧ db.toTables.Matches t := by
  rw [openMode, hvalid]
  rcases openExclusive_logged hbytes hfits hreplay htorn {} with
    ⟨db, hopen, hopened, -⟩ | ⟨_, _, hio, _⟩
  · exact ⟨db, hopen, hopened.tables⟩
  · exact absurd rfl hio

/-- It succeeds only if they do. -/
theorem replay_of_openMode {db : Database} {file' : File} {io : OpenIo}
    (hbytes : file.bytes = logBytes fs ++ torn)
    (h : openMode config false published file io = (.ok db, file')) :
    (∀ f ∈ fs, f.Fits config.limits) ∧
      ∃ t, replay config.limits published databaseHeaderBytes {} fs = .ok t := by
  obtain ⟨scan, hscan, -⟩ := scanLog_of_openMode (hbytes ▸ logBytes_append_ne_nil fs torn) h
  rw [hbytes] at hscan
  exact replay_of_scanLog hscan

end Reopen

/-! ## Calls that break -/

section Break

variable {db db' : Database} {io : Io} {c : Call}

/-- The handle behind a broken call: what is in memory is as it was. -/
structure Stopped (db db' : Database) : Prop where
  same : db' = { db with
    file := db'.file, bytesSinceSync := db'.bytesSinceSync, poisoned := true }
  synced : db'.file.synced = db.file.synced

theorem writeFrame_breaks {frame : Frame}
    (h : (db.file.write frame.encode io.writeFails).2 = false ∨
      db.config.shouldSync (db.bytesSinceSync + frame.encode.length) = true ∧
        io.syncFails = true) :
    ∃ db', db.writeFrame frame io = (.error .io, db') ∧ db.Stopped db' := by
  rw [writeFrame]
  rcases hwrite : db.file.write frame.encode io.writeFails with ⟨file, _ | _⟩
  · exact ⟨_, rfl, rfl, (File.write_eq_false hwrite).1⟩
  · rw [hwrite] at h
    obtain ⟨hsync, hfails⟩ := h.resolve_left Bool.noConfusion
    simp only [if_pos hsync, if_pos hfails]
    exact ⟨_, rfl, rfl, (File.write_eq_true hwrite).2⟩

/-- The two files a crash can leave are one file if it cuts before the part of
the frame. -/
theorem crash_eq_of_le {part : Bytes} {keep : Nat} (hsynced : db'.file.synced = db.file.synced)
    (hbytes : db'.file.bytes = db.file.bytes ++ part)
    (hcut : max keep db.file.synced ≤ db.file.bytes.length) :
    db'.file.crash keep = db.file.crash keep := by
  have htake : db'.file.bytes.take (max keep db'.file.synced) =
      db.file.bytes.take (max keep db.file.synced) := by
    rw [hbytes, hsynced, take_append_of_le_length hcut]
  refine File.ext_bytes htake ?_
  change min _ (List.length _) = min _ (List.length _)
  rw [htake, hsynced]

/-- A crash that leaves the whole log leaves a part of what is behind it. -/
theorem bytes_crash_of_lt {part : Bytes} {keep : Nat} (hsynced : db'.file.synced = db.file.synced)
    (hbytes : db'.file.bytes = db.file.bytes ++ part)
    (hcut : db.file.bytes.length < max keep db.file.synced) :
    (db.file.crash keep).bytes = db.file.bytes ∧ ∃ n,
      (db'.file.crash keep).bytes = db.file.bytes ++ part.take n := by
  refine ⟨take_of_length_le (Nat.le_of_lt hcut),
    max keep db.file.synced - db.file.bytes.length, ?_⟩
  show db'.file.bytes.take (max keep db'.file.synced) = _
  rw [hbytes, hsynced, take_append, take_of_length_le (Nat.le_of_lt hcut)]

variable [Jiff]

/-- The write of the call fails, or the sync behind it. -/
def Breaks (db : Database) (io : Io) (c : Call) : Prop :=
  match c with
  | .flush => db.readOnly = false ∧ db.poisoned = false ∧ io.syncFails = true
  | c => ∃ frame catalog, db.decideCall c = .write frame catalog ∧
      ((db.file.write frame.encode io.writeFails).2 = false ∨
        db.config.shouldSync (db.bytesSinceSync + frame.encode.length) = true ∧
          io.syncFails = true)

/-- The file may hold a part of a frame that the handle has decided to write. -/
def LeftPart (db db' : Database) (c : Call) : Prop :=
  db'.file = db.file ∨ ∃ frame catalog n, db.decideCall c = .write frame catalog ∧
    db'.file.bytes = db.file.bytes ++ frame.encode.take n

/-- A broken call reports the failure and poisons the handle. -/
theorem Breaks.call (h : db.Breaks io c) :
    (db.call io c).1 = .error .io ∧ db.Stopped (db.call io c).2 ∧
      db.LeftPart (db.call io c).2 c := by
  have hwrite : ∀ {frame : Frame} {catalog : Option Catalog},
      db.decideCall c = .write frame catalog →
      ((db.file.write frame.encode io.writeFails).2 = false ∨
        db.config.shouldSync (db.bytesSinceSync + frame.encode.length) = true ∧
          io.syncFails = true) →
      ∃ db', db.writeFrame frame io = (.error .io, db') ∧ db.Stopped db' ∧ db.LeftPart db' c := by
    intro frame catalog hdecision hfails
    obtain ⟨db', hbroke, hstopped⟩ := writeFrame_breaks hfails
    obtain ⟨n, hbytes⟩ := (writeFrame_eq_error hbroke).2.bytes
    exact ⟨db', hbroke, hstopped, .inr ⟨frame, catalog, n, hdecision, hbytes⟩⟩
  have hcommit : ∀ {t : Transaction} {frame : Frame} {catalog : Option Catalog} {db' : Database},
      db.decide t = .write frame catalog → db.writeFrame frame io = (.error .io, db') →
      db.commit t io = (.error .io, db') := by
    intro t frame catalog db' hdecision hbroke
    simp only [commit, hdecision, hbroke]
  cases c with
  | append points =>
    obtain ⟨frame, catalog, hdecision, hfails⟩ := h
    obtain ⟨db', hbroke, hrest⟩ := hwrite hdecision hfails
    have happend : db.append points io = (.error .io, db') := by
      have hdecision' : db.decideAppend points = .write frame catalog := hdecision
      simp only [append, hdecision', hbroke]
    rw [Database.call, happend]
    exact ⟨rfl, hrest⟩
  | commit t =>
    obtain ⟨frame, catalog, hdecision, hfails⟩ := h
    obtain ⟨db', hbroke, hrest⟩ := hwrite hdecision hfails
    rw [Database.call, hcommit hdecision hbroke]
    exact ⟨rfl, hrest⟩
  | commitIngress identity t =>
    obtain ⟨frame, catalog, hdecision, hfails⟩ := h
    obtain ⟨db', hbroke, hrest⟩ := hwrite hdecision hfails
    have hdecide : db.decide (t.withIngressIdentity identity) = .write frame catalog := hdecision
    rw [Database.call, commitIngress, hcommit hdecide hbroke]
    exact ⟨rfl, hrest⟩
  | flush =>
    obtain ⟨hreadOnly, hpoisoned, hfails⟩ := h
    have hflush : db.flush io = (.error .io, { db with poisoned := true }) := by
      simp only [flush, hreadOnly, hpoisoned, hfails, if_true, Bool.false_eq_true, if_false]
    rw [Database.call, hflush]
    exact ⟨rfl, ⟨rfl, rfl⟩, .inl rfl⟩

/-! ## What a reopen finds -/

/-- A handle reopened over `file'` has the tables of one reopened over `file`, or
those with all of the call entered. -/
def ReopensNoneOrAll (db : Database) (c : Call) (file file' : File) : Prop :=
  ∀ published,
    (∀ db₀ file₀, openMode db.config false published file {} = (.ok db₀, file₀) →
      ∃ db₁ file₁, openMode db.config false published file' {} = (.ok db₁, file₁) ∧
        (db₁.toTables.forgetDurable = db₀.toTables.forgetDurable ∨
          ∃ frame catalog, db.decideCall c = .write frame catalog ∧
            db₁.toTables.forgetDurable = (c.enter db₀.toTables frame catalog db.file.length
              (db.callReceipt c frame false)).forgetDurable)) ∧
    ∀ db₁ file₁, openMode db.config false published file' {} = (.ok db₁, file₁) →
      ∃ db₀ file₀, openMode db.config false published file {} = (.ok db₀, file₀)

theorem Framed.reopens {fs : List Frame} (h : db.Framed fs) (hvalid : db.config.validate = .ok ())
    (hfits : ∀ f ∈ fs, f.Fits db.config.limits) {frame : Frame} {catalog : Option Catalog}
    (hdecision : db.decideCall c = .write frame catalog) {file file' : File} {n : Nat}
    (hbytes : file.bytes = db.file.bytes)
    (hpart : file'.bytes = db.file.bytes ++ frame.encode.take n) :
    db.ReopensNoneOrAll c file file' := by
  have hlog : file.bytes = logBytes fs ++ [] := by rw [hbytes, h.bytes, append_nil]
  have hframe := (writes_call hdecision [] false).fits
  intro published
  constructor
  · intro db₀ file₀ hopen
    obtain ⟨-, t, hreplay⟩ := replay_of_openMode hlog hopen
    obtain ⟨db₀', hopen', hmatch⟩ := openMode_of_replay hvalid hlog (.inl rfl) hfits hreplay
    obtain ⟨hsame, -⟩ := Prod.mk.inj (hopen.symm.trans hopen')
    cases hsame
    by_cases hall : frame.encode.length ≤ n
    · -- the whole frame is there, and every replay of the log takes it
      obtain ⟨-, t', happly, hentered⟩ := h.applyFrame_call hreplay hdecision false
      have hwhole : file'.bytes = logBytes (fs ++ [frame]) ++ [] := by
        rw [hpart, h.bytes, take_of_length_le hall, logBytes_append, frameBytes_cons,
          frameBytes_nil, append_nil, append_nil]
      rw [File.length, h.bytes, length_logBytes] at happly
      have hfits' : ∀ f ∈ fs ++ [frame], f.Fits db.config.limits := by
        intro f hf
        rcases mem_append.mp hf with hf | hf
        · exact hfits f hf
        · rw [mem_singleton.mp hf]
          exact hframe
      obtain ⟨db₁, hopen₁, hmatch₁⟩ := openMode_of_replay hvalid hwhole (.inl rfl) hfits'
        (replay_concat hreplay happly)
      refine ⟨db₁, _, hopen₁, .inr ⟨frame, catalog, hdecision, ?_⟩⟩
      rw [hmatch₁.eq, ← hentered.eq]
      exact c.forgetDurable_enter ((h.reindexed_matches hreplay).eq.trans hmatch.eq.symm) ..
    · have htorn : TornFrame db.config.limits (frame.encode.take n) :=
        .inr ⟨frame, n, hframe, Nat.lt_of_not_le hall, rfl⟩
      obtain ⟨db₁, hopen₁, hmatch₁⟩ :=
        openMode_of_replay hvalid (hpart.trans (by rw [h.bytes])) htorn
        hfits hreplay
      exact ⟨db₁, _, hopen₁, .inl (hmatch₁.eq.trans hmatch.eq.symm)⟩
  · intro db₁ file₁ hopen
    obtain ⟨-, t, hreplay⟩ := replay_of_openMode (hpart.trans (by rw [h.bytes])) hopen
    obtain ⟨db₀, hopen₀, -⟩ := openMode_of_replay hvalid hlog (.inl rfl) hfits hreplay
    exact ⟨db₀, _, hopen₀⟩

/-- The file of a broken call, after any crash. -/
theorem LeftPart.reopens (h : db.LeftPart db' c) (hhealthy : db.Healthy)
    (hvalid : db.config.validate = .ok ()) (hwritable : db.readOnly = false)
    (hpoisoned : db.poisoned = false) (hsynced : db'.file.synced = db.file.synced) (keep : Nat) :
    db.ReopensNoneOrAll c (db.file.crash keep) (db'.file.crash keep) := by
  have hsame : db'.file.crash keep = db.file.crash keep →
      db.ReopensNoneOrAll c (db.file.crash keep) (db'.file.crash keep) := by
    intro heq published
    rw [heq]
    exact ⟨fun db₀ file₀ hopen => ⟨db₀, file₀, hopen, .inl rfl⟩,
      fun db₁ file₁ hopen => ⟨db₁, file₁, hopen⟩⟩
  rcases h with hfile | ⟨frame, catalog, n, hdecision, hbytes⟩
  · exact hsame (by rw [hfile])
  obtain ⟨fs, hfits, hframed⟩ := hhealthy hwritable hpoisoned
  by_cases hcut : max keep db.file.synced ≤ db.file.bytes.length
  · exact hsame (crash_eq_of_le hsynced hbytes hcut)
  · obtain ⟨hlog, m, hpart⟩ := bytes_crash_of_lt hsynced hbytes (Nat.lt_of_not_le hcut)
    rw [take_take] at hpart
    exact hframed.reopens hvalid hfits hdecision hlog hpart

/-! ## Refusals -/

/-- Only an I/O error or damaged bytes poison the handle of a refused call. -/
def Decision.Soft : Decision → Prop
  | .refuse e poison => poison = true → e.isFatal = true
  | _ => True

theorem soft_decide (db : Database) (t : Transaction) : (db.decide t).Soft := by
  rcases db.decide_cases t with ⟨e, hrefused⟩ | ⟨-, -, hdecided⟩
  · rw [hrefused]
    exact nofun
  generalize db.decide t = decision at hdecided ⊢
  cases hdecided with
  | refused hfatal => exact hfatal
  | answered | written => trivial

theorem soft_decideCall (db : Database) (c : Call) : (db.decideCall c).Soft := by
  cases c with
  | append points =>
    rw [decideCall, decideAppend]
    repeat' split
    all_goals simp [Decision.Soft]
  | commit t => exact db.soft_decide t
  | commitIngress identity t => exact db.soft_decide (t.withIngressIdentity identity)
  | flush => simp [decideCall, Decision.Soft]

/-- A call that fails with another error has done nothing. -/
theorem call_error_same {e : Error} (h : (db.call io c).1 = .error e) (he : e.isFatal = false) :
    (db.call io c).2 = db := by
  by_cases hc : c = .flush
  · subst hc
    rw [call, flush] at h ⊢
    split
    · rfl
    split
    · rfl
    next hreadOnly hpoisoned =>
    rw [if_neg hreadOnly, if_neg hpoisoned] at h
    split at h <;> cases h
    cases he
  · obtain ⟨r, hcall, hacted⟩ := db.call_enters io hc
    rw [hcall] at h ⊢
    cases hacted with
    | answered => rfl
    | @refused e' poison hdecision =>
      cases h
      have hsoft := db.soft_decideCall c
      rw [hdecision] at hsoft
      have hpoison : poison = false := by
        cases poison with
        | false => rfl
        | true => rw [hsoft rfl] at he; cases he
      simp only [hpoison, Bool.or_false]
    | broke =>
      cases h
      cases he
    | accepted => cases h

/-! ## Poisoned handles -/

/-- The calls that can write to the log. -/
inductive Later where
  | call (c : Call) (io : Io)
  | writeSealCheckpoint (generation points : UInt64) (io flushIo : Io)
  | reclaimLiveLog (order : List UInt64) (io : ReclaimIo)

/-- One of these calls, with what it reports. -/
def later (db : Database) : Later → Except Error Unit × Database
  | .call c io => ((db.call io c).1.map fun _ => (), (db.call io c).2)
  | .writeSealCheckpoint generation points io flushIo =>
    db.writeSealCheckpoint generation points io flushIo
  | .reclaimLiveLog order io => db.reclaimLiveLog order io

/-- The results of calls one after the other, and the handle behind them. -/
def laterAll (db : Database) : List Later → List (Except Error Unit) × Database
  | [] => ([], db)
  | l :: ls => ((db.later l).1 :: ((db.later l).2.laterAll ls).1, ((db.later l).2.laterAll ls).2)

theorem decideCall_poisoned (hreadOnly : db.readOnly = false) (hpoisoned : db.poisoned = true)
    (hc : c ≠ .flush) : db.decideCall c = .refuse .poisoned false := by
  cases c with
  | append points => simp [decideCall, decideAppend, hreadOnly, hpoisoned]
  | commit t => simp [decideCall, Database.decide, hreadOnly, hpoisoned]
  | commitIngress identity t => simp [decideCall, Database.decide, hreadOnly, hpoisoned]
  | flush => exact absurd rfl hc

/-- A poisoned handle refuses every call and stays as it is. -/
theorem later_poisoned (hreadOnly : db.readOnly = false) (hpoisoned : db.poisoned = true)
    (l : Later) : db.later l = (.error .poisoned, db) := by
  cases l with
  | call c io =>
    by_cases hc : c = .flush
    · subst hc
      simp [later, call, flush, hreadOnly, hpoisoned, Except.map]
    · obtain ⟨r, hcall, hacted⟩ := db.call_enters io hc
      rw [decideCall_poisoned hreadOnly hpoisoned hc] at hacted
      cases hacted with
      | answered hdecision => cases hdecision
      | refused hdecision =>
        cases hdecision
        rw [later, hcall]
        simp only [Bool.or_false]
        rfl
      | broke hdecision => cases hdecision
      | accepted hdecision => cases hdecision
  | writeSealCheckpoint generation points io flushIo =>
    simp [later, writeSealCheckpoint, hreadOnly, hpoisoned]
  | reclaimLiveLog order io => simp [later, reclaimLiveLog, hreadOnly, hpoisoned]

theorem laterAll_poisoned (hreadOnly : db.readOnly = false) (hpoisoned : db.poisoned = true)
    (ls : List Later) :
    db.laterAll ls = (List.replicate ls.length (.error .poisoned), db) := by
  induction ls with
  | nil => rfl
  | cons l ls ih =>
    rw [laterAll, later_poisoned hreadOnly hpoisoned, ih]
    rfl

/-! ## Histories -/

/-- A handle over the log of another one. -/
structure Reopened (db db' : Database) : Prop where
  bytes : db'.file.bytes = db.file.bytes
  ledger : db'.toTables.forgetDurable.ledger = db.toTables.forgetDurable.ledger

theorem Healthy.reopened (h : db.Healthy) (hreadOnly : db.readOnly = false)
    (hpoisoned : db.poisoned = false) {config : Config} {readOnly : Bool}
    {published : List UInt64} {io : OpenIo} {file : File}
    (hopen : openMode config readOnly published db.file io = (.ok db', file)) :
    db.Reopened db' := by
  obtain ⟨fs, -, hframed⟩ := h hreadOnly hpoisoned
  obtain ⟨t, hopened, hbytes⟩ := openMode_logBytes hframed.bytes hopen
  refine ⟨hbytes.trans hframed.bytes.symm, ?_⟩
  rw [hframed.ledger hopened.replay, hopened.tables.eq]
  rfl

/-- The handles that later calls lead to, with reopens of the log in between. -/
inductive Continues (db : Database) : Database → Prop
  | refl : Continues db db
  | later {db' : Database} (l : Later) : Continues db db' → Continues db (db'.later l).2
  | attachSealedSegments {db' : Database} (segments : List Segment) :
      Continues db db' → Continues db (db'.attachSealedSegments segments)
  | clearLiveIndex {db' : Database} : Continues db db' → Continues db db'.clearLiveIndex
  | reopen {db' db'' : Database} {config : Config} {readOnly : Bool} {published : List UInt64}
      {io : OpenIo} {file : File} : Continues db db' → db'.readOnly = false →
      db'.poisoned = false → openMode config readOnly published db'.file io = (.ok db'', file) →
      Continues db db''

theorem Reachable.later (h : Reachable db) (l : Later) : Reachable (db.later l).2 := by
  cases l with
  | call c io =>
    cases c with
    | append points => exact h.append points io
    | commit t => exact h.commit t io
    | commitIngress identity t => exact h.commit (t.withIngressIdentity identity) io
    | flush => exact h.flush io
  | writeSealCheckpoint generation points io flushIo =>
    exact h.writeSealCheckpoint generation points io flushIo
  | reclaimLiveLog order io => exact h.reclaimLiveLog order io

theorem Continues.reachable (h : Continues db db') (hreachable : Reachable db) : Reachable db' := by
  induction h with
  | refl => exact hreachable
  | later l _ ih => exact ih.later l
  | attachSealedSegments segments _ ih => exact ih.attachSealedSegments segments
  | clearLiveIndex _ ih => exact ih.clearLiveIndex
  | reopen _ _ _ hopen _ => exact .opened hopen

end Break

/-! ## Error atomicity and fail-stop -/

variable [Jiff]

/-- What is left of a call that fails. -/
structure FailsStop (db : Database) (io : Io) (c : Call) : Prop where
  /-- Any other error than that of the system or of damaged bytes: nothing has
  happened. -/
  atomic : ∀ e, (db.call io c).1 = .error e → e.isFatal = false → (db.call io c).2 = db
  /-- A write or sync that fails is reported, and what is in memory stays. -/
  stops : db.Breaks io c → (db.call io c).1 = .error .io ∧ db.Stopped (db.call io c).2
  /-- From then on every call fails and nothing changes. -/
  poisons : db.Breaks io c → ∀ ls, (db.call io c).2.laterAll ls =
    (List.replicate ls.length (.error .poisoned), (db.call io c).2)
  /-- A reopen, after any crash, finds none of the transaction or all of it. -/
  reopens : db.Breaks io c → ∀ keep,
    db.ReopensNoneOrAll c (db.file.crash keep) ((db.call io c).2.file.crash keep)

/-- Only a handle that can write decides to write. -/
theorem decideCall_writable {db : Database} {c : Call} {frame : Frame} {catalog : Option Catalog}
    (h : db.decideCall c = .write frame catalog) : db.readOnly = false ∧ db.poisoned = false := by
  have hdecide : ∀ {t : Transaction}, db.decide t = .write frame catalog →
      db.readOnly = false ∧ db.poisoned = false := by
    intro t hdecision
    obtain ⟨hreadOnly, hpoisoned, -⟩ := decide_eq_write hdecision
    exact ⟨hreadOnly, hpoisoned⟩
  cases c with
  | append points =>
    obtain ⟨hreadOnly, hpoisoned, -⟩ := decideAppend_eq_write h
    exact ⟨hreadOnly, hpoisoned⟩
  | commit t => exact hdecide h
  | commitIngress identity t =>
    have hwrite : db.decide (t.withIngressIdentity identity) = .write frame catalog := h
    exact hdecide hwrite
  | flush => cases h

theorem Breaks.writable {db : Database} {io : Io} {c : Call} (h : db.Breaks io c) :
    db.readOnly = false ∧ db.poisoned = false := by
  cases c with
  | flush => exact ⟨h.1, h.2.1⟩
  | _ =>
    obtain ⟨frame, catalog, hdecision, -⟩ := h
    exact decideCall_writable hdecision

theorem Reachable.failsStop {db : Database} (h : Reachable db) (io : Io) (c : Call) :
    db.FailsStop io c where
  atomic e herror he := call_error_same herror he
  stops hbreaks := ⟨hbreaks.call.1, hbreaks.call.2.1⟩
  poisons hbreaks := by
    obtain ⟨-, hstopped, -⟩ := hbreaks.call
    refine laterAll_poisoned ?_ ?_
    · rw [hstopped.same]
      exact hbreaks.writable.1
    · rw [hstopped.same]
  reopens hbreaks keep := by
    obtain ⟨-, hstopped, hleft⟩ := hbreaks.call
    exact hleft.reopens h.healthy h.validate hbreaks.writable.1 hbreaks.writable.2 hstopped.synced
      keep

/-- The frame a decision writes. -/
def Decision.frame : Decision → Option Frame
  | .write frame _ => some frame
  | _ => none

end Database

set_option maxRecDepth 20000 in
/-- An append whose write fails behind three bytes. -/
theorem failsStop_tornAppend :
    letI := Jiff.withoutZones
    ∃ db : Database, db.Reachable ∧
      db.Breaks { writeFails := some 3 } (.append [Point.actual 1 10 ⟨0⟩]) ∧
      db.FailsStop { writeFails := some 3 } (.append [Point.actual 1 10 ⟨0⟩]) := by
  let _ := Jiff.withoutZones
  have hrun : (Database.openMode {} false [] .empty {}).1.map (fun db =>
      (db.decideCall (.append [Point.actual 1 10 ⟨0⟩])).frame.map fun frame =>
        (db.file.write frame.encode (some 3)).2) = .ok (some false) := by
    decide +kernel
  obtain ⟨db, hopen, hrun⟩ := map_eq_ok.mp hrun
  have hreachable : db.Reachable := .opened (Prod.ext hopen rfl)
  refine ⟨db, hreachable, ?_, hreachable.failsStop _ _⟩
  cases hdecision : db.decideCall (.append [Point.actual 1 10 ⟨0⟩]) with
  | write frame catalog =>
    rw [hdecision] at hrun
    exact ⟨frame, catalog, hdecision, .inl (Option.some.inj hrun)⟩
  | answer commit =>
    rw [hdecision] at hrun
    cases hrun
  | refuse e poison =>
    rw [hdecision] at hrun
    cases hrun

end Ftwdb
