import Ftwdb.Storage.Simulation

/-!
# The log behind a handle

A handle is `Rebuilt` from frames if scanning them gives its tables.  Every
accepted call adds one frame to the log and keeps the handle rebuilt from it
(`Rebuilt.append`, `Rebuilt.commit`); a failed write leaves a part of that
frame behind.  `openExclusive_logged` and `openShared_logged` say what a handle
opened over such a log looks like.
-/

namespace Ftwdb

open ByteCodec Check KeyedMap List

/-! ## Writing to a file -/

namespace File

variable {data : Bytes} {failsAfter : Option Nat}

theorem extend_eq_some {f f' : File} (h : f.extend data = some f') :
    f'.bytes = f.bytes ++ data ∧ f'.synced = f.synced := by
  rw [extend, Option.dite_none_right_eq_some] at h
  obtain ⟨_, h⟩ := h
  cases h
  exact ⟨rfl, rfl⟩

/-- A write that succeeds has added all the bytes. -/
theorem write_eq_true {f f' : File} (h : f.write data failsAfter = (f', true)) :
    f'.bytes = f.bytes ++ data ∧ f'.synced = f.synced := by
  cases failsAfter with
  | some n => exact absurd (congrArg Prod.snd h) Bool.false_ne_true
  | none =>
    rw [write] at h
    split at h
    · next hextend =>
      obtain rfl := congrArg Prod.fst h
      exact extend_eq_some hextend
    · exact absurd (congrArg Prod.snd h) Bool.false_ne_true

/-- A write that fails has added some of the bytes, and none if it was the size
of the file that made it fail. -/
theorem write_eq_false {f f' : File} (h : f.write data failsAfter = (f', false)) :
    f'.synced = f.synced ∧ (failsAfter = none → f' = f) ∧
      ∃ n, f'.bytes = f.bytes ++ data.take n := by
  cases failsAfter with
  | some n =>
    obtain rfl := congrArg Prod.fst h
    simp only [write]
    cases hextend : f.extend (data.take n) with
    | none => exact ⟨rfl, by simp, 0, by simp⟩
    | some f' =>
      obtain ⟨hbytes, hsynced⟩ := extend_eq_some hextend
      exact ⟨hsynced, by simp, n, hbytes⟩
  | none =>
    rw [write] at h
    split at h
    · exact absurd (congrArg Prod.snd h).symm Bool.false_ne_true
    · obtain rfl := congrArg Prod.fst h
      exact ⟨rfl, fun _ => rfl, 0, by simp⟩

end File

namespace Database

/-! ## Writing a frame -/

/-- What a call that wrote `frame` leaves of the handle, its tables apart.  A
durable frame was followed by a sync of the whole log. -/
structure Accepted (db db' : Database) (frame : Frame) (durable : Bool) : Prop where
  config : db'.config = db.config
  readOnly : db'.readOnly = db.readOnly
  poisoned : db'.poisoned = db.poisoned
  sealed : db'.sealed = db.sealed
  sealedPoints : db'.sealedPoints = db.sealedPoints
  bytes : db'.file.bytes = db.file.bytes ++ frame.encode
  synced : db'.file.synced = if durable then db'.file.bytes.length else db.file.synced
  unsynced : db'.bytesSinceSync = if durable then 0 else db.bytesSinceSync + frame.encode.length
  cursors : db'.ingressDurableSequences =
    if durable then db'.ingressLastSequences else db.ingressDurableSequences

theorem writeFrame_eq_ok {db db' : Database} {frame : Frame} {io : Io} {durable : Bool}
    (h : db.writeFrame frame io = (.ok durable, db')) :
    db.Accepted db' frame durable ∧ db'.toTables = db.toTables := by
  rw [writeFrame] at h
  split at h
  · injection h with h
    cases h
  next file hwrite =>
  obtain ⟨hbytes, hsynced⟩ := File.write_eq_true hwrite
  simp only at h
  split at h
  · split at h
    · injection h with h
      cases h
    · obtain ⟨hdurable, rfl⟩ := Prod.mk.inj h
      cases hdurable
      exact ⟨⟨rfl, rfl, rfl, rfl, rfl, hbytes, rfl, rfl, rfl⟩, rfl⟩
  · obtain ⟨hdurable, rfl⟩ := Prod.mk.inj h
    cases hdurable
    exact ⟨⟨rfl, rfl, rfl, rfl, rfl, hbytes, hsynced, rfl, rfl⟩, rfl⟩

/-- The handle behind a write or sync that failed: it is poisoned, and a part of
the frame, possibly all of it, is in the file. -/
structure Broke (db db' : Database) (frame : Frame) (io : Io) : Prop where
  tables : db'.toTables = db.toTables
  config : db'.config = db.config
  readOnly : db'.readOnly = db.readOnly
  poisoned : db'.poisoned = true
  bytes : ∃ n, db'.file.bytes = db.file.bytes ++ frame.encode.take n
  synced : db'.file.synced = db.file.synced
  cursors : db'.ingressDurableSequences = db.ingressDurableSequences
  clean : io = {} → db'.file = db.file

theorem writeFrame_eq_error {db db' : Database} {frame : Frame} {io : Io} {e : Error}
    (h : db.writeFrame frame io = (.error e, db')) : e = .io ∧ db.Broke db' frame io := by
  rw [writeFrame] at h
  split at h
  · next file hwrite =>
    obtain ⟨hsynced, hsame, hbytes⟩ := File.write_eq_false hwrite
    obtain ⟨he, rfl⟩ := Prod.mk.inj h
    refine ⟨(Except.error.inj he).symm, rfl, rfl, rfl, rfl, hbytes, hsynced, rfl, ?_⟩
    rintro rfl
    exact hsame rfl
  next file hwrite =>
  obtain ⟨hbytes, hsynced⟩ := File.write_eq_true hwrite
  simp only at h
  split at h
  · split at h
    · next hfails =>
      obtain ⟨he, rfl⟩ := Prod.mk.inj h
      refine ⟨(Except.error.inj he).symm, rfl, rfl, rfl, rfl, ⟨frame.encode.length, ?_⟩, hsynced,
        rfl, ?_⟩
      · rw [take_length]
        exact hbytes
      · rintro rfl
        cases hfails
    · injection h with h
      cases h
  · injection h with h
    cases h

/-! ## What a call can do -/

/-- The receipt of a frame written at the end of the log. -/
def writtenCommit (db : Database) (frame : Frame) (points records : Nat) (durable : Bool) :
    Commit where
  frameOffset := db.file.length
  points := points
  records := records
  bytesWritten := frame.encode.length
  durable := durable
  deduplicated := false

/-- The outcome of a call that writes at most one frame: it answers or refuses
without a write, its write breaks, or the frame is accepted with the receipt
`receipt` and the tables become `tables`. -/
inductive Acted (db : Database) (decision : Decision) (io : Io)
    (receipt : Frame → Bool → Commit) (tables : Frame → Option Catalog → Commit → Tables) :
    Outcome Commit → Prop
  | answered {commit : Commit} : decision = .answer commit →
      Acted db decision io receipt tables (.ok commit, db)
  | refused {e : Error} {poison : Bool} : decision = .refuse e poison →
      Acted db decision io receipt tables
        (.error e, { db with poisoned := db.poisoned || poison })
  | broke {frame : Frame} {catalog : Option Catalog} {db' : Database} :
      decision = .write frame catalog → db.Broke db' frame io →
      Acted db decision io receipt tables (.error .io, db')
  | accepted {frame : Frame} {catalog : Option Catalog} {durable : Bool} {db' : Database} :
      decision = .write frame catalog → db.Accepted db' frame durable →
      db'.toTables = tables frame catalog (receipt frame durable) →
      Acted db decision io receipt tables (.ok (receipt frame durable), db')

theorem append_acted (db : Database) (points : List Point) (io : Io) :
    Acted db (db.decideAppend points) io (db.writtenCommit · points.length 1)
      (fun _ _ _ => insertPoints db.toTables points) (db.append points io) := by
  rw [append]
  split
  · next hdecision => exact .answered hdecision
  · next hdecision => exact .refused hdecision
  · next frame catalog hdecision =>
    split
    · next hwrite =>
      obtain ⟨rfl, hbroke⟩ := writeFrame_eq_error hwrite
      exact .broke hdecision hbroke
    · next durable db' hwrite =>
      obtain ⟨haccepted, htables⟩ := writeFrame_eq_ok hwrite
      refine .accepted hdecision { haccepted with } ?_
      rw [htables]

/-- A flush is refused, perhaps with the writer poisoned, or the log is synced. -/
theorem flush_cases (db : Database) (io : Io) :
    (∃ e poison, db.flush io = (.error e, { db with poisoned := db.poisoned || poison }) ∧
      (io = {} → poison = false)) ∨
    (db.readOnly = false ∧ db.poisoned = false ∧ db.flush io = (.ok (), { db with
      file := db.file.sync
      bytesSinceSync := 0
      ingressDurableSequences := db.ingressLastSequences })) := by
  rw [flush]
  split
  · exact .inl ⟨_, false, by rw [Bool.or_false], fun _ => rfl⟩
  next hreadOnly =>
  split
  · exact .inl ⟨_, false, by rw [Bool.or_false], fun _ => rfl⟩
  next hpoisoned =>
  split
  · next hfails =>
    refine .inl ⟨_, true, by rw [Bool.or_true], ?_⟩
    rintro rfl
    cases hfails
  · exact .inr ⟨Bool.eq_false_iff.mpr hreadOnly, Bool.eq_false_iff.mpr hpoisoned, rfl⟩

variable [Jiff]

theorem commit_acted (db : Database) (t : Transaction) (io : Io) :
    Acted db (db.decide t) io (db.writtenCommit · t.pointCount t.recordCount)
      (fun frame catalog commit =>
        acceptTransaction db.toTables t frame.payload catalog db.file.length commit)
      (db.commit t io) := by
  rw [commit]
  split
  · next hdecision => exact .answered hdecision
  · next hdecision => exact .refused hdecision
  · next frame catalog hdecision =>
    split
    · next hwrite =>
      obtain ⟨rfl, hbroke⟩ := writeFrame_eq_error hwrite
      exact .broke hdecision hbroke
    · next durable db' hwrite =>
      obtain ⟨haccepted, htables⟩ := writeFrame_eq_ok hwrite
      refine .accepted hdecision { haccepted with cursors := ?_ } ?_
      · -- a durable ordered frame raises its own cursor, and only that one
        have hcursors := haccepted.cursors
        simp only [htables] at hcursors ⊢
        rw [hcursors, acceptTransaction]
        cases hidentity : transactionIdentity t <;> cases durable <;> rfl
      · rw [htables]
        rfl

/-! ## Frames and tables -/

/-- A frame at the end of the log that fits the limits and that a scan takes to
`tables`, if it has the tables of the handle before it. -/
structure Writes (db : Database) (published : List UInt64) (frame : Frame) (tables : Tables) :
    Prop where
  fits : frame.Fits db.config.limits
  step : ∀ t, db.toTables.Matches t → ∃ t',
    t.applyFrame db.config.limits published db.file.length frame = .ok t' ∧ tables.Matches t'

variable {catalog : Option Catalog} {published : List UInt64} {fs : List Frame} {file : File}

variable {db : Database} {frame : Frame} {t : Tables} {transaction : Transaction}

theorem writes_append {points : List Point} (h : db.decideAppend points = .write frame catalog)
    (published : List UInt64) :
    db.Writes published frame (insertPoints db.toTables points) := by
  obtain ⟨-, -, hframe, hvalid, hfits⟩ := decideAppend_eq_write h
  refine ⟨hfits, fun t ht => ?_⟩
  obtain ⟨t', hstep, hsort⟩ := Tables.applyFrame_points hframe hvalid t db.config.limits published
    db.file.length
  refine ⟨t', hstep, ?_⟩
  rw [Tables.Matches, hsort]
  exact congrArg (insertPoints · points) ht.eq

theorem Admits.of_matches {w : Tables} {limits : Limits} {payload : Bytes} (hmatch : w.Matches t)
    (h : w.Admits limits transaction payload catalog) :
    t.Admits limits transaction payload catalog where
  fresh := by
    have hfresh := h.fresh
    cases hidentity : transactionIdentity transaction with
    | anonymous => exact trivial
    | identified commitId =>
      rw [hidentity] at hfresh
      rwa [Tables.Fresh, ← hmatch.commitIds]
    | ingress identity =>
      rw [hidentity] at hfresh
      rwa [Tables.Fresh, ← hmatch.commitIds, ← hmatch.mem_ingressReceipts,
        ← hmatch.ingressLastSequences]
  applied := by
    rw [← hmatch.catalog]
    exact h.applied
  points_le := h.points_le
  encoded := h.encoded

theorem writes_commit (h : db.decide transaction = .write frame catalog) (published : List UInt64)
    (durable : Bool) :
    db.Writes published frame (acceptTransaction db.toTables transaction frame.payload catalog
      db.file.length (db.writtenCommit frame transaction.pointCount transaction.recordCount
        durable)) := by
  obtain ⟨-, -, payload, hsmall, rfl, hadmits, hfits⟩ := decide_eq_write h
  refine ⟨hfits, fun t ht => ?_⟩
  obtain ⟨t', hstep, hsort⟩ := Tables.applyFrame_transaction (Admits.of_matches ht hadmits) hsmall
    published db.file.length
  refine ⟨t', hstep, ?_⟩
  rw [Tables.Matches, hsort, Tables.forgetDurable_acceptTransaction,
    Tables.forgetDurable_acceptTransaction, ← ht.eq, writtenCommit, Frame.length_encode]
  rfl

/-- The tables of the handle are those of a scan of `fs`. -/
structure Rebuilt (db : Database) (published : List UInt64) (fs : List Frame) (t : Tables) :
    Prop where
  fits : ∀ f ∈ fs, f.Fits db.config.limits
  replay : replay db.config.limits published databaseHeaderBytes {} fs = .ok t
  tables : db.toTables.Matches t

/-- An accepted frame takes its place at the end of the log. -/
theorem Rebuilt.accepted {db' : Database} {durable : Bool} (h : db.Rebuilt published fs t)
    (hbytes : db.file.bytes = logBytes fs) (hwrites : db.Writes published frame db'.toTables)
    (haccepted : db.Accepted db' frame durable) :
    ∃ t', db'.Rebuilt published (fs ++ [frame]) t' ∧
      db'.file.bytes = logBytes (fs ++ [frame]) := by
  obtain ⟨t', hstep, hmatch⟩ := hwrites.step t h.tables
  have hoffset : db.file.length = databaseHeaderBytes + (frameBytes fs).length := by
    rw [File.length, hbytes, length_logBytes]
  rw [hoffset] at hstep
  refine ⟨t', ⟨?_, ?_, hmatch⟩, ?_⟩
  · intro f hf
    rw [haccepted.config]
    rcases mem_append.mp hf with hf | hf
    · exact h.fits f hf
    · rw [mem_singleton.mp hf]
      exact hwrites.fits
  · rw [haccepted.config]
    exact replay_concat h.replay hstep
  · rw [haccepted.bytes, hbytes, logBytes_append]
    simp [frameBytes_cons]

/-! ## Opening a log -/

/-- A handle just opened over the frames `fs` with `torn` behind them. -/
structure Opened (db : Database) (config : Config) (published : List UInt64) (fs : List Frame)
    (t : Tables) (torn : Bytes) : Prop extends db.Rebuilt published fs t where
  config : db.config = config
  poisoned : db.poisoned = false
  unsynced : db.bytesSinceSync = 0
  sealed : db.sealed = []
  tail : db.recoveredTail = tailOf torn
  pending : db.pendingReclaim = t.pendingReclaim

/-- A writable open over complete frames and a torn one.  It succeeds unless a
sync fails, and then nothing but the torn part is lost. -/
theorem openExclusive_logged {config : Config} {torn : Bytes}
    (hbytes : file.bytes = logBytes fs ++ torn) (hfits : ∀ f ∈ fs, f.Fits config.limits)
    (hreplay : replay config.limits published databaseHeaderBytes {} fs = .ok t)
    (htorn : TornFrame config.limits torn) (io : OpenIo) :
    (∃ db, openExclusive config published file io = (.ok db, db.file) ∧
      db.Opened config published fs t torn ∧ db.readOnly = false ∧
      db.file.bytes = logBytes fs ∧ db.file.synced = db.file.bytes.length ∧
      db.ingressDurableSequences = db.ingressLastSequences) ∨
    (∃ file', openExclusive config published file io = (.error .io, file') ∧ io ≠ {} ∧
      (file'.bytes = file.bytes ∨ file'.bytes = logBytes fs) ∧
      min file.synced (logBytes fs).length ≤ file'.synced) := by
  have hheader : writeDatabaseHeader file io = (.ok (), file) := by
    rw [writeDatabaseHeader, if_neg]
    rw [hbytes]
    exact logBytes_append_ne_nil fs torn
  have hscan := scanLog_recover false hfits hreplay htorn
  rw [← hbytes] at hscan
  have hopened : ∀ (file' : File) (cursors : Std.ExtTreeMap U128 UInt64),
      Opened (ofScan config false file'
        { t.sortIndex with
          recoveredTailBytes := torn.length
          recoveredTail := tailOf torn
          validatedBytes := (logBytes fs).length
          salvageStopReason := none } t.sortIndex.markReceiptsDurable cursors)
        config published fs t torn := fun file' cursors =>
    { fits := hfits
      replay := hreplay
      tables := t.sortIndex.forgetDurable_markReceiptsDurable
      config := rfl
      poisoned := rfl
      unsynced := rfl
      sealed := rfl
      tail := rfl
      pending := rfl }
  simp only [openExclusive, hheader, scanAndRecover, hscan]
  by_cases hclean : tailOf torn = .none
  · have hsame : file.bytes = logBytes fs := by
      rw [hbytes, tailOf_eq_none.mp hclean, append_nil]
    simp only [if_pos hclean]
    split
    · next hfails =>
      refine .inr ⟨file, rfl, ?_, .inl rfl, Nat.min_le_left ..⟩
      rintro rfl
      cases hfails
    · exact .inl ⟨_, rfl, hopened _ _, rfl, hsame, rfl, rfl⟩
  · have hcut : (file.truncate (logBytes fs).length).bytes = logBytes fs := by
      change file.bytes.take _ = _
      rw [hbytes, take_left]
    have hsynced : (file.truncate (logBytes fs).length).synced =
        min file.synced (logBytes fs).length :=
      congrArg (fun bytes : Bytes => min file.synced bytes.length) hcut
    simp only [if_neg hclean]
    split
    · next hfailed =>
      split at hfailed
      · next hfails =>
        obtain ⟨he, rfl⟩ := Prod.mk.inj hfailed
        cases he
        refine .inr ⟨_, rfl, ?_, .inr hcut, ?_⟩
        · rintro rfl
          cases hfails
        · exact Nat.le_of_eq hsynced.symm
      · injection hfailed with hfailed
        cases hfailed
    · next hdone =>
      split at hdone
      · injection hdone with hdone
        cases hdone
      · obtain ⟨hscan', rfl⟩ := Prod.mk.inj hdone
        cases hscan'
        split
        · next hfails =>
          refine .inr ⟨_, rfl, ?_, .inr hcut, ?_⟩
          · rintro rfl
            cases hfails
          · exact Nat.le_trans (Nat.min_le_right ..) (Nat.le_of_eq (congrArg List.length hcut).symm)
        · exact .inl ⟨_, rfl, hopened _ _, rfl, hcut, rfl, rfl⟩

/-- A read-only open over the same bytes, which leaves them as they are. -/
theorem openShared_logged {config : Config} {torn : Bytes}
    (hbytes : file.bytes = logBytes fs ++ torn) (hfits : ∀ f ∈ fs, f.Fits config.limits)
    (hreplay : replay config.limits published databaseHeaderBytes {} fs = .ok t)
    (htorn : TornFrame config.limits torn) :
    ∃ db, openShared config published file = .ok db ∧ db.Opened config published fs t torn ∧
      db.file = file := by
  have hlong : ¬ file.bytes.length < databaseHeaderBytes := by
    rw [hbytes, length_append, length_logBytes]
    omega
  have hscan := scanLog_recover true hfits hreplay htorn
  rw [← hbytes] at hscan
  rw [openShared, if_neg hlong, hscan]
  exact ⟨_, rfl, ⟨⟨hfits, hreplay, rfl⟩, rfl, rfl, rfl, rfl, rfl, rfl⟩, rfl⟩

/-- A file that ends inside the header is refused and left as it is. -/
theorem openExclusive_short (hne : file.bytes ≠ [])
    (hshort : file.bytes.length < databaseHeaderBytes) (config : Config)
    (published : List UInt64) (io : OpenIo) :
    openExclusive config published file io = (.error .io, file) := by
  have hscan : scanLog config.limits (.recover false) published file.bytes = .error .io := by
    simp only [scanLog, checkDatabaseHeader, failIf, if_pos hshort, bind, Except.bind]
  simp only [openExclusive, writeDatabaseHeader, if_neg hne, scanAndRecover, hscan]

/-- An empty file gets a header first; a failure leaves a part of it. -/
theorem openExclusive_new (hnil : file.bytes = []) (config : Config)
    (published : List UInt64) (io : OpenIo) :
    (∃ file' n, openExclusive config published file io = (.error .io, file') ∧
      file'.bytes = (logBytes []).take n ∧ file'.synced = 0) ∨
    (∃ file', file'.bytes = logBytes [] ∧ file'.synced = databaseHeaderBytes ∧
      openExclusive config published file io = openExclusive config published file' io) := by
  have hzero : file.synced = 0 := by
    have := file.synced_le
    rw [hnil] at this
    exact Nat.le_zero.mp this
  rcases hwrite : file.write databaseHeader io.headerFails with ⟨written, _ | _⟩
  · obtain ⟨hsynced, -, n, hbytes⟩ := File.write_eq_false hwrite
    refine .inl ⟨written, n, ?_, ?_, hsynced.trans hzero⟩
    · simp only [openExclusive, writeDatabaseHeader, if_pos hnil, hwrite]
    · rw [hbytes, hnil, nil_append, logBytes, frameBytes_nil, append_nil]
  · obtain ⟨hbytes, hsynced⟩ := File.write_eq_true hwrite
    have hlog : written.bytes = logBytes [] := by
      rw [hbytes, hnil, nil_append, logBytes, frameBytes_nil, append_nil]
    by_cases hfails : io.headerSyncFails = true
    · refine .inl ⟨written, databaseHeaderBytes, ?_, ?_, hsynced.trans hzero⟩
      · simp only [openExclusive, writeDatabaseHeader, if_pos hnil, hwrite, if_pos hfails]
      · rw [hlog]
        exact (take_of_length_le (Nat.le_of_eq (length_logBytes []))).symm
    · refine .inr ⟨written.sync, hlog, congrArg List.length hlog, ?_⟩
      have hagain : writeDatabaseHeader written.sync io = (.ok (), written.sync) := by
        rw [writeDatabaseHeader, if_neg]
        rw [File.sync, hlog, ← append_nil (logBytes [])]
        exact logBytes_append_ne_nil [] []
      have hfirst : writeDatabaseHeader file io = (.ok (), written.sync) := by
        simp only [writeDatabaseHeader, if_pos hnil, hwrite, if_neg hfails]
      rw [openExclusive, openExclusive, hagain, hfirst]

/-- A new file gets the header of an empty log. -/
theorem openExclusive_empty (config : Config) (published : List UInt64) :
    ∃ db, openExclusive config published File.empty {} = (.ok db, db.file) ∧
      db.Opened config published [] {} [] ∧ db.readOnly = false ∧ db.file.bytes = logBytes [] ∧
      db.file.synced = db.file.bytes.length ∧
      db.ingressDurableSequences = db.ingressLastSequences := by
  obtain ⟨file, hfile, hbytes⟩ : ∃ file, writeDatabaseHeader File.empty {} = (.ok (), file) ∧
      file.bytes = logBytes [] := ⟨_, rfl, rfl⟩
  have hheader : writeDatabaseHeader file {} = (.ok (), file) := by
    rw [writeDatabaseHeader, if_neg]
    rw [hbytes, ← append_nil (logBytes [])]
    exact logBytes_append_ne_nil [] []
  have hopen : openExclusive config published File.empty {} =
      openExclusive config published file {} := by
    rw [openExclusive, openExclusive, hfile, hheader]
  rw [hopen]
  have htail : file.bytes = logBytes [] ++ [] := by rw [hbytes, append_nil]
  rcases openExclusive_logged (t := {}) htail (by simp) rfl (.inl rfl) {} with hok | ⟨_, _, hio, _⟩
  · exact hok
  · exact absurd rfl hio

end Database

end Ftwdb
