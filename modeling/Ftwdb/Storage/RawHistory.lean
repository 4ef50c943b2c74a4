import Ftwdb.Storage.Ledger
import Ftwdb.Storage.Query
import Ftwdb.Storage.ReclaimLaws

/-!
# The history a handle holds

What the calls of the writer do to `rawSeries`, the points of one series in the
order the handle stores them.  Queries see its stable sort only, so every
statement is about that: a write appends to it, and a flush and a reclaim keep
it.  The replay of a log gives the same tables under any limits that let it
through (`replay_limits`).
-/

namespace Ftwdb

open ByteCodec Check List StableSort

section Replay

open Tables

variable {limits limits' : Limits} {published : List UInt64} {offset : Nat}
  {t t' t'' : Tables} {f : Frame} {fs : List Frame}

/-! ## Counters -/

/-- What a transaction does to the points and their number. -/
theorem recordTransaction_rest (t : Tables) (f : Frame) (records : List Record)
    (catalog : Catalog) (offset : Nat) :
    (t.recordTransaction f records catalog offset).index =
        (records.flatMap Record.pointList).foldl LiveIndex.push t.index ∧
      (t.recordTransaction f records catalog offset).points =
        t.points + (records.flatMap Record.pointList).length ∧
      (t.recordTransaction f records catalog offset).pendingReclaim = t.pendingReclaim := by
  rw [recordTransaction]
  cases frameIdentity f <;> exact ⟨rfl, rfl, rfl⟩

variable [Jiff]

/-! ## Replays -/

/-- The limits decide whether a frame is accepted, not what it does. -/
theorem applyFrame_limits (h : t.applyFrame limits published offset f = .ok t')
    (h' : t.applyFrame limits' published offset f = .ok t'') : t' = t'' := by
  obtain ⟨t₁, ht₁, rfl⟩ := map_eq_ok.mp h
  obtain ⟨t₂, ht₂, rfl⟩ := map_eq_ok.mp h'
  congr 1
  cases hkind : f.kind with
  | legacyPoints | sealCheckpoint | identityIndex =>
    simp only [applyPayload, hkind] at ht₁ ht₂
    exact Except.ok.inj (ht₁.symm.trans ht₂)
  | transaction | identifiedTransaction | ingressTransaction =>
    simp only [applyPayload, hkind] at ht₁ ht₂
    obtain ⟨records, catalog, -, hrecords, happlied, -, rfl⟩ := applyTransaction_eq_ok.mp ht₁
    obtain ⟨records', catalog', -, hrecords', happlied', -, rfl⟩ := applyTransaction_eq_ok.mp ht₂
    obtain rfl := Except.ok.inj (hrecords.symm.trans hrecords')
    obtain rfl := Except.ok.inj (happlied.symm.trans happlied')
    rfl

theorem replay_limits (h : replay limits published offset t fs = .ok t')
    (h' : replay limits' published offset t fs = .ok t'') : t' = t'' := by
  induction fs generalizing offset t with
  | nil => exact Except.ok.inj (h.symm.trans h')
  | cons f fs ih =>
    obtain ⟨t₁, hf, h⟩ := replay_cons.mp h
    obtain ⟨t₂, hf', h'⟩ := replay_cons.mp h'
    obtain rfl := applyFrame_limits hf hf'
    exact ih h h'

/-- Without published checkpoints nothing is left to reclaim. -/
theorem pendingReclaim_replay (h : replay limits [] offset t fs = .ok t') :
    t'.pendingReclaim = t.pendingReclaim := by
  induction fs generalizing offset t with
  | nil =>
    cases h
    rfl
  | cons f fs ih =>
    obtain ⟨t₁, hf, h⟩ := replay_cons.mp h
    rw [ih h]
    obtain ⟨t₂, htakes, rfl⟩ := exists_takes hf
    change t₂.pendingReclaim = t.pendingReclaim
    cases htakes with
    | points | checkpoint => rfl
    | reclaims hpublished => cases hpublished
    | identities hpayload => exact (applyIdentityIndex_rest hpayload).2.2.2
    | transaction hpayload =>
      obtain ⟨records, catalog, -, -, -, -, rfl⟩ := applyTransaction_eq_ok.mp hpayload
      exact (recordTransaction_rest t f records catalog offset).2.2

end Replay

/-- The index holds as many points as the counter says. -/
def Tables.Counted (t : Tables) : Prop := ∃ l, t.index.sort.Holds l ∧ t.points = l.length

section Counted

open Tables

variable {limits : Limits} {published : List UInt64} {offset : Nat} {t t' : Tables}
  {f : Frame} {fs : List Frame}

theorem length_decodePoints_of_fits (hkind : f.kind = .legacyPoints) (hfits : f.Fits limits) :
    (decodePoints f.payload).length = f.items.toNat := by
  have hcheck := hfits 0
  rw [hkind] at hcheck
  simp only [checkFrameHeader, failIf_eq_ok, not_or, not_not] at hcheck
  rw [decodePoints, length_map, chunksExact, length_map, length_range, hcheck.2]
  exact Nat.mul_div_cancel _ (by decide)

theorem Tables.Counted.push (h : t.Counted) (points : List Point) :
    ∃ l, (points.foldl LiveIndex.push t.index).sort.Holds l ∧
      t.points + points.length = l.length := by
  obtain ⟨l, hl, hcount⟩ := h
  refine ⟨l ++ points, ?_, by rw [length_append, hcount]⟩
  rw [LiveIndex.sort_foldl_push]
  exact hl.foldl_insertIndexedPoint points

variable [Jiff]

theorem Tables.Counted.applyFrame (h : t.Counted) (hfits : f.Fits limits)
    (hf : t.applyFrame limits published offset f = .ok t') : t'.Counted := by
  obtain ⟨t₁, htakes, rfl⟩ := exists_takes hf
  show t₁.Counted
  cases htakes with
  | points hkind =>
    obtain ⟨l, hl, hcount⟩ := h.push (decodePoints f.payload)
    rw [length_decodePoints_of_fits hkind hfits] at hcount
    exact ⟨l, hl, hcount⟩
  | reclaims => exact ⟨[], .empty, rfl⟩
  | checkpoint => exact h
  | identities hpayload =>
    obtain ⟨l, hl, hcount⟩ := h
    obtain ⟨-, hindex, hpoints, -⟩ := applyIdentityIndex_rest hpayload
    exact ⟨l, hindex ▸ hl, hpoints.trans hcount⟩
  | transaction hpayload =>
    obtain ⟨records, catalog, -, -, -, -, rfl⟩ := applyTransaction_eq_ok.mp hpayload
    obtain ⟨l, hl, hcount⟩ := h.push (records.flatMap Record.pointList)
    obtain ⟨hindex, hpoints, -⟩ := recordTransaction_rest t f records catalog offset
    refine ⟨l, ?_, hpoints.trans hcount⟩
    rwa [hindex]

theorem Tables.Counted.replay (hfits : ∀ f ∈ fs, f.Fits limits) (h : t.Counted)
    (hreplay : replay limits published offset t fs = .ok t') : t'.Counted := by
  induction fs generalizing offset t with
  | nil =>
    cases hreplay
    exact h
  | cons f fs ih =>
    obtain ⟨t₁, hf, hreplay⟩ := replay_cons.mp hreplay
    exact ih (fun g hg => hfits g (mem_cons_of_mem f hg))
      (h.applyFrame (hfits f mem_cons_self) hf) hreplay

end Counted

/-! ## What a write adds -/

theorem byValidTime_of_byHistory {a b : Point} (h : byHistory a b = true) :
    byValidTime a b = true := le_of_lex h

/-- Live points are sorted by time when they enter; the history does not see it. -/
theorem sort_concat_live (sealed live more : List Point) :
    stableSort byHistory (sealed ++ stableSort byValidTime (live ++ more)) =
      stableSort byHistory (sealed ++ stableSort byValidTime live ++ more) := by
  have hall := stableSort_append_of_coarser byHistory_preorder byValidTime_preorder
    byValidTime_of_byHistory sealed (live ++ more) []
  have hlive := stableSort_append_of_coarser byHistory_preorder byValidTime_preorder
    byValidTime_of_byHistory sealed live more
  rw [append_nil, append_nil] at hall
  rw [hall, hlive, append_assoc]

/-- The points that a transaction adds, given how it was answered. -/
def Transaction.newPoints (t : Transaction) (commit : Commit) : List Point :=
  if commit.deduplicated then [] else t.pointList

namespace Database

theorem acceptTransaction_rest (t : Tables) (transaction : Transaction) (payload : Bytes)
    (catalog : Option Catalog) (offset : Nat) (commit : Commit) :
    (acceptTransaction t transaction payload catalog offset commit).index =
        transaction.pointList.foldl LiveIndex.insertIndexedPoint t.index ∧
      (acceptTransaction t transaction payload catalog offset commit).points =
        t.points + transaction.pointList.length := by
  rw [acceptTransaction]
  cases transactionIdentity transaction <;> exact ⟨rfl, rfl⟩

/-- A successful call of the writer: it adds `points` to the history, and frames
to the log that a scan takes to the new tables. -/
structure Grows [Jiff] (db db' : Database) (points : List Point) : Prop where
  config : db'.config = db.config
  readOnly : db'.readOnly = db.readOnly
  poisoned : db'.poisoned = db.poisoned
  sealed : db'.sealed = db.sealed
  sealedPoints : db'.sealedPoints = db.sealedPoints
  count : db'.points = db.points + points.length
  series : ∀ s, stableSort byHistory (db'.rawSeries s) =
    stableSort byHistory (db.rawSeries s ++ points.filter (ofSeries s))
  log : ∀ {published : List UInt64} {fs : List Frame} {t : Tables},
    db.file.bytes = logBytes fs → db.Rebuilt published fs t →
    ∃ more t', db'.file.bytes = logBytes (fs ++ more) ∧ db'.Rebuilt published (fs ++ more) t' ∧
      ∀ f ∈ more, f.kind ≠ .sealCheckpoint
  reachable : db.Reachable → db'.Reachable

section Writes

variable [Jiff] {db db' : Database} {points : List Point}

theorem Grows.refl (db : Database) : db.Grows db [] where
  config := rfl
  readOnly := rfl
  poisoned := rfl
  sealed := rfl
  sealedPoints := rfl
  count := rfl
  series s := by rw [filter_nil, append_nil]
  log hbytes hrebuilt := ⟨[], _, by rwa [append_nil], by rwa [append_nil], nofun⟩
  reachable := id

theorem Grows.flush {io : Io} (h : db.flush io = (.ok (), db')) : db.Grows db' [] := by
  have hreachable : db.Reachable → db'.Reachable := fun hdb => by
    have hflush := hdb.flush io
    rwa [h] at hflush
  rcases flush_cases db io with ⟨e, poison, herror, -⟩ | ⟨-, -, hok⟩
  · rw [herror] at h
    cases h
  · rw [hok] at h
    obtain rfl := (Prod.mk.inj h).2
    refine ⟨rfl, rfl, rfl, rfl, rfl, rfl, fun s => ?_, fun {published fs t} hbytes hrebuilt => ?_,
      hreachable⟩
    · rw [filter_nil, append_nil]
      rfl
    · refine ⟨[], t, by rwa [append_nil], ?_, nofun⟩
      rw [append_nil]
      exact ⟨hrebuilt.fits, hrebuilt.replay, hrebuilt.tables⟩

theorem Grows.trans {db'' : Database} {more : List Point} (h : db.Grows db' points)
    (h' : db'.Grows db'' more) : db.Grows db'' (points ++ more) where
  config := h'.config.trans h.config
  readOnly := h'.readOnly.trans h.readOnly
  poisoned := h'.poisoned.trans h.poisoned
  sealed := h'.sealed.trans h.sealed
  sealedPoints := h'.sealedPoints.trans h.sealedPoints
  count := by rw [h'.count, h.count, length_append, Nat.add_assoc]
  series s := by
    have hmore : ∀ l r : List Point, stableSort byHistory l = stableSort byHistory r →
        stableSort byHistory (l ++ more.filter (ofSeries s)) =
          stableSort byHistory (r ++ more.filter (ofSeries s)) := by
      intro l r hlr
      rw [← stableSort_append_stableSort byHistory_preorder l, hlr,
        stableSort_append_stableSort byHistory_preorder]
    rw [h'.series s, hmore _ _ (h.series s), filter_append, append_assoc]
  log hbytes hrebuilt := by
    obtain ⟨fs₁, t₁, hbytes₁, hrebuilt₁, hkinds₁⟩ := h.log hbytes hrebuilt
    obtain ⟨fs₂, t₂, hbytes₂, hrebuilt₂, hkinds₂⟩ := h'.log hbytes₁ hrebuilt₁
    rw [append_assoc] at hbytes₂ hrebuilt₂
    refine ⟨fs₁ ++ fs₂, t₂, hbytes₂, hrebuilt₂, fun f hf => ?_⟩
    exact (mem_append.mp hf).elim (hkinds₁ f) (hkinds₂ f)
  reachable := fun hdb => h'.reachable (h.reachable hdb)

/-- A frame with new points that was accepted. -/
theorem Grows.accepted (hsound : db.Sound) {frame : Frame} {durable : Bool}
    (haccepted : db.Accepted db' frame durable) (hkind : frame.kind ≠ .sealCheckpoint)
    (hindex : db'.index = points.foldl LiveIndex.insertIndexedPoint db.index)
    (hcount : db'.points = db.points + points.length)
    (hwrites : ∀ published, db.Writes published frame db'.toTables)
    (hreachable : db.Reachable → db'.Reachable) : db.Grows db' points where
  config := haccepted.config
  readOnly := haccepted.readOnly
  poisoned := haccepted.poisoned
  sealed := haccepted.sealed
  sealedPoints := haccepted.sealedPoints
  count := hcount
  series s := by
    obtain ⟨l, hl⟩ := hsound.index
    have hnew := hl.foldl_insertIndexedPoint points s
    rw [rawSeries, hindex, hnew, haccepted.sealed, filter_append, sort_concat_live, rawSeries,
      hl s]
    rfl
  log hbytes hrebuilt := by
    obtain ⟨t', hrebuilt', hbytes'⟩ := hrebuilt.accepted hbytes (hwrites _) haccepted
    refine ⟨[frame], t', hbytes', hrebuilt', fun f hf => ?_⟩
    rwa [mem_singleton.mp hf]
  reachable := hreachable

theorem Grows.append (hsound : db.Sound) {io : Io} {commit : Commit}
    (h : db.append points io = (.ok commit, db')) : db.Grows db' points := by
  have hacted := append_acted db points io
  have hreachable : db.Reachable → db'.Reachable := fun hdb => by
    have happend := hdb.append points io
    rwa [h] at happend
  rw [h] at hacted
  cases hacted with
  | answered hdecision =>
    rw [(decideAppend_eq_answer hdecision).1]
    exact .refl db
  | @accepted frame catalog durable _ hdecision haccepted htables =>
    obtain ⟨-, -, hframe, -, -⟩ := decideAppend_eq_write hdecision
    have hkind := (pointFrame_eq_some hframe).1
    refine .accepted hsound haccepted (by rw [hkind]; nofun) (by rw [htables]; rfl)
      (by rw [htables]; rfl) (fun published => ?_) hreachable
    rw [htables]
    exact writes_append hdecision published

theorem Grows.commit (hsound : db.Sound) {t : Transaction} {io : Io} {commit : Commit}
    (h : db.commit t io = (.ok commit, db')) : db.Grows db' (t.newPoints commit) := by
  have hacted := commit_acted db t io
  have hreachable : db.Reachable → db'.Reachable := fun hdb => by
    have hcommit := hdb.commit t io
    rwa [h] at hcommit
  rw [h] at hacted
  cases hacted with
  | answered hdecision =>
    obtain ⟨-, -, hanswered⟩ := decide_eq_answer hdecision
    have hnone : t.newPoints commit = [] := by
      cases hanswered with
      | empty hempty _ =>
        have hnil : t.records = [] := List.isEmpty_iff.mp hempty
        simp [Transaction.newPoints, Transaction.pointList, hnil]
      | identified _ _ _ _ => rfl
      | ingress _ _ _ _ _ => rfl
    rw [hnone]
    exact .refl db
  | @accepted frame catalog durable _ hdecision haccepted htables =>
    obtain ⟨-, -, payload, hsmall, hframe, -, -⟩ := decide_eq_write hdecision
    have hkind : frame.kind ≠ .sealCheckpoint := by
      rw [hframe]
      simp only [transactionFrame]
      cases transactionIdentity t <;> (intro h; cases h)
    obtain ⟨hindex, hcount⟩ := acceptTransaction_rest db.toTables t frame.payload catalog
      db.file.length (db.writtenCommit frame t.pointCount t.recordCount durable)
    refine .accepted hsound haccepted hkind (by rw [htables]; exact hindex)
      (by rw [htables]; exact hcount) (fun published => ?_) hreachable
    rw [htables]
    exact writes_commit hdecision published durable

end Writes

/-! ## What a reclaim keeps -/

/-- A log that was written anew: without checkpoints, and with the same points. -/
structure Rewrites [Jiff] (db db' : Database) : Prop where
  config : db'.config = db.config
  sealed : db'.sealed = db.sealed
  sealedPoints : db'.sealedPoints = db.sealedPoints
  logical : db'.logical = db.logical
  log : ∃ fs t, db'.file.bytes = logBytes fs ∧ (∀ f ∈ fs, f.kind ≠ .sealCheckpoint) ∧
    db'.Rebuilt [] fs t

theorem Rewrites.of_reclaim [Jiff] {db db' : Database} (hsound : db.Sound) {order : List UInt64}
    {io : ReclaimIo} (h : db.reclaimLiveLog order io = (.ok (), db')) : db.Rewrites db' := by
  have hreclaimed := Reclaims.reclaimed hsound ⟨order, io, h⟩
  have hsealed : db'.sealed = db.sealed ∧ db'.sealedPoints = db.sealedPoints := by
    let Kept (db' : Database) := db'.sealed = db.sealed ∧ db'.sealedPoints = db.sealedPoints
    have hflush : Kept (db.flush io.flush).2 := by
      rcases db.flush_cases io.flush with ⟨e, poison, hflush, -⟩ | ⟨-, -, hflush⟩
      all_goals
        rw [hflush]
        exact ⟨rfl, rfl⟩
    have hkept : Kept (db.reclaimLiveLog order io).2 :=
      reclaimLiveLog_preserves ⟨rfl, rfl⟩ hflush (fun _ h => h) fun h _ => h
    rwa [h] at hkept
  obtain ⟨-, -, db₁, file, scan, htables, hbytes, hconfig, -, -, hcompact, rfl⟩ :=
    reclaimLiveLog_eq_ok h
  have hsound₁ : db₁.Sound := by rwa [Sound, htables, hbytes]
  obtain ⟨fs, t, hcompacted, hfile, hscan⟩ := compactLog_eq_ok hsound₁ hcompact
  refine ⟨hconfig, hsealed.1, hsealed.2, hreclaimed.logical, fs, t, hfile,
    kind_of_compactLog hcompacted.written, hcompacted.fits, hcompacted.replay, ?_⟩
  -- nothing is left to reclaim behind a log without checkpoints
  have hpending := pendingReclaim_replay hcompacted.replay
  have hmark := Tables.forgetDurable_markReceiptsDurable t.sortIndex
  rw [Tables.Matches, ← hmark]
  show ({ scan.toTables.markReceiptsDurable with pendingReclaim := false } : Tables).forgetDurable =
    _
  rw [hscan]
  have hsame : ({ t.sortIndex.markReceiptsDurable with pendingReclaim := false } : Tables) =
      { t.sortIndex.markReceiptsDurable with pendingReclaim := t.pendingReclaim } := by
    rw [hpending]
  rw [hsame]
  rfl

/-! ## How many points are live -/

/-- The handle counts the points of its index. -/
theorem Rebuilt.counted [Jiff] {db : Database} {published : List UInt64} {fs : List Frame}
    {t : Tables} (h : db.Rebuilt published fs t) :
    ∃ l, db.index.Holds l ∧ db.points = l.length := by
  have hempty : Tables.Counted {} := by
    refine ⟨[], fun s => ?_, rfl⟩
    rw [LiveIndex.seriesPoints_sort, LiveIndex.Holds.empty s]
    rfl
  obtain ⟨l, hl, hcount⟩ := Tables.Counted.replay h.fits hempty h.replay
  rw [h.tables.index, h.tables.points]
  exact ⟨l, hl, hcount⟩

theorem perm_of_series {l l' : List Point} (h : ∀ s : UInt64,
    (l.filter fun p => p.seriesId = s).Perm (l'.filter fun p => p.seriesId = s)) : l.Perm l' := by
  refine perm_iff_count.mpr fun p => ?_
  have hcount : ∀ m : List Point,
      (m.filter fun q => q.seriesId = p.seriesId).count p = m.count p := by
    intro m
    exact count_filter (p := fun q : Point => q.seriesId = p.seriesId) (decide_eq_true rfl)
  rw [← hcount, ← hcount l']
  exact (h p.seriesId).count_eq p

theorem livePointsSnapshot_perm {index : LiveIndex} {l : List Point} (h : index.Holds l)
    (order : List UInt64) : (livePointsSnapshot index order).Perm l := by
  refine perm_of_series fun s => ?_
  rw [h.filter_livePointsSnapshot, h]
  exact stableSort_perm _ _

/-- Two indexes that show the same series hold equally many points. -/
theorem length_eq_of_series {index index' : LiveIndex} {l l' : List Point} (h : index.Holds l)
    (h' : index'.Holds l') (hsame : ∀ s, index'.seriesPoints s = index.seriesPoints s) :
    l'.length = l.length := by
  refine (perm_of_series fun s => ?_).length_eq
  have hseries := hsame s
  rw [h, h'] at hseries
  have hnew := stableSort_perm byValidTime (l'.filter fun p => p.seriesId = s)
  rw [hseries] at hnew
  exact hnew.symm.trans (stableSort_perm byValidTime _)

end Database

end Ftwdb
