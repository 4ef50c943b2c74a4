import Ftwdb.Storage.SegmentRoundTrip

/-!
# Streaming a history

`visit_query` and `visit_history` give the points of a range to a visitor, one
block after the other, instead of collecting them.  They find the blocks by a
binary search and a walk, where a query tests every entry of the index.  The
search is right because of what `validate_index` asks of the entries, whoever
wrote them: they are ordered by series, and in a series a block starts where the
one before it ends or later (`InOrder`).
-/

namespace Ftwdb

open BinarySearch ByteCodec Check List StableSort

/-! ## Visitors -/

/-- A step of a visitor over its own state.  A step that fails has still changed it. -/
abbrev Visit (ε σ : Type) := σ → Except ε Unit × σ

namespace Visit

variable {ε σ α : Type}

/-- Nothing to visit. -/
def skip : Visit ε σ := fun state => (.ok (), state)

/-- The visit ends with an error. -/
def fail (e : ε) : Visit ε σ := fun state => (.error e, state)

/-- One step, and another one if it succeeds. -/
def andThen (first second : Visit ε σ) : Visit ε σ := fun state =>
  match first state with
  | (.error e, state) => (.error e, state)
  | (.ok (), state) => second state

/-- One visit after the other, up to the first error. -/
def each (step : α → Visit ε σ) : List α → Visit ε σ
  | [] => skip
  | a :: as => (step a).andThen (each step as)

end Visit

namespace StoredSegment

section Visit
variable [Lz4] {ε σ : Type}

/-- One block of `visit_query`. -/
def visitBlock (s : StoredSegment) (start stop : Int64) (convert : Error → ε)
    (reserve : Nat → Visit ε σ) (visit : Point → Visit ε σ) (e : IndexEntry) : Visit ε σ :=
  (reserve e.points.toNat).andThen <|
    match readBlock s.bytes e with
    | .error error => .fail (convert error)
    | .ok points => .each (fun p =>
      if start ≤ p.validTime ∧ p.validTime < stop then visit p else .skip) points

/-- `visit_query`: the blocks of the range, found by binary search. -/
def visitQuery (s : StoredSegment) (seriesId : UInt64) (start stop : Int64) (convert : Error → ε)
    (reserve : Nat → Visit ε σ) (visit : Point → Visit ε σ) : Visit ε σ :=
  let first := partitionPoint (fun e : IndexEntry => decide (e.seriesId < seriesId ∨
    (e.seriesId = seriesId ∧ e.maxTime < start))) s.index
  .each (s.visitBlock start stop convert reserve visit)
    ((s.index.drop first).takeWhile fun e => decide (e.seriesId = seriesId ∧ e.minTime < stop))

end Visit

/-! ## What a valid index is -/

/-- How two entries of a valid index stand to each other. -/
structure InOrder (e e' : IndexEntry) : Prop where
  first : e.minTime ≤ e.maxTime
  second : e'.minTime ≤ e'.maxTime
  apart : e.seriesId < e'.seriesId ∨ (e.seriesId = e'.seriesId ∧ e.maxTime ≤ e'.minTime)

theorem InOrder.trans {a b c : IndexEntry} (h : InOrder a b) (h' : InOrder b c) : InOrder a c where
  first := h.first
  second := h'.second
  apart := by
    rcases h.apart with hlt | ⟨heq, hle⟩
    · rcases h'.apart with hlt' | ⟨heq', -⟩
      · exact .inl (Std.lt_trans hlt hlt')
      · exact .inl (heq' ▸ hlt)
    · rcases h'.apart with hlt' | ⟨heq', hle'⟩
      · exact .inl (heq ▸ hlt')
      · exact .inr ⟨heq.trans heq', Std.le_trans hle (Std.le_trans h.second hle')⟩

/-- What the order test of a valid index leaves. -/
theorem ordered_of_test {e q : IndexEntry} (hq : q.minTime ≤ q.maxTime) (he : e.minTime ≤ e.maxTime)
    (h : ¬ (e.before q ∨ (e.seriesId = q.seriesId ∧ e.minTime < q.maxTime))) : InOrder q e where
  first := hq
  second := he
  apart := by
    rw [not_or, IndexEntry.before, not_or, not_and, not_and, Std.not_lt] at h
    obtain ⟨⟨hseries, -⟩, htimes⟩ := h
    by_cases hsame : q.seriesId = e.seriesId
    · exact .inr ⟨hsame, Std.not_lt.mp (htimes hsame.symm)⟩
    · exact .inl (Std.lt_of_le_of_ne hseries hsame)

theorem validateEntries_ordered {indexOffset points expected : Nat} {previous : Option IndexEntry}
    {index : List IndexEntry} {result : Nat × Nat}
    (h : validateEntries indexOffset previous points expected index = .ok result)
    (hprevious : ∀ q ∈ previous, q.minTime ≤ q.maxTime) :
    (previous.toList ++ index).IsChain InOrder ∧ ∀ e ∈ index, e.minTime ≤ e.maxTime := by
  induction index generalizing previous points expected with
  | nil => cases previous <;> simp
  | cons e index ih =>
    simp only [validateEntries, bind_eq_ok, failIf_eq_ok, ifSome_eq_ok, not_or] at h
    obtain ⟨_, ⟨-, -, htimes, -⟩, _, -, _, hordered, h⟩ := h
    have he : e.minTime ≤ e.maxTime := Std.not_lt.mp htimes
    obtain ⟨hchain, htail⟩ := ih h (by simpa using he)
    refine ⟨?_, forall_mem_cons.mpr ⟨he, htail⟩⟩
    cases previous with
    | none => exact hchain
    | some q =>
      refine isChain_cons_cons.mpr ⟨?_, hchain⟩
      exact ordered_of_test (hprevious q rfl) he (by simpa using hordered q rfl)

/-- An index that passes `validate_index`. -/
def IndexValid (s : StoredSegment) : Prop :=
  ∃ indexOffset pointCount, validateIndex s.index indexOffset pointCount = .ok ()

theorem IndexValid.ordered {s : StoredSegment} (h : s.IndexValid) : s.index.Pairwise InOrder := by
  obtain ⟨indexOffset, pointCount, h⟩ := h
  obtain ⟨result, hloop, -⟩ := bind_eq_ok.mp h
  have : IsTrans IndexEntry InOrder := ⟨fun _ _ _ => InOrder.trans⟩
  exact isChain_iff_pairwise.mp (validateEntries_ordered hloop nofun).1

/-- Only files with a valid index are open. -/
theorem indexValid_of_openFile {file : Bytes} {s : StoredSegment} (h : openFile file = .ok s) :
    s.IndexValid := by
  simp only [openFile, bind_eq_ok] at h
  obtain ⟨_, -, _, -, _, -, _, -, _, -, _, -, _, -, _, -, _, -, _, -, _, -, _, hvalid, h⟩ := h
  rw [← Except.ok.inj h]
  exact ⟨_, _, hvalid⟩

/-- What the binary search skips: the entries that end before the range. -/
def endsBefore (seriesId : UInt64) (start : Int64) (e : IndexEntry) : Bool :=
  decide (e.seriesId < seriesId ∨ (e.seriesId = seriesId ∧ e.maxTime < start))

theorem IndexValid.partitioned {s : StoredSegment} (h : s.IndexValid) (seriesId : UInt64)
    (start : Int64) : Partitioned (endsBefore seriesId start) s.index := by
  refine h.ordered.imp fun {a b} hab hb => ?_
  rw [endsBefore, decide_eq_true_eq] at hb ⊢
  rcases hb with hlt | ⟨heq, hmax⟩
  · rcases hab.apart with hlt' | ⟨heq', -⟩
    · exact .inl (Std.lt_trans hlt' hlt)
    · exact .inl (heq' ▸ hlt)
  · rcases hab.apart with hlt' | ⟨heq', hle⟩
    · exact .inl (heq ▸ hlt')
    · exact .inr ⟨heq'.trans heq, Std.lt_of_le_of_lt (Std.le_trans hle hab.second) hmax⟩

/-- Behind the entries it skips, the walk stops at the first entry outside the range for good. -/
theorem IndexValid.partitioned_walk {s : StoredSegment} (h : s.IndexValid) (seriesId : UInt64)
    (start stop : Int64) :
    Partitioned (fun e : IndexEntry => decide (e.seriesId = seriesId ∧ e.minTime < stop))
      (s.index.filter fun e => !endsBefore seriesId start e) := by
  refine (h.ordered.filter _).imp_of_mem fun {a b} ha _ hab hb => ?_
  rw [decide_eq_true_eq] at hb ⊢
  have hskipped : ¬ a.seriesId < seriesId := by
    have hkept := (mem_filter.mp ha).2
    rw [endsBefore, Bool.not_eq_true', decide_eq_false_iff_not, not_or] at hkept
    exact hkept.1
  rcases hab.apart with hlt | ⟨heq, hle⟩
  · exact absurd (hb.1 ▸ hlt) hskipped
  · exact ⟨heq.trans hb.1, Std.lt_of_le_of_lt (Std.le_trans hab.first hle) hb.2⟩

/-- The search and the walk find the entries that a query asks for. -/
theorem IndexValid.visited_eq {s : StoredSegment} (h : s.IndexValid) (seriesId : UInt64)
    (start stop : Int64) :
    (s.index.drop (partitionPoint (endsBefore seriesId start) s.index)).takeWhile
        (fun e => decide (e.seriesId = seriesId ∧ e.minTime < stop)) =
      s.index.filter fun e => e.overlaps seriesId start stop := by
  rw [(h.partitioned seriesId start).drop_partitionPoint,
    (h.partitioned_walk seriesId start stop).takeWhile_eq_filter.1, filter_filter]
  refine filter_congr fun e _ => ?_
  rw [Bool.eq_iff_iff]
  simp only [Bool.and_eq_true, decide_eq_true_eq, endsBefore, IndexEntry.overlaps,
    Bool.not_eq_true', decide_eq_false_iff_not, not_or, not_and, Std.not_lt]
  constructor
  · rintro ⟨⟨hseries, hmin⟩, -, hmax⟩
    exact ⟨hseries, hmax hseries, hmin⟩
  · rintro ⟨hseries, hmax, hmin⟩
    exact ⟨⟨hseries, hmin⟩, hseries ▸ Std.le_refl _, fun _ => hmax⟩

end StoredSegment

/-! ## What a visit collects -/

/-- The points given to a visitor that keeps them all, and the work reserved with it. -/
structure Visited where
  points : List Point := []
  reserved : Nat := 0
deriving DecidableEq

namespace Visited

/-- A visitor that keeps the points. -/
def keep (p : Point) : Visit Error Visited := fun v =>
  (.ok (), { v with points := v.points ++ [p] })

/-- A visitor that adds up the reservations. -/
def count (n : Nat) : Visit Error Visited := fun v =>
  (.ok (), { v with reserved := v.reserved + n })

/-- A visit adds the points of the result and the work to whatever is there, or ends in the
error of the result. -/
def Collects (visit : Visit Error Visited) (result : Except Error (List Point)) (work : Nat) :
    Prop :=
  ∀ v, match result with
    | .ok points => visit v = (.ok (), ⟨v.points ++ points, v.reserved + work⟩)
    | .error e => (visit v).1 = .error e

theorem collects_skip : Collects .skip (.ok []) 0 := by
  intro v
  simp [Visit.skip]

theorem collects_fail (e : Error) (work : Nat) : Collects (.fail e) (.error e) work :=
  fun _ => rfl

theorem collects_keep (p : Point) : Collects (keep p) (.ok [p]) 0 := fun _ => rfl

theorem collects_count (n : Nat) : Collects (count n) (.ok []) n := by
  intro v
  simp [count]

theorem Collects.andThen {first second : Visit Error Visited} {r r' : Except Error (List Point)}
    {n n' : Nat} (h : Collects first r n) (h' : Collects second r' n') :
    Collects (first.andThen second) (r.bind fun ps => r'.map (ps ++ ·)) (n + n') := by
  intro v
  cases r with
  | error e =>
    have hfirst : (first v).1 = .error e := h v
    show (first.andThen second v).1 = .error e
    rw [Visit.andThen]
    cases hv : first v with
    | mk outcome state =>
      rw [hv] at hfirst
      obtain rfl : outcome = .error e := hfirst
      rfl
  | ok points =>
    have hfirst : first v = (.ok (), ⟨v.points ++ points, v.reserved + n⟩) := h v
    have hsecond := h' ⟨v.points ++ points, v.reserved + n⟩
    cases r' with
    | error e => simpa only [Visit.andThen, hfirst, Except.bind, Except.map] using hsecond
    | ok points' =>
      simp only [Visit.andThen, hfirst, Except.bind, Except.map]
      rw [hsecond, append_assoc, Nat.add_assoc]

theorem Collects.each {α : Type} {step : α → Visit Error Visited}
    {result : α → Except Error (List Point)} {work : α → Nat} {as : List α}
    (h : ∀ a ∈ as, Collects (step a) (result a) (work a)) :
    Collects (.each step as) (gather result as) (as.map work).sum := by
  induction as with
  | nil => exact collects_skip
  | cons a as ih =>
    obtain ⟨ha, hrest⟩ := forall_mem_cons.mp h
    exact ha.andThen (ih hrest)

theorem collects_keepAll (points : List Point) : Collects (.each keep points) (.ok points) 0 := by
  induction points with
  | nil => exact collects_skip
  | cons p points ih => exact (collects_keep p).andThen ih

end Visited

theorem Visit.each_filter {ε σ α : Type} (c : α → Prop) [DecidablePred c] (step : α → Visit ε σ)
    (as : List α) :
    Visit.each (fun a => if c a then step a else .skip) as =
      Visit.each step (as.filter fun a => decide (c a)) := by
  induction as with
  | nil => rfl
  | cons a as ih =>
    by_cases ha : c a
    · rw [filter_cons_of_pos (by simpa using ha), Visit.each, Visit.each, if_pos ha, ih]
    · rw [filter_cons_of_neg (by simpa using ha), Visit.each, if_neg ha, ih]
      rfl

/-! ## One segment -/

namespace StoredSegment

/-- The points of the blocks that overlap the range. -/
def overlappingPoints (s : StoredSegment) (seriesId : UInt64) (start stop : Int64) : Nat :=
  ((s.index.filter fun e => e.overlaps seriesId start stop).map fun e => e.points.toNat).sum

variable [Lz4]

theorem collects_visitBlock (s : StoredSegment) (start stop : Int64) (e : IndexEntry) :
    Visited.Collects (s.visitBlock start stop id Visited.count Visited.keep e)
      ((readBlock s.bytes e).map fun points => points.filter fun p =>
        decide (start ≤ p.validTime ∧ p.validTime < stop)) e.points.toNat := by
  rw [visitBlock]
  cases hread : readBlock s.bytes e with
  | error error => exact (Visited.collects_count _).andThen (Visited.collects_fail error 0)
  | ok points =>
    simp only [Visit.each_filter]
    exact (Visited.collects_count _).andThen (Visited.collects_keepAll _)

theorem query_eq_gather (s : StoredSegment) (seriesId : UInt64) (start stop : Int64) :
    s.query seriesId start stop =
      gather (fun e => (readBlock s.bytes e).map fun points => points.filter fun p =>
          decide (start ≤ p.validTime ∧ p.validTime < stop))
        (s.index.filter fun e => e.overlaps seriesId start stop) := by
  rw [gather_eq_mapM]
  rfl

/-- What streaming has in common with a query of one segment. -/
structure Streams (s : StoredSegment) (seriesId : UInt64) (start stop : Int64) : Prop where
  /-- Any visitor meets the blocks that overlap the range, in their order. -/
  blocks : ∀ {ε σ : Type} (convert : Error → ε) (reserve : Nat → Visit ε σ)
    (visit : Point → Visit ε σ), s.visitQuery seriesId start stop convert reserve visit =
      .each (s.visitBlock start stop convert reserve visit)
        (s.index.filter fun e => e.overlaps seriesId start stop)
  collects : Visited.Collects (s.visitQuery seriesId start stop id Visited.count Visited.keep)
    (s.query seriesId start stop) (s.overlappingPoints seriesId start stop)

theorem IndexValid.streams {s : StoredSegment} (h : s.IndexValid) (seriesId : UInt64)
    (start stop : Int64) : s.Streams seriesId start stop := by
  have hblocks : ∀ {ε σ : Type} (convert : Error → ε) (reserve : Nat → Visit ε σ)
      (visit : Point → Visit ε σ), s.visitQuery seriesId start stop convert reserve visit =
        .each (s.visitBlock start stop convert reserve visit)
          (s.index.filter fun e => e.overlaps seriesId start stop) := by
    intro ε σ convert reserve visit
    rw [← h.visited_eq]
    rfl
  refine ⟨hblocks, ?_⟩
  rw [hblocks, query_eq_gather]
  exact Visited.Collects.each fun e _ => s.collects_visitBlock start stop e

end StoredSegment

/-! ## A database -/

/-- What a database reads a history from: its sealed files, each as it was opened, and the
index of the live points. -/
structure OpenHistory where
  sealed : List StoredSegment
  index : LiveIndex
  opened : ∀ s ∈ sealed, ∃ file, StoredSegment.openFile file = .ok s

namespace OpenHistory

/-- The work a stream reserves: the points of each overlapping block and of the live slice. -/
def work (h : OpenHistory) (seriesId : UInt64) (start stop : Int64) : Nat :=
  (h.sealed.map fun s => s.overlappingPoints seriesId start stop).sum +
    (seriesTimeSlice (h.index.seriesPoints seriesId) start stop).length

theorem flatMap_query_filter (sealed : List Segment) (seriesId : UInt64) (start stop : Int64) :
    (sealed.filter fun s => s.overlaps seriesId start stop).flatMap
        (fun s => s.query seriesId start stop) =
      sealed.flatMap fun s => s.query seriesId start stop := by
  induction sealed with
  | nil => rfl
  | cons s sealed ih =>
    cases hs : s.overlaps seriesId start stop with
    | true => simp [hs, ih]
    | false => simp [hs, ih, Segment.query_of_not_overlaps hs]

variable [Lz4]

/-- `collect_raw_points` over files. -/
def collectRawPoints (h : OpenHistory) (seriesId : UInt64) (start stop : Int64) :
    Except Error (List Point) := do
  let parts ← (h.sealed.filter fun s => s.overlaps seriesId start stop).mapM fun s =>
    s.query seriesId start stop
  .ok (stableSort byHistory
    (parts.flatten ++ seriesTimeSlice (h.index.seriesPoints seriesId) start stop))

/-- `query_history` over files. -/
def queryHistory (h : OpenHistory) (seriesId : UInt64) (start stop : Int64) :
    Except Error (List Point) :=
  (h.collectRawPoints seriesId start stop).map (stableSort byHistory)

/-- `visit_history`: sealed segments first, then the live points. -/
def visitHistory {ε σ : Type} (h : OpenHistory) (seriesId : UInt64) (start stop : Int64)
    (convert : Error → ε) (reserve : Nat → Visit ε σ) (visit : Point → Visit ε σ) : Visit ε σ :=
  (Visit.each (fun s => s.visitQuery seriesId start stop convert reserve visit) h.sealed).andThen <|
    let live := seriesTimeSlice (h.index.seriesPoints seriesId) start stop
    (reserve live.length).andThen (.each visit live)

/-- A segment without an overlapping block has nothing to give. -/
theorem query_of_not_overlaps {s : StoredSegment} {seriesId : UInt64} {start stop : Int64}
    (h : s.overlaps seriesId start stop = false) : s.query seriesId start stop = .ok [] := by
  have hnone : s.index.filter (fun e => e.overlaps seriesId start stop) = [] := by
    rw [StoredSegment.overlaps, any_eq_false] at h
    exact filter_eq_nil_iff.mpr h
  rw [StoredSegment.query_eq_gather, hnone]
  rfl

/-- The points of a range in the order of the files, then the live ones. -/
def rawParts (h : OpenHistory) (seriesId : UInt64) (start stop : Int64) :
    Except Error (List Point) :=
  (gather (fun s => s.query seriesId start stop) h.sealed).map
    (· ++ seriesTimeSlice (h.index.seriesPoints seriesId) start stop)

theorem queryHistory_eq (h : OpenHistory) (seriesId : UInt64) (start stop : Int64) :
    h.queryHistory seriesId start stop =
      (h.rawParts seriesId start stop).map fun points =>
        stableSort byHistory (stableSort byHistory points) := by
  have hskip : gather (fun s : StoredSegment => s.query seriesId start stop)
      (h.sealed.filter fun s => s.overlaps seriesId start stop) =
      gather (fun s => s.query seriesId start stop) h.sealed :=
    gather_filter (fun _ hs => query_of_not_overlaps hs) _
  rw [rawParts, ← hskip, gather_eq_mapM, queryHistory, collectRawPoints]
  cases (h.sealed.filter fun s : StoredSegment => s.overlaps seriesId start stop).mapM
    fun s => s.query seriesId start stop <;> rfl

theorem collects_visitHistory (h : OpenHistory) (seriesId : UInt64) (start stop : Int64) :
    Visited.Collects (h.visitHistory seriesId start stop id Visited.count Visited.keep)
      (h.rawParts seriesId start stop) (h.work seriesId start stop) := by
  have hsealed := Visited.Collects.each fun s hs =>
    ((StoredSegment.indexValid_of_openFile (h.opened s hs).choose_spec).streams seriesId start
      stop).collects
  have hlive := (Visited.collects_count
    (seriesTimeSlice (h.index.seriesPoints seriesId) start stop).length).andThen
    (Visited.collects_keepAll (seriesTimeSlice (h.index.seriesPoints seriesId) start stop))
  exact hsealed.andThen hlive

/-- What streaming has in common with a query of the database. -/
def Streams (h : OpenHistory) (seriesId : UInt64) (start stop : Int64) : Prop :=
  match h.queryHistory seriesId start stop with
  | .error e =>
    (h.visitHistory seriesId start stop id Visited.count Visited.keep {}).1 = .error e
  | .ok points => ∃ visited : List Point, visited.Perm points ∧
      h.visitHistory seriesId start stop id Visited.count Visited.keep {} =
        (.ok (), ⟨visited, h.work seriesId start stop⟩)

theorem streams (h : OpenHistory) (seriesId : UInt64) (start stop : Int64) :
    h.Streams seriesId start stop := by
  have hcollects := h.collects_visitHistory seriesId start stop {}
  rw [Streams, queryHistory_eq]
  cases hparts : h.rawParts seriesId start stop with
  | error e =>
    rw [hparts] at hcollects
    exact hcollects
  | ok points =>
    rw [hparts] at hcollects
    refine ⟨points, ?_, by simpa using hcollects⟩
    exact ((stableSort_perm _ _).trans (stableSort_perm _ _)).symm

/-- Over files that store the segments of a database, this is the database's own query. -/
theorem queryHistory_backed {h : OpenHistory} {db : Database} (hindex : h.index = db.index)
    (hsealed : List.Forall₂ StoredSegment.Backs h.sealed db.sealed) (seriesId : UInt64)
    (start stop : Int64) :
    h.queryHistory seriesId start stop = .ok (db.queryHistory seriesId start stop) := by
  have hparts : gather (fun s : StoredSegment => s.query seriesId start stop) h.sealed =
      .ok (db.sealed.flatMap fun s => s.query seriesId start stop) :=
    gather_of_forall₂ (hsealed.imp fun _ _ hs => hs.query_eq seriesId start stop)
  rw [queryHistory_eq, rawParts, hparts, hindex, Database.queryHistory,
    Database.collectRawPoints, flatMap_query_filter]
  rfl

end OpenHistory

/-- Streaming visits what a query collects: for a segment whose index is valid the same points
in the same order, with the work of exactly the overlapping blocks reserved, and for a database
the same points in some order.  Where the query fails, so does the visit, in the same way. -/
theorem streaming_history [Lz4] :
    (∀ (s : StoredSegment) (indexOffset pointCount : Nat),
      StoredSegment.validateIndex s.index indexOffset pointCount = .ok () →
      ∀ (seriesId : UInt64) (start stop : Int64), s.Streams seriesId start stop) ∧
    ∀ (h : OpenHistory) (seriesId : UInt64) (start stop : Int64),
      h.Streams seriesId start stop := by
  constructor
  · intro s indexOffset pointCount hvalid seriesId start stop
    have h : s.IndexValid := ⟨indexOffset, pointCount, hvalid⟩
    exact h.streams seriesId start stop
  · intro h seriesId start stop
    exact h.streams seriesId start stop

set_option maxRecDepth 20000 in
/-- A file of three blocks, two of them of the series and one of these in the range, and the
same file beside a live point. -/
theorem streaming_history_blocks :
    letI := Lz4.runs
    let points : List Point := [.actual 7 100 ⟨1⟩, .actual 3 5 ⟨2⟩, .actual 7 (-4) ⟨3⟩]
    ∃ s, ∃ h : OpenHistory,
      ((StoredSegment.create points 1).bind fun written => StoredSegment.openFile written.2) =
        .ok s ∧
      s.Streams 7 0 200 ∧ s.overlappingPoints 7 0 200 = 1 ∧
      h.sealed = [s] ∧ h.Streams 7 0 200 ∧ h.work 7 0 200 = 2 := by
  let _ := Lz4.runs
  intro points
  have hopened : (((StoredSegment.create points 1).bind fun written =>
      StoredSegment.openFile written.2).map fun s => s.overlappingPoints 7 0 200) = .ok 1 := by
    decide +kernel
  obtain ⟨s, hs, hwork⟩ := map_eq_ok.mp hopened
  obtain ⟨⟨_, file⟩, -, hopen⟩ := bind_eq_ok.mp hs
  obtain ⟨indexOffset, pointCount, hvalid⟩ := StoredSegment.indexValid_of_openFile hopen
  refine ⟨s, ⟨[s], LiveIndex.push ∅ (.actual 7 150 ⟨4⟩), by simpa using ⟨file, hopen⟩⟩, hs,
    streaming_history.1 s indexOffset pointCount hvalid 7 0 200, hwork, rfl,
    streaming_history.2 _ 7 0 200, ?_⟩
  have hlive : (seriesTimeSlice (LiveIndex.seriesPoints
      (LiveIndex.push ∅ (.actual 7 150 ⟨4⟩)) 7) 0 200).length = 1 := by
    decide +kernel
  rw [OpenHistory.work, map_singleton, sum_singleton, hwork, hlive]

end Ftwdb
