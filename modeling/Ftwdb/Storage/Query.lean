import Ftwdb.Lib.BinarySearch
import Ftwdb.Lib.Signed
import Ftwdb.Storage.Simulation

/-!
# Queries

The readers of `storage.rs` over the sealed segments and the live index, and
what they return in terms of the points that the handle holds.  `rawSeries` is
the history of one series as the handle stores it.  A query sorts it by
`(valid_time, knowledge_time, change_time)`, so all that matters of it is its
stable sort by that key: two handles with the same sorted series give the same
answers.
-/

namespace Ftwdb

open BinarySearch StableSort
open List hiding lex

/-- `series_time_slice` of a list sorted by valid time, where the two binary
searches find the ends of these runs. -/
def seriesTimeSlice (points : List Point) (start stop : Int64) : List Point :=
  (points.dropWhile fun p => decide (p.validTime < start)).takeWhile fun p =>
    decide (p.validTime < stop)

/-- One round of `winning_revisions`. -/
def pushWinner (prefer : Point → Point → Bool) (winners : List Point) (p : Point) : List Point :=
  match winners.getLast? with
  | none => [p]
  | some current =>
    if current.validTime = p.validTime then
      if prefer p current then winners.dropLast ++ [p] else winners
    else winners ++ [p]

/-- `winning_revisions`: of each valid time the preferred revision. -/
def winningRevisions (points : List Point) (start stop : Int64) (keep : Point → Bool)
    (prefer : Point → Point → Bool) : List Point :=
  ((seriesTimeSlice points start stop).filter keep).foldl (pushWinner prefer) []

/-- Whether a point lies within the two cutoffs. -/
def withinCutoffs (knowledge change : Option Int64) (p : Point) : Bool :=
  knowledge.all (fun cutoff => decide (p.knowledgeTime ≤ cutoff)) &&
    change.all fun cutoff => decide (p.changeTime ≤ cutoff)

/-- The points of a run. -/
def ofRun (runId : U128) (p : Point) : Bool := decide (p.runId = runId)

/-- The points of a series. -/
def ofSeries (seriesId : UInt64) (p : Point) : Bool := decide (p.seriesId = seriesId)

/-- The points in a half-open range. -/
def inRange (start stop : Int64) (p : Point) : Bool :=
  decide (start ≤ p.validTime ∧ p.validTime < stop)

namespace Database

/-- `series_revision_count`. -/
def seriesRevisionCount (db : Database) (seriesId : UInt64) : Nat :=
  (db.index.seriesPoints seriesId).length +
    (db.sealed.map fun s => s.seriesPointCount seriesId).sum

/-- The loop over the segments of `series_valid_bounds`. -/
def widen (bounds : Int64 × Int64) : Option (Int64 × Int64) → Int64 × Int64
  | none => bounds
  | some (start, stop) =>
    (if start < bounds.1 then start else bounds.1, if bounds.2 < stop then stop else bounds.2)

/-- The bounds of a sorted list. -/
def liveBounds (points : List Point) : Option (Int64 × Int64) :=
  match points.head?, points.getLast? with
  | some first, some last => some (first.validTime, last.validTime)
  | _, _ => none

/-- `series_valid_bounds`. -/
def seriesValidBounds (db : Database) (seriesId : UInt64) : Option (Int64 × Int64) :=
  let live := widen (Int64.maxValue, Int64.minValue) (liveBounds (db.index.seriesPoints seriesId))
  let bounds := db.sealed.foldl (fun bounds s => widen bounds (s.seriesBounds seriesId)) live
  if bounds.1 ≤ bounds.2 then some bounds else none

/-- `collect_raw_points`: sealed points first, then the live ones. -/
def collectRawPoints (db : Database) (seriesId : UInt64) (start stop : Int64) : List Point :=
  stableSort byHistory
    ((db.sealed.filter fun s => s.overlaps seriesId start stop).flatMap
        (fun s => s.query seriesId start stop) ++
      seriesTimeSlice (db.index.seriesPoints seriesId) start stop)

/-- `query_history`. -/
def queryHistory (db : Database) (seriesId : UInt64) (start stop : Int64) : List Point :=
  stableSort byHistory (db.collectRawPoints seriesId start stop)

/-- `query_with_cutoffs`. -/
def queryWithCutoffs (db : Database) (seriesId : UInt64) (start stop : Int64)
    (knowledge change : Option Int64) : List Point :=
  winningRevisions (db.collectRawPoints seriesId start stop) start stop
    (withinCutoffs knowledge change) fun candidate current => byRevision current candidate

/-- `query_latest`. -/
def queryLatest (db : Database) (seriesId : UInt64) (start stop : Int64) : List Point :=
  db.queryWithCutoffs seriesId start stop none none

/-- `query_as_of`. -/
def queryAsOf (db : Database) (seriesId : UInt64) (start stop asOf : Int64) : List Point :=
  db.queryWithCutoffs seriesId start stop (some asOf) (some asOf)

/-- `query_run`. -/
def queryRun (db : Database) (seriesId : UInt64) (runId : U128) (start stop : Int64) :
    List Point :=
  winningRevisions (db.collectRawPoints seriesId start stop) start stop
    (ofRun runId) fun candidate current => byChangeTime current candidate

end Database

/-! ## Slices and winners -/

theorem seriesTimeSlice_eq_filter {l : List Point} (hl : Sorted byValidTime l)
    (start stop : Int64) : seriesTimeSlice l start stop = l.filter (inRange start stop) := by
  have hlt : ∀ t : Int64, ∀ {a b : Point}, byValidTime a b = true →
      decide (b.validTime < t) = true → decide (a.validTime < t) = true := by
    intro t a b hab hb
    rw [byValidTime, decide_eq_true_eq] at hab
    rw [decide_eq_true_eq] at hb ⊢
    exact Std.lt_of_le_of_lt hab hb
  have hdrop := (Partitioned.takeWhile_eq_filter (hl.imp (hlt start))).2
  have hkeep := (Partitioned.takeWhile_eq_filter
    ((hl.filter fun p => !decide (p.validTime < start)).imp (hlt stop))).1
  rw [seriesTimeSlice, hdrop, hkeep, filter_filter]
  refine filter_congr fun p _ => ?_
  rw [inRange, Bool.eq_iff_iff]
  simp [Std.not_lt, and_comm]

/-- The winners among the candidates: one for each valid time that has a
candidate, the greatest one, in increasing order. -/
structure Winners (le : Point → Point → Bool) (candidates winners : List Point) : Prop where
  ascending : winners.Pairwise fun a b => a.validTime < b.validTime
  greatest : ∀ p ∈ winners,
    Greatest le (candidates.filter fun q => decide (q.validTime = p.validTime)) p
  complete : ∀ p ∈ candidates, ∃ q ∈ winners, q.validTime = p.validTime

namespace Winners

variable {le : Point → Point → Bool}

theorem nil : Winners le [] [] := ⟨List.Pairwise.nil, nofun, nofun⟩

/-- A candidate at the end changes only the candidates of its own time. -/
theorem greatest_concat_of_ne {candidates : List Point} {p q : Point}
    (hne : p.validTime ≠ q.validTime)
    (h : Greatest le (candidates.filter fun r => decide (r.validTime = q.validTime)) q) :
    Greatest le ((candidates ++ [p]).filter fun r => decide (r.validTime = q.validTime)) q := by
  rwa [filter_append, filter_cons_of_neg (by simpa using hne), filter_nil,
    append_nil]

theorem filter_concat_self (candidates : List Point) (p : Point) :
    ((candidates ++ [p]).filter fun r => decide (r.validTime = p.validTime)) =
      (candidates.filter fun r => decide (r.validTime = p.validTime)) ++ [p] := by
  rw [filter_append, filter_cons_of_pos (by simp), filter_nil]

variable {candidates init : List Point}

variable {current p : Point} {candidates : List Point}

theorem lt_last {q : Point} (h : Winners le candidates (init ++ [current])) (hq : q ∈ init) :
    q.validTime < current.validTime :=
  (pairwise_append.mp h.ascending).2.2 q hq current (mem_singleton_self _)

/-- The last winner is a candidate, and the others come before it. -/
theorem le_last (h : Winners le candidates (init ++ [current])) {q : Point} (hq : q ∈ candidates) :
    q.validTime ≤ current.validTime := by
  obtain ⟨w, hw, hwq⟩ := h.complete q hq
  rw [← hwq]
  rcases mem_append.mp hw with hw | hw
  · exact Std.le_of_lt (h.lt_last hw)
  · rw [mem_singleton.mp hw]
    exact Std.le_refl _

/-- A later candidate of the same time. -/
theorem replace (hle : TotalPreorder le) (h : Winners le candidates (init ++ [current]))
    (hsame : current.validTime = p.validTime) (hprefer : le current p = true) :
    Winners le (candidates ++ [p]) (init ++ [p]) where
  ascending := by
    refine pairwise_append.mpr ⟨(pairwise_append.mp h.ascending).1,
      pairwise_singleton _ _, fun a ha b hb => ?_⟩
    rw [mem_singleton.mp hb, ← hsame]
    exact h.lt_last ha
  greatest := by
    intro q hq
    rcases mem_append.mp hq with hq | hq
    · have hlt := h.lt_last hq
      rw [hsame] at hlt
      exact greatest_concat_of_ne (Std.ne_of_lt hlt).symm (h.greatest q (mem_append_left _ hq))
    · obtain rfl := mem_singleton.mp hq
      have hcurrent := h.greatest current mem_concat_self
      rw [hsame] at hcurrent
      rw [filter_concat_self]
      exact greatest_concat.mpr (.inl ⟨rfl, fun z hz => hle.trans (hcurrent.above hle hz) hprefer⟩)
  complete := by
    intro q hq
    rcases mem_append.mp hq with hq | hq
    · obtain ⟨w, hw, hwq⟩ := h.complete q hq
      rcases mem_append.mp hw with hw | hw
      · exact ⟨w, mem_append_left _ hw, hwq⟩
      · rw [mem_singleton.mp hw, hsame] at hwq
        exact ⟨p, mem_concat_self, hwq⟩
    · rw [mem_singleton.mp hq]
      exact ⟨p, mem_concat_self, rfl⟩

/-- A candidate of the same time that the last winner is above of. -/
theorem keep (h : Winners le candidates (init ++ [current]))
    (hsame : current.validTime = p.validTime) (hprefer : le current p = false) :
    Winners le (candidates ++ [p]) (init ++ [current]) where
  ascending := h.ascending
  greatest := by
    intro q hq
    rcases mem_append.mp hq with hmem | hmem
    · have hlt := h.lt_last hmem
      rw [hsame] at hlt
      exact greatest_concat_of_ne (Std.ne_of_lt hlt).symm (h.greatest q hq)
    · obtain rfl := mem_singleton.mp hmem
      have hq' := h.greatest q hq
      rw [hsame] at hq' ⊢
      rw [filter_concat_self]
      exact greatest_concat.mpr (.inr ⟨hq', hprefer⟩)
  complete := by
    intro q hq
    rcases mem_append.mp hq with hq | hq
    · exact h.complete q hq
    · rw [mem_singleton.mp hq, ← hsame]
      exact ⟨current, mem_concat_self, rfl⟩

/-- A candidate of a new time. -/
theorem concat {winners : List Point} (h : Winners le candidates winners)
    (hnew : ∀ q ∈ winners, q.validTime < p.validTime) :
    Winners le (candidates ++ [p]) (winners ++ [p]) where
  ascending := by
    refine pairwise_append.mpr ⟨h.ascending, pairwise_singleton _ _, fun a ha b hb => ?_⟩
    rw [mem_singleton.mp hb]
    exact hnew a ha
  greatest := by
    intro q hq
    rcases mem_append.mp hq with hq | hq
    · exact greatest_concat_of_ne (Std.ne_of_lt (hnew q hq)).symm (h.greatest q hq)
    · obtain rfl := mem_singleton.mp hq
      have hnone : (candidates.filter fun r => decide (r.validTime = q.validTime)) = [] := by
        refine filter_eq_nil_iff.mpr fun r hr => ?_
        obtain ⟨w, hw, hwr⟩ := h.complete r hr
        rw [decide_eq_true_eq, ← hwr]
        exact Std.ne_of_lt (hnew w hw)
      rw [filter_concat_self, hnone]
      exact ⟨[], [], rfl, nofun, nofun⟩
  complete := by
    intro q hq
    rcases mem_append.mp hq with hq | hq
    · obtain ⟨w, hw, hwq⟩ := h.complete q hq
      exact ⟨w, mem_append_left _ hw, hwq⟩
    · exact ⟨q, mem_append_right _ hq, rfl⟩

theorem push (hle : TotalPreorder le) {winners : List Point} (h : Winners le candidates winners)
    (hp : ∀ q ∈ candidates, q.validTime ≤ p.validTime) :
    Winners le (candidates ++ [p])
      (pushWinner (fun candidate current => le current candidate) winners p) := by
  rw [pushWinner]
  cases hlast : winners.getLast? with
  | none =>
    obtain rfl := getLast?_eq_none_iff.mp hlast
    exact h.concat nofun
  | some current =>
    obtain ⟨init, rfl⟩ := getLast?_eq_some_iff.mp hlast
    have hcurrent := h.greatest current mem_concat_self
    have hle' : current.validTime ≤ p.validTime := hp current (mem_of_mem_filter hcurrent.mem)
    simp only [dropLast_concat]
    by_cases hsame : current.validTime = p.validTime
    · rw [if_pos hsame]
      by_cases hprefer : le current p = true
      · rw [if_pos hprefer]
        exact h.replace hle hsame hprefer
      · rw [if_neg hprefer]
        exact h.keep hsame (by simpa using hprefer)
    · rw [if_neg hsame]
      refine h.concat fun q hq => ?_
      have hqc := h.le_last (mem_of_mem_filter (h.greatest q hq).mem)
      exact Std.lt_of_le_of_lt hqc (Std.lt_of_le_of_ne hle' hsame)

theorem foldl (hle : TotalPreorder le) (hsorted : Sorted byValidTime candidates) :
    Winners le candidates
      (candidates.foldl (pushWinner fun candidate current => le current candidate) []) := by
  induction candidates using List.reverseRecOn with
  | nil => exact nil
  | append_singleton candidates p ih =>
    rw [Sorted, pairwise_append] at hsorted
    rw [foldl_concat]
    refine (ih hsorted.1).push hle fun q hq => ?_
    have hqp := hsorted.2.2 q hq p (mem_singleton_self p)
    rwa [byValidTime, decide_eq_true_eq] at hqp

end Winners

variable {candidates winners : List Point}

variable {le : Point → Point → Bool}

/-- What the winners are is the same for a list sorted beforehand. -/
theorem Winners.of_sorted {first : Point → Point → Bool} (hfirst : TotalPreorder first)
    (hle : TotalPreorder le) (h : Winners le (stableSort first candidates) winners) :
    Winners (lex le first) candidates winners where
  ascending := h.ascending
  greatest := by
    intro p hp
    have hgreatest := h.greatest p hp
    rw [← stableSort_filter hfirst, ← getLast?_stableSort hle,
      stableSort_stableSort hle hfirst, getLast?_stableSort (hle.lex hfirst)] at hgreatest
    exact hgreatest
  complete p hp := h.complete p (mem_stableSort.mpr hp)

/-- The winners are determined by their candidates. -/
theorem Winners.unique (hle : TotalPreorder le) {candidates winners winners' : List Point}
    (h : Winners le candidates winners) (h' : Winners le candidates winners') :
    winners = winners' := by
  have hsub : ∀ {w w' : List Point}, Winners le candidates w → Winners le candidates w' →
      ∀ p ∈ w, p ∈ w' := by
    intro w w' hw hw' p hp
    obtain ⟨q, hq, hsame⟩ := hw'.complete p (mem_of_mem_filter (hw.greatest p hp).mem)
    have hgreatest := hw'.greatest q hq
    rw [hsame] at hgreatest
    rwa [(hw.greatest p hp).unique hle hgreatest]
  exact eq_of_strict h.ascending h'.ascending (fun p => ⟨hsub h h' p, hsub h' h p⟩)
    (fun _ => Std.lt_irrefl) Std.lt_trans

/-- The winners among the candidates of a range of times. -/
theorem Winners.window (h : Winners le candidates winners) (start stop : Int64) :
    Winners le (candidates.filter (inRange start stop)) (winners.filter (inRange start stop)) where
  ascending := h.ascending.filter _
  greatest := by
    intro p hp
    obtain ⟨hp, hin⟩ := mem_filter.mp hp
    have hsame : (candidates.filter (inRange start stop)).filter
        (fun q => decide (q.validTime = p.validTime)) =
        candidates.filter fun q => decide (q.validTime = p.validTime) := by
      rw [filter_filter]
      refine filter_congr fun q _ => ?_
      by_cases hq : q.validTime = p.validTime
      · rw [inRange, decide_eq_true_eq] at hin
        simp [hq, inRange, hin]
      · simp [hq]
    rw [hsame]
    exact h.greatest p hp
  complete := by
    intro p hp
    obtain ⟨hp, hin⟩ := mem_filter.mp hp
    obtain ⟨q, hq, hsame⟩ := h.complete p hp
    refine ⟨q, mem_filter.mpr ⟨hq, ?_⟩, hsame⟩
    rwa [inRange, hsame, ← inRange]

/-- The winners only compare candidates of one valid time. -/
theorem Winners.congr {le' : Point → Point → Bool} (h : Winners le candidates winners)
    (hsame : ∀ {a b : Point}, a.validTime = b.validTime → le a b = le' a b) :
    Winners le' candidates winners where
  ascending := h.ascending
  greatest := by
    intro p hp
    obtain ⟨before, after, heq, hbefore, hafter⟩ := h.greatest p hp
    have htime : ∀ q ∈ before ++ p :: after, q.validTime = p.validTime := by
      intro q hq
      rw [← heq] at hq
      simpa using (mem_filter.mp hq).2
    refine ⟨before, after, heq, fun y hy => ?_, fun y hy => ?_⟩
    · rw [← hsame (htime y (by simp [hy]))]
      exact hbefore y hy
    · rw [← hsame (htime y (by simp [hy])).symm]
      exact hafter y hy
  complete := h.complete

/-! ## Segments -/

namespace Segment

/-- Every block belongs to one series and is in the order of its valid times. -/
def Ordered (s : Segment) : Prop :=
  ∀ b ∈ s.blocks, Sorted byValidTime b.points ∧ ∀ p ∈ b.points, p.seriesId = b.seriesId

variable {b : Block} {n : Nat}

/-- The times of a block lie between its first and its last. -/
theorem time_bounds (hsorted : Sorted byValidTime b.points) {p : Point}
    (hp : p ∈ b.points) : b.minTime ≤ p.validTime ∧ p.validTime ≤ b.maxTime := by
  constructor
  · obtain ⟨seriesId, points, hne⟩ := b
    cases points with
    | nil => exact absurd rfl hne
    | cons q rest =>
      rcases mem_cons.mp hp with rfl | hp
      · exact Std.le_refl _
      · exact of_decide_eq_true ((pairwise_cons.mp hsorted).1 p hp)
  · obtain ⟨init, hinit⟩ := getLast?_eq_some_iff.mp (getLast?_eq_some_getLast b.nonempty)
    rw [hinit, Sorted, pairwise_append] at hsorted
    rw [hinit] at hp
    rcases mem_append.mp hp with hp | hp
    · exact of_decide_eq_true (hsorted.2.2 p hp _ (mem_singleton_self _))
    · rw [mem_singleton.mp hp]
      exact Std.le_refl _

/-- The index entry of a block rules it out only if no point of it is asked for. -/
theorem filter_of_not_overlaps (hsorted : Sorted byValidTime b.points)
    (hseries : ∀ p ∈ b.points, p.seriesId = b.seriesId) {seriesId : UInt64} {start stop : Int64}
    (h : b.overlaps seriesId start stop = false) :
    (b.points.filter fun p => ofSeries seriesId p && inRange start stop p) = [] := by
  refine filter_eq_nil_iff.mpr fun p hp hkeep => ?_
  rw [Bool.and_eq_true, ofSeries, inRange, decide_eq_true_eq, decide_eq_true_eq] at hkeep
  obtain ⟨hid, hstart, hstop⟩ := hkeep
  obtain ⟨hfirst, hlast⟩ := time_bounds hsorted hp
  exact (decide_eq_false_iff_not.mp h) ⟨(hseries p hp).symm.trans hid,
    Std.le_trans hstart hlast, Std.lt_of_le_of_lt hfirst hstop⟩

theorem Ordered.query_eq {s : Segment} (h : s.Ordered) (seriesId : UInt64) (start stop : Int64) :
    s.query seriesId start stop =
      s.points.filter fun p => ofSeries seriesId p && inRange start stop p := by
  rw [Ordered] at h
  rw [query, points]
  generalize s.blocks = blocks at h
  induction blocks with
  | nil => rfl
  | cons b blocks ih =>
    obtain ⟨⟨hsorted, hseries⟩, hrest⟩ := forall_mem_cons.mp h
    rw [flatMap_cons, filter_append, ← ih hrest, filter_cons]
    cases hoverlaps : b.overlaps seriesId start stop with
    | false => simp [filter_of_not_overlaps hsorted hseries hoverlaps]
    | true =>
      rw [if_pos rfl, flatMap_cons]
      congr 1
      refine filter_congr fun p hp => ?_
      have hid : b.seriesId = seriesId := (of_decide_eq_true hoverlaps).1
      simp [ofSeries, inRange, (hseries p hp).trans hid]

theorem query_of_not_overlaps {s : Segment} {seriesId : UInt64} {start stop : Int64}
    (h : s.overlaps seriesId start stop = false) : s.query seriesId start stop = [] := by
  have hnone : (s.blocks.filter fun b => b.overlaps seriesId start stop) = [] := by
    rw [overlaps, any_eq_false] at h
    exact filter_eq_nil_iff.mpr h
  rw [query, hnone, flatMap_nil]

theorem flatten_chunks {α : Type} (hn : 0 < n) (fuel : Nat) {l : List α}
    (hfuel : l.length ≤ fuel) : (chunks n fuel l).flatten = l := by
  induction fuel generalizing l with
  | zero =>
    obtain rfl := length_eq_zero_iff.mp (Nat.le_zero.mp hfuel)
    rfl
  | succ fuel ih =>
    cases l with
    | nil => rfl
    | cons a l =>
      rw [chunks, flatten_cons, ih, take_append_drop]
      · rw [length_drop, length_cons] at *
        omega
      · simp

/-- Cutting into blocks keeps the points in their order. -/
theorem flatMap_cutBlocks (hn : 0 < n) (l : List Point) :
    (cutBlocks n l).flatMap Block.points = l := by
  have hseries : ∀ series : List Point,
      ((chunks n series.length series).filterMap fun points =>
        if h : points = [] then none
        else some (⟨(points.head h).seriesId, points, h⟩ : Block)).flatMap Block.points =
          series := by
    intro series
    have hflat : ∀ parts : List (List Point), (parts.filterMap fun points =>
        if h : points = [] then none
        else some (⟨(points.head h).seriesId, points, h⟩ : Block)).flatMap Block.points =
          parts.flatten := by
      intro parts
      induction parts with
      | nil => rfl
      | cons part parts ih =>
        by_cases hpart : part = []
        · simp [hpart, ih]
        · simp [hpart, ih]
    rw [hflat, flatten_chunks hn _ (Nat.le_refl _)]
  rw [cutBlocks, flatMap_assoc]
  simp only [hseries, flatMap_id']
  exact flatten_splitBy _ _

/-- A block is a part of one run of the list. -/
theorem mem_cutBlocks (hn : 0 < n) {l : List Point} (hb : b ∈ cutBlocks n l) :
    b.points.Sublist l ∧ ∀ p ∈ b.points, p.seriesId = b.seriesId := by
  rw [cutBlocks, mem_flatMap] at hb
  obtain ⟨run, hrun, hb⟩ := hb
  obtain ⟨part, hpart, hb⟩ := mem_filterMap.mp hb
  have hsub : part.Sublist run := by
    have hflat := sublist_flatten_of_mem hpart
    rwa [flatten_chunks hn _ (Nat.le_refl _)] at hflat
  split at hb
  · cases hb
  · next hne =>
    cases hb
    constructor
    · have hflat := sublist_flatten_of_mem hrun
      rw [flatten_splitBy] at hflat
      exact hsub.trans hflat
    · have hchain := isChain_of_mem_splitBy hrun
      simp only [beq_iff_eq] at hchain
      have hall : run.Pairwise fun a b => a.seriesId = b.seriesId := by
        have : IsTrans Point fun a b => a.seriesId = b.seriesId := ⟨fun _ _ _ => Eq.trans⟩
        exact isChain_iff_pairwise.mp hchain
      have hpart' := hall.sublist hsub
      intro p hp
      cases part with
      | nil => exact absurd rfl hne
      | cons q rest =>
        rcases mem_cons.mp hp with rfl | hp
        · rfl
        · exact ((pairwise_cons.mp hpart').1 p hp).symm

/-- Within one series the segment order is the order of the history. -/
theorem bySegment_of_same {a b : Point} (h : a.seriesId = b.seriesId) :
    bySegment a b = byHistory a b := by
  have hle : bySeriesId a b = true ∧ bySeriesId b a = true := by
    simp only [bySeriesId, h, decide_eq_true_eq, and_self]
    exact Std.le_refl _
  simp [bySegment, lex, hle]

theorem sorted_of_mem_cutBlocks {points : List Point} (hn : 0 < n)
    (hb : b ∈ cutBlocks n (stableSort bySegment points)) : Sorted byHistory b.points := by
  obtain ⟨hsub, hseries⟩ := mem_cutBlocks hn hb
  have hsorted := (sorted_stableSort bySegment_preorder points).sublist hsub
  refine hsorted.imp_of_mem fun {p q} hp hq hpq => ?_
  rwa [bySegment_of_same ((hseries p hp).trans (hseries q hq).symm)] at hpq

/-- One series of a segment is the history of that series. -/
theorem filter_sort_bySegment (points : List Point) (s : UInt64) :
    (stableSort bySegment points).filter (ofSeries s) =
      stableSort byHistory (points.filter (ofSeries s)) := by
  refine eq_stableSort byHistory_preorder ?_ fun x => ?_
  · have hsorted := (sorted_stableSort bySegment_preorder points).filter (ofSeries s)
    refine hsorted.imp_of_mem fun {a b} ha hb hab => ?_
    have ha' : a.seriesId = s := by simpa [ofSeries] using (mem_filter.mp ha).2
    have hb' : b.seriesId = s := by simpa [ofSeries] using (mem_filter.mp hb).2
    rwa [bySegment_of_same (ha'.trans hb'.symm)] at hab
  · -- the points that tie with `x` are those that tie with it inside the series
    have hties : ∀ l : List Point, ties byHistory x (l.filter (ofSeries s)) =
        (ties bySegment { x with seriesId := s } l).filter (ofSeries s) := by
      intro l
      simp only [ties, filter_filter]
      refine filter_congr fun y _ => ?_
      by_cases hy : y.seriesId = s
      · rw [bySegment_of_same hy.symm, bySegment_of_same hy, Bool.and_comm]
        rfl
      · have hno : ofSeries s y = false := by simpa [ofSeries] using hy
        simp [hno]
    rw [hties, hties, ties_stableSort bySegment_preorder]

/-- What a created segment holds. -/
theorem create_eq_ok {points : List Point} {s : Segment} (h : create points n = .ok s) :
    s.Ordered ∧ s.points = stableSort bySegment points ∧ s.pointCount = points.length := by
  simp only [create, Check.bind_eq_ok, Check.failIf_eq_ok, not_or] at h
  obtain ⟨_, ⟨hn, -⟩, _, -, _, -, _, -, _, -, hs⟩ := h
  cases hs
  have hn' : 0 < n := Nat.pos_of_ne_zero hn
  refine ⟨fun b hb => ⟨?_, (mem_cutBlocks hn' hb).2⟩, flatMap_cutBlocks hn' _, rfl⟩
  exact (sorted_of_mem_cutBlocks hn' hb).imp le_of_lex

end Segment

/-- The least and the greatest valid time of some points. -/
def IsBounds (points : List Point) : Option (Int64 × Int64) → Prop
  | none => points = []
  | some (first, last) => (∃ p ∈ points, p.validTime = first) ∧ (∃ p ∈ points, p.validTime = last) ∧
      ∀ p ∈ points, first ≤ p.validTime ∧ p.validTime ≤ last

namespace IsBounds

variable {l l' : List Point} {o : Option (Int64 × Int64)}

theorem congr (h : IsBounds l o) (hmem : ∀ p, p ∈ l ↔ p ∈ l') : IsBounds l' o := by
  cases o with
  | none =>
    rw [IsBounds] at h ⊢
    refine eq_nil_iff_forall_not_mem.mpr fun p hp => ?_
    rw [← hmem, h] at hp
    cases hp
  | some bounds => simpa only [IsBounds, hmem] using h

/-- Bounds of points are found if there is a point, and they contain it. -/
theorem of_mem (h : IsBounds l o) {p : Point} (hp : p ∈ l) :
    ∃ bounds ∈ o, bounds.1 ≤ p.validTime ∧ p.validTime ≤ bounds.2 := by
  cases o with
  | none =>
    rw [IsBounds] at h
    exact absurd hp (h ▸ not_mem_nil)
  | some bounds => exact ⟨bounds, rfl, h.2.2 p hp⟩

end IsBounds

namespace Segment

variable {s : Segment} (h : s.Ordered)
include h

theorem Ordered.isBounds (p : Block → Bool) :
    IsBounds ((s.blocks.filter p).flatMap Block.points) (s.bounds p) := by
  have hmem : ∀ b ∈ s.blocks.filter p, b ∈ s.blocks := fun b hb => (mem_filter.mp hb).1
  rw [bounds]
  cases hblocks : s.blocks.filter p with
  | nil => rfl
  | cons c rest =>
    rw [hblocks] at hmem
    obtain ⟨hlow, hfirst⟩ := Signed.foldl_least Block.minTime rest c.minTime
    obtain ⟨hhigh, hlast⟩ := Signed.foldl_greatest Block.maxTime rest c.maxTime
    refine ⟨?_, ?_, fun q hq => ?_⟩
    · obtain ⟨b, hb, heq⟩ := mem_map (l := c :: rest).mp hfirst
      exact ⟨_, mem_flatMap.mpr ⟨b, hb, head_mem b.nonempty⟩, heq⟩
    · obtain ⟨b, hb, heq⟩ := mem_map (l := c :: rest).mp hlast
      exact ⟨_, mem_flatMap.mpr ⟨b, hb, getLast_mem b.nonempty⟩, heq⟩
    · obtain ⟨b, hb, hq⟩ := mem_flatMap.mp hq
      obtain ⟨hmin, hmax⟩ := time_bounds (h b (hmem b hb)).1 hq
      exact ⟨Std.le_trans (hlow _ (mem_map_of_mem (f := Block.minTime) hb)) hmin,
        Std.le_trans hmax (hhigh _ (mem_map_of_mem (f := Block.maxTime) hb))⟩

/-- The blocks of a series hold its points. -/
theorem Ordered.flatMap_series (seriesId : UInt64) :
    (s.blocks.filter fun b => decide (b.seriesId = seriesId)).flatMap Block.points =
      s.points.filter (ofSeries seriesId) := by
  rw [Ordered] at h
  rw [points]
  generalize s.blocks = blocks at h
  induction blocks with
  | nil => rfl
  | cons b blocks ih =>
    obtain ⟨⟨-, hseries⟩, hrest⟩ := forall_mem_cons.mp h
    rw [flatMap_cons, filter_append, ← ih hrest, filter_cons]
    by_cases hid : b.seriesId = seriesId
    · have hall : b.points.filter (ofSeries seriesId) = b.points :=
        filter_eq_self.mpr fun p hp => decide_eq_true ((hseries p hp).trans hid)
      rw [if_pos (decide_eq_true hid), flatMap_cons, hall]
    · have hnone : b.points.filter (ofSeries seriesId) = [] :=
        filter_eq_nil_iff.mpr fun p hp hp' =>
          hid ((hseries p hp).symm.trans (of_decide_eq_true hp'))
      rw [if_neg (by simpa using hid), hnone, nil_append]

theorem Ordered.seriesBounds (seriesId : UInt64) :
    IsBounds (s.points.filter (ofSeries seriesId)) (s.seriesBounds seriesId) := by
  rw [← h.flatMap_series]
  exact h.isBounds _

end Segment

/-! ## Answers -/

namespace Database

/-- The points of one series as the handle stores them, the sealed ones first. -/
def rawSeries (db : Database) (seriesId : UInt64) : List Point :=
  (db.sealed.flatMap Segment.points).filter (ofSeries seriesId) ++ db.index.seriesPoints seriesId

/-- What the queries rely on. -/
structure InOrder (db : Database) : Prop where
  sealed : ∀ s ∈ db.sealed, s.Ordered
  live : ∀ seriesId, Sorted byValidTime (db.index.seriesPoints seriesId)

variable {db : Database}

theorem InOrder.collectRawPoints_eq (h : db.InOrder) (seriesId : UInt64)
    (start stop : Int64) : db.collectRawPoints seriesId start stop =
      (stableSort byHistory (db.rawSeries seriesId)).filter (inRange start stop) := by
  have hsealed : ∀ segments : List Segment, (∀ s ∈ segments, s.Ordered) →
      ((segments.filter fun s => s.overlaps seriesId start stop).flatMap
        fun s => s.query seriesId start stop) =
      ((segments.flatMap Segment.points).filter (ofSeries seriesId)).filter
        (inRange start stop) := by
    intro segments hsegments
    induction segments with
    | nil => rfl
    | cons s segments ih =>
      obtain ⟨hs, hrest⟩ := forall_mem_cons.mp hsegments
      have hquery := hs.query_eq seriesId start stop
      rw [flatMap_cons, filter_append, filter_append, ← ih hrest, filter_filter,
        filter_cons]
      cases hoverlaps : s.overlaps seriesId start stop with
      | false =>
        rw [Segment.query_of_not_overlaps hoverlaps] at hquery
        simp only [Bool.and_comm] at hquery ⊢
        simp [← hquery]
      | true =>
        rw [if_pos rfl, flatMap_cons, hquery]
        simp only [Bool.and_comm]
  rw [collectRawPoints, hsealed _ h.sealed, seriesTimeSlice_eq_filter (h.live seriesId),
    ← filter_append, stableSort_filter byHistory_preorder, rawSeries]

theorem mem_of_mem_foldl_pushWinner {prefer : Point → Point → Bool} {l winners : List Point}
    {p : Point} (hp : p ∈ l.foldl (pushWinner prefer) winners) : p ∈ winners ∨ p ∈ l := by
  induction l generalizing winners with
  | nil => exact .inl hp
  | cons q l ih =>
    have hpush : ∀ p ∈ pushWinner prefer winners q, p ∈ winners ∨ p = q := by
      intro p hp
      rw [pushWinner] at hp
      split at hp
      · exact .inr (mem_singleton.mp hp)
      · split at hp
        · split at hp
          · rcases mem_append.mp hp with hp | hp
            · exact .inl ((dropLast_sublist _).subset hp)
            · exact .inr (mem_singleton.mp hp)
          · exact .inl hp
        · rcases mem_append.mp hp with hp | hp
          · exact .inl hp
          · exact .inr (mem_singleton.mp hp)
    rcases ih hp with hmem | hmem
    · rcases hpush p hmem with hold | rfl
      · exact .inl hold
      · exact .inr mem_cons_self
    · exact .inr (mem_cons_of_mem _ hmem)

theorem inRange_of_mem_queryLatest {seriesId : UInt64} {start stop : Int64}
    {p : Point} (hp : p ∈ db.queryLatest seriesId start stop) : inRange start stop p = true := by
  rw [queryLatest, queryWithCutoffs, winningRevisions] at hp
  have hsorted : Sorted byValidTime (db.collectRawPoints seriesId start stop) :=
    (sorted_stableSort byHistory_preorder _).imp le_of_lex
  rw [seriesTimeSlice_eq_filter hsorted] at hp
  rcases mem_of_mem_foldl_pushWinner hp with hnil | hmem
  · cases hnil
  · exact (mem_filter.mp (mem_filter.mp hmem).1).2

/-- The answers of a handle that holds the history `points`, given in the order
of the commits. -/
structure Answers (db : Database) (points : List Point) : Prop where
  history : ∀ seriesId start stop, db.queryHistory seriesId start stop =
    stableSort byHistory (points.filter fun p => ofSeries seriesId p && inRange start stop p)
  cutoffs : ∀ seriesId start stop knowledge change, Winners byRevision
    (points.filter fun p => ofSeries seriesId p && inRange start stop p &&
      withinCutoffs knowledge change p)
    (db.queryWithCutoffs seriesId start stop knowledge change)
  latest : ∀ seriesId start stop, Winners byRevision
    (points.filter fun p => ofSeries seriesId p && inRange start stop p)
    (db.queryLatest seriesId start stop)
  asOf : ∀ seriesId start stop time, Winners byRevision
    (points.filter fun p => ofSeries seriesId p && inRange start stop p &&
      withinCutoffs (some time) (some time) p)
    (db.queryAsOf seriesId start stop time)
  run : ∀ seriesId runId start stop, Winners (lex byChangeTime byKnowledgeTime)
    (points.filter fun p => ofSeries seriesId p && inRange start stop p && ofRun runId p)
    (db.queryRun seriesId runId start stop)

/-- Among points of one valid time the order of a history is that of revisions. -/
theorem byHistory_of_same {a b : Point} (h : a.validTime = b.validTime) :
    byHistory a b = byRevision a b := by
  have htimes : byValidTime a b = true ∧ byValidTime b a = true := by
    simp only [byValidTime, h, decide_eq_true_eq, and_self]
    exact Std.le_refl _
  simp [byHistory, lex, htimes]

theorem lex_byRevision_of_same {a b : Point} (h : a.validTime = b.validTime) :
    lex byRevision byHistory a b = byRevision a b := by
  rw [lex, byHistory_of_same h]
  cases byRevision a b <;> simp

theorem lex_byChangeTime_of_same {a b : Point} (h : a.validTime = b.validTime) :
    lex byChangeTime byHistory a b = lex byChangeTime byKnowledgeTime a b := by
  rw [lex, lex, byHistory_of_same h, byRevision, lex]
  cases byChangeTime a b <;> simp

theorem winners_winningRevisions {le le' : Point → Point → Bool} (hle : TotalPreorder le)
    (hsame : ∀ {a b : Point}, a.validTime = b.validTime → lex le byHistory a b = le' a b)
    {collected candidates : List Point} {start stop : Int64}
    (hcollected : collected = stableSort byHistory candidates)
    (hrange : ∀ p ∈ candidates, inRange start stop p = true) (keep : Point → Bool) :
    Winners le' (candidates.filter keep)
      (winningRevisions collected start stop keep fun candidate current =>
        le current candidate) := by
  have hsorted : Sorted byValidTime collected := by
    rw [hcollected]
    exact (sorted_stableSort byHistory_preorder candidates).imp le_of_lex
  have hall : collected.filter (inRange start stop) = collected := by
    refine filter_eq_self.mpr fun p hp => hrange p ?_
    rwa [hcollected, mem_stableSort] at hp
  rw [winningRevisions, seriesTimeSlice_eq_filter hsorted, hall, hcollected,
    ← stableSort_filter byHistory_preorder]
  have hkept : Sorted byValidTime (stableSort byHistory (candidates.filter keep)) :=
    (sorted_stableSort byHistory_preorder _).imp le_of_lex
  have hfold := Winners.foldl hle hkept
  exact (hfold.of_sorted byHistory_preorder hle).congr hsame

/-- A handle answers from the history it holds, however that is divided between
segments and the live index. -/
theorem InOrder.answers (h : db.InOrder) {points : List Point}
    (hsame : ∀ seriesId, stableSort byHistory (db.rawSeries seriesId) =
      stableSort byHistory (points.filter (ofSeries seriesId))) : db.Answers points := by
  have hcollected : ∀ seriesId start stop, db.collectRawPoints seriesId start stop =
      stableSort byHistory (points.filter fun p =>
        ofSeries seriesId p && inRange start stop p) := by
    intro seriesId start stop
    rw [h.collectRawPoints_eq, hsame, ← stableSort_filter byHistory_preorder, filter_filter]
    simp only [Bool.and_comm]
  have hrange : ∀ seriesId start stop,
      ∀ p ∈ points.filter (fun p => ofSeries seriesId p && inRange start stop p),
        inRange start stop p = true := by
    intro seriesId start stop p hp
    exact (Bool.and_eq_true_iff.mp (mem_filter.mp hp).2).2
  have hcutoffs : ∀ seriesId start stop knowledge change, Winners byRevision
      (points.filter fun p => ofSeries seriesId p && inRange start stop p &&
        withinCutoffs knowledge change p)
      (db.queryWithCutoffs seriesId start stop knowledge change) := by
    intro seriesId start stop knowledge change
    have hwinners := winners_winningRevisions byRevision_preorder lex_byRevision_of_same
      (hcollected seriesId start stop) (hrange seriesId start stop) (withinCutoffs knowledge change)
    rw [filter_filter] at hwinners
    rw [queryWithCutoffs]
    simpa only [Bool.and_comm, Bool.and_assoc] using hwinners
  refine ⟨fun seriesId start stop => ?_, hcutoffs, fun seriesId start stop => ?_,
    fun seriesId start stop time => hcutoffs .., fun seriesId runId start stop => ?_⟩
  · rw [queryHistory, hcollected, stableSort_of_sorted byHistory_preorder
      (sorted_stableSort byHistory_preorder _)]
  · have hlatest := hcutoffs seriesId start stop none none
    rw [queryLatest]
    simpa only [withinCutoffs, Option.all_none, Bool.and_true] using hlatest
  · have hwinners := winners_winningRevisions byChangeTime_preorder lex_byChangeTime_of_same
      (hcollected seriesId start stop) (hrange seriesId start stop) (ofRun runId)
    rw [filter_filter] at hwinners
    rw [queryRun]
    simpa only [Bool.and_comm, Bool.and_assoc] using hwinners

/-- The latest revisions of a series, one for each valid time, of which every query
returns those in its range. -/
theorem Answers.exists_latest {points : List Point} (h : db.Answers points)
    (seriesId : UInt64) : ∃ latest : List Point,
      (latest.Pairwise fun a b => a.validTime < b.validTime) ∧
      ∀ start stop, db.queryLatest seriesId start stop = latest.filter (inRange start stop) := by
  have hsorted : Sorted byValidTime (stableSort byHistory (points.filter (ofSeries seriesId))) :=
    (sorted_stableSort byHistory_preorder _).imp le_of_lex
  have hwinners := ((Winners.foldl byRevision_preorder hsorted).of_sorted byHistory_preorder
    byRevision_preorder).congr lex_byRevision_of_same
  refine ⟨_, hwinners.ascending, fun start stop => ?_⟩
  have hwindow := hwinners.window start stop
  rw [filter_filter] at hwindow
  have hlatest := h.latest seriesId start stop
  simp only [Bool.and_comm] at hlatest
  exact hlatest.unique byRevision_preorder hwindow

end Database

end Ftwdb
