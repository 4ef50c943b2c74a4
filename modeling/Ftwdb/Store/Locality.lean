import Ftwdb.Store.FixedRollup
import Ftwdb.Store.Maintain

/-!
# Materializing a part of a history

A query materializes only the points in a window around its range.  A bucket
inside the range depends on the samples in it and on the pairs of neighbours
that hold a value in it.  Such a pair lies in the window with both its members,
and a pair at an edge of the window is too wide or too far away to count, so the
window gives the buckets of the whole history.
-/

namespace Ftwdb

open Check List Signed StableSort

/-! ## Windows -/

section Window

variable {g : Int64} {points : List Point} {a b s e : Int64}

/-- The pair holds a value between `s` and `e`. -/
def Hold.counts (g s e : Int64) (h : Hold) : Bool :=
  decide (0 < h.overlap s e) && decide (0 < h.gap ∧ h.gap ≤ g.toInt)

theorem holdsIn_eq_filter (g : Int64) (points : List Point) (s e : Int64) :
    holdsIn g points s e = (neighbours points).filter (Hold.counts g s e) := by
  rw [holdsIn, holds, filter_filter]
  rfl

/-- The points outside `a` to `b` are more than `g` away from `s` to `e`. -/
structure Window (g : Int64) (points : List Point) (a b s e : Int64) : Prop where
  before : ∀ p ∈ points, p.validTime < a → p.validTime.toInt + g.toInt < s.toInt
  behind : ∀ p ∈ points, b ≤ p.validTime → e.toInt + g.toInt ≤ p.validTime.toInt

theorem Window.of_le (points : List Point) (hs : a.toInt + g.toInt ≤ s.toInt)
    (he : e.toInt + g.toInt ≤ b.toInt) : Window g points a b s e where
  before p _ hp := by
    rw [Int64.lt_iff_toInt_lt] at hp
    omega
  behind p _ hp := by
    rw [Int64.le_iff_toInt_le] at hp
    omega

/-- A part of the interval. -/
theorem Window.part {s' e' : Int64} (h : Window g points a b s e) (hs : s.toInt ≤ s'.toInt)
    (he : e'.toInt ≤ e.toInt) : Window g points a b s' e' where
  before p hp hlt := lt_of_lt_of_le (h.before p hp hlt) hs
  behind p hp hle := by
    have hfar := h.behind p hp hle
    omega

theorem Window.tail {p : Point} (h : Window g (p :: points) a b s e) : Window g points a b s e :=
  ⟨fun q hq => h.before q (mem_cons_of_mem _ hq),
    fun q hq => h.behind q (mem_cons_of_mem _ hq)⟩

/-- A window keeps the holds of its interval.  A pair with a member outside is wider
than `g`, or has no part in the interval. -/
theorem holdsIn_window (hsorted : Sorted byValidTime points) (hwindow : Window g points a b s e)
    (hg : 0 ≤ g.toInt) : holdsIn g (points.filter (inRange a b)) s e = holdsIn g points s e := by
  rw [holdsIn_eq_filter, holdsIn_eq_filter]
  have hout : ∀ {points : List Point}, Window g points a b s e → ∀ p ∈ points, ∀ q ∈ points,
      p.validTime.toInt ≤ q.validTime.toInt →
      ¬ (inRange a b p = true ∧ inRange a b q = true) → ¬ Hold.counts g s e (p, q) = true := by
    intro points hwindow p hp q hq hpq houtside
    have hgap : Hold.gap (p, q) = q.validTime.toInt - p.validTime.toInt := rfl
    have hoverlap : Hold.overlap s e (p, q) = max 0
        (min q.validTime.toInt e.toInt - max p.validTime.toInt s.toInt) := rfl
    have hfirst := hwindow.before p hp
    have hfirst' := hwindow.before q hq
    have hlast := hwindow.behind q hq
    have hlast' := hwindow.behind p hp
    rw [Int64.lt_iff_toInt_lt] at hfirst hfirst'
    rw [Int64.le_iff_toInt_le] at hlast hlast'
    rw [inRange, inRange, decide_eq_true_eq, decide_eq_true_eq, Int64.le_iff_toInt_le,
      Int64.lt_iff_toInt_lt, Int64.le_iff_toInt_le, Int64.lt_iff_toInt_lt] at houtside
    rw [Hold.counts, Bool.and_eq_true, decide_eq_true_eq, decide_eq_true_eq, hgap, hoverlap]
    omega
  induction points with
  | nil => rfl
  | cons p ps ih =>
    cases ps with
    | nil =>
      rw [filter_cons]
      split <;> rfl
    | cons q ps =>
      obtain ⟨hp, hrest⟩ := pairwise_cons.mp hsorted
      have hpq : p.validTime.toInt ≤ q.validTime.toInt :=
        Int64.le_iff_toInt_le.mp (of_decide_eq_true (hp q (mem_cons_self ..)))
      have hpair := hout hwindow p mem_cons_self q
        (mem_cons_of_mem _ mem_cons_self) hpq
      rw [neighbours, filter_cons]
      by_cases hpin : inRange a b p = true
      · by_cases hqin : inRange a b q = true
        · rw [if_pos hpin, filter_cons_of_pos hqin, neighbours, filter_cons,
            filter_cons, ← ih hrest hwindow.tail, filter_cons_of_pos hqin]
        · -- the window ends between the two, so nothing of it is left
          have hnone : (q :: ps).filter (inRange a b) = [] := by
            rw [filter_eq_nil_iff]
            intro r hr
            have hqr : q.validTime.toInt ≤ r.validTime.toInt := by
              rcases mem_cons.mp hr with rfl | hr
              · exact le_rfl
              · exact Int64.le_iff_toInt_le.mp
                  (of_decide_eq_true ((pairwise_cons.mp hrest).1 r hr))
            rw [inRange, decide_eq_true_eq, Int64.le_iff_toInt_le, Int64.lt_iff_toInt_lt]
              at hpin hqin ⊢
            omega
          rw [if_pos hpin, filter_cons_of_neg (hpair fun h => hqin h.2),
            ← ih hrest hwindow.tail, hnone]
          rfl
      · rw [if_neg hpin, filter_cons_of_neg (hpair fun h => hpin h.1),
          ih hrest hwindow.tail]

theorem samplesIn_window (hwindow : Window g points a b s e) (hg : 0 ≤ g.toInt) :
    samplesIn (points.filter (inRange a b)) s e = samplesIn points s e := by
  rw [samplesIn, samplesIn, filter_filter]
  refine filter_congr fun p hp => ?_
  have hbefore := hwindow.before p hp
  have hbehind := hwindow.behind p hp
  rw [Int64.lt_iff_toInt_lt] at hbefore
  rw [Int64.le_iff_toInt_le] at hbehind
  rw [Bool.eq_iff_iff, Bool.and_eq_true, inRange, inRange, decide_eq_true_eq, decide_eq_true_eq,
    Int64.le_iff_toInt_le, Int64.lt_iff_toInt_lt, Int64.le_iff_toInt_le, Int64.lt_iff_toInt_lt]
  omega

theorem statistics_window (hsorted : Sorted byValidTime points)
    (hwindow : Window g points a b s e) (hg : 0 ≤ g.toInt) :
    statistics g (points.filter (inRange a b)) s e = statistics g points s e := by
  simp only [statistics, valuesIn, samplesIn_window hwindow hg, holdsIn_window hsorted hwindow hg]

end Window

/-! ## Lists of buckets -/

/-- Two lists of buckets in the order of their starts are equal if they have the same
members. -/
theorem eq_of_ordered {l l' : List GaugeBucket} (hl : l.Pairwise fun a b => a.start < b.start)
    (hl' : l'.Pairwise fun a b => a.start < b.start) (hmem : ∀ b, b ∈ l ↔ b ∈ l') : l = l' :=
  eq_of_strict hl hl' hmem (fun _ => Std.lt_irrefl) Std.lt_trans

/-- The buckets inside a range. -/
def inside (start stop : Int64) (b : GaugeBucket) : Bool := decide (start ≤ b.start ∧ b.stop ≤ stop)

/-- No bucket of the rule lies on both sides of the instant. -/
def Boundary (bounds : Int64 → Except Error (Int64 × Int64)) (t : Int64) : Prop :=
  ∀ s e, Cell bounds s e → ¬ (s < t ∧ t < e)

theorem inside_iff {start stop : Int64} {b : GaugeBucket} :
    inside start stop b = true ↔
      start.toInt ≤ b.start.toInt ∧ b.stop.toInt ≤ stop.toInt := by
  rw [inside, decide_eq_true_eq, Int64.le_iff_toInt_le, Int64.le_iff_toInt_le]

section Ranges

variable {bounds : Int64 → Except Error (Int64 × Int64)} {g : Int64} {points : List Point}
  {all part : List GaugeBucket} {start stop : Int64}

/-- The window of a range has the buckets of the whole history inside the range. -/
theorem Rolled.window {a b : Int64} (hall : Rolled bounds g points all)
    (hsorted : Sorted byValidTime points)
    (hpart : Rolled bounds g (points.filter (inRange a b)) part)
    (hwindow : Window g points a b start stop) (hg : 0 ≤ g.toInt) :
    part.filter (inside start stop) = all.filter (inside start stop) := by
  have hsame : ∀ {s e : Int64}, start.toInt ≤ s.toInt ∧ e.toInt ≤ stop.toInt →
      statistics g (points.filter (inRange a b)) s e = statistics g points s e ∧
      samplesIn (points.filter (inRange a b)) s e = samplesIn points s e ∧
      holdsIn g (points.filter (inRange a b)) s e = holdsIn g points s e := by
    rintro s e ⟨hs, he⟩
    have hcell := hwindow.part hs he
    exact ⟨statistics_window hsorted hcell hg, samplesIn_window hcell hg,
      holdsIn_window hsorted hcell hg⟩
  refine eq_of_ordered (hpart.ordered.filter _) (hall.ordered.filter _) fun bucket => ?_
  rw [mem_filter, mem_filter, inside_iff]
  refine and_congr_left fun hin => ?_
  obtain ⟨hstatistics, hsamples, hholds⟩ := hsame hin
  constructor
  · intro hmem
    obtain ⟨hcell, hne, heq⟩ := hpart.of_mem hmem
    rw [hsamples, hholds] at hne
    rw [heq, hstatistics]
    exact hall.mem_of_cell hcell hne
  · intro hmem
    obtain ⟨hcell, hne, heq⟩ := hall.of_mem hmem
    rw [← hsamples, ← hholds] at hne
    rw [heq, ← hstatistics]
    exact hpart.mem_of_cell hcell hne

/-- A boundary divides the buckets of a range. -/
theorem Rolled.split {mid : Int64} (hall : Rolled bounds g points all) (htiling : Tiling bounds)
    (hmid : Boundary bounds mid) (hstart : start ≤ mid) (hstop : mid ≤ stop) :
    all.filter (inside start stop) =
      all.filter (inside start mid) ++ all.filter (inside mid stop) := by
  rw [Int64.le_iff_toInt_le] at hstart hstop
  have hlt : ∀ b ∈ all, b.start.toInt < b.stop.toInt := fun b hb =>
    Int64.lt_iff_toInt_lt.mp (htiling.lt (hall.of_mem hb).1)
  refine eq_of_ordered (hall.ordered.filter _) ?_ fun b => ?_
  · refine pairwise_append.mpr ⟨hall.ordered.filter _, hall.ordered.filter _, ?_⟩
    intro b hb b' hb'
    obtain ⟨hmem, hin⟩ := mem_filter.mp hb
    have hin' := (mem_filter.mp hb').2
    have hwidth := hlt b hmem
    rw [inside_iff] at hin hin'
    rw [Int64.lt_iff_toInt_lt]
    omega
  · rw [mem_append, mem_filter, mem_filter, mem_filter, ← and_or_left]
    refine and_congr_right fun hb => ?_
    have hwidth := hlt b hb
    have hboundary := hmid _ _ (hall.of_mem hb).1
    rw [Int64.lt_iff_toInt_lt, Int64.lt_iff_toInt_lt] at hboundary
    rw [inside_iff, inside_iff, inside_iff]
    omega

end Ranges

/-! ## The window of a query -/

section Context

variable {history : List Point} {g start stop : Int64}

/-- The points of the window of a range. -/
def contextOf (history : List Point) (g start stop : Int64) : List Point :=
  history.filter (inRange (saturatingSub start g) (saturatingAdd stop (if 1 ≤ g then g else 1)))

theorem toInt_atLeastOne (g : Int64) : (if 1 ≤ g then g else 1).toInt = max g.toInt 1 := by
  have hint : (1 : Int64).toInt = 1 := rfl
  split
  · next hle =>
    rw [Int64.le_iff_toInt_le] at hle
    omega
  · next hle =>
    rw [Int64.le_iff_toInt_le] at hle
    omega

/-- The window of a range does not saturate. -/
def ContextFits (g start stop : Int64) : Prop :=
  -2 ^ 63 ≤ start.toInt - g.toInt ∧ stop.toInt + max g.toInt 1 < 2 ^ 63

theorem toInt_context {g start stop : Int64} (hpos : 0 ≤ g.toInt)
    (hfits : ContextFits g start stop) :
    (saturatingSub start g).toInt = start.toInt - g.toInt ∧
      (saturatingAdd stop (if 1 ≤ g then g else 1)).toInt = stop.toInt + max g.toInt 1 := by
  have hone := toInt_atLeastOne g
  have hstart := fits_toInt start
  have hstop := fits_toInt stop
  have hg := fits_toInt g
  rw [ContextFits] at hfits
  rw [toInt_saturatingSub, toInt_saturatingAdd, hone]
  omega

/-- The window of a part lies in the window of the whole. -/
theorem contextOf_contextOf {start' stop' : Int64} (hstart : start ≤ start')
    (hstop : stop' ≤ stop) :
    contextOf (contextOf history g start stop) g start' stop' =
      contextOf history g start' stop' := by
  rw [contextOf, contextOf, contextOf, filter_filter]
  refine filter_congr fun p _ => ?_
  rw [Int64.le_iff_toInt_le] at hstart hstop
  rw [Bool.eq_iff_iff]
  simp only [inRange, Int64.le_iff_toInt_le, Int64.lt_iff_toInt_lt, toInt_saturatingSub,
    toInt_saturatingAdd, Bool.and_eq_true, decide_eq_true_eq]
  omega

/-- The points of a range are a window in those of a wider one, even where the ends
saturate: what lies at the very end of the line is in neither. -/
theorem window_contextOf {start' stop' : Int64} (hg : 0 ≤ g.toInt) (hstop : stop ≤ stop')
    {points : List Point} (hpoints : ∀ p ∈ points, p ∈ contextOf history g start' stop') :
    Window g points (saturatingSub start g) (saturatingAdd stop (if 1 ≤ g then g else 1)) start
      stop := by
  have hone := toInt_atLeastOne g
  have hrange := fits_toInt start
  rw [Int64.le_iff_toInt_le] at hstop
  constructor
  · intro p _ hp
    have hfits := fits_toInt p.validTime
    rw [Int64.lt_iff_toInt_lt, toInt_saturatingSub] at hp
    omega
  · intro p hmem hp
    have hin := (of_decide_eq_true (mem_filter.mp (hpoints p hmem)).2).2
    rw [Int64.lt_iff_toInt_lt, toInt_saturatingAdd, hone] at hin
    rw [Int64.le_iff_toInt_le, toInt_saturatingAdd, hone] at hp
    omega

end Context

/-! ## Raw answers -/

section Raw

variable [Jiff]

/-- How the bucket of an instant is found at a resolution. -/
def RollupResolution.bounds : RollupResolution → Int64 → Except Error (Int64 × Int64)
  | .fixedMicros micros => fixedBounds micros
  | .calendar unit zone => fun t => calendarBucketBounds t unit zone

/-- The buckets of the calendar tile the line.  Those of a fixed width do so anyway. -/
def RollupResolution.Tiles : RollupResolution → Prop
  | .fixedMicros _ => True
  | .calendar unit zone => Tiling fun t => calendarBucketBounds t unit zone

theorem materialize_eq_ok {points : List Point} {resolution : RollupResolution} {g : Int64}
    {buckets : List GaugeBucket} (htiles : resolution.Tiles)
    (h : materialize points resolution g = .ok buckets) :
    0 ≤ g.toInt ∧ Tiling resolution.bounds ∧
      Rolled resolution.bounds g (stableSort byValidTime points) buckets := by
  cases resolution with
  | fixedMicros micros =>
    obtain ⟨_, _, hrest⟩ := bind_eq_ok.mp h
    obtain ⟨hr, hg, hrolled⟩ := fixedGaugeRollup_eq_ok hrest
    exact ⟨hg, fixed_tiling hr, hrolled⟩
  | calendar unit zone =>
    obtain ⟨_, hg, hrest⟩ := bind_eq_ok.mp h
    obtain ⟨_, _, hrest⟩ := bind_eq_ok.mp hrest
    rw [failIf_eq_ok, Std.not_lt, Int64.le_iff_toInt_le] at hg
    exact ⟨hg, htiles, @BucketRule.build_eq_ok _ _ (calendarRule unit zone) htiles _ hrest⟩

/-- `materialize_raw_range` on the latest revisions of a series. -/
def rawRange (history : List Point) (resolution : RollupResolution) (g start stop : Int64) :
    Except Error (List GaugeBucket) := do
  let buckets ← materialize (contextOf history g start stop) resolution g
  .ok (buckets.filter (inside start stop))

theorem Store.materializeRawRange_eq {s : Store} {seriesId : UInt64} {history : List Point}
    (hlatest : ∀ start stop,
      s.database.queryLatest seriesId start stop = history.filter (inRange start stop))
    (start stop : Int64) (resolution : RollupResolution) (g : Int64) :
    s.materializeRawRange seriesId start stop resolution g =
      rawRange history resolution g start stop := by
  rw [materializeRawRange, rawRange, contextOf, hlatest]
  rfl

variable {history : List Point} {resolution : RollupResolution} {g start stop : Int64}

/-- A raw answer is the part of any longer history that is materialized. -/
theorem rawRange_eq_filter (htiles : resolution.Tiles) (hfits : ContextFits g start stop)
    {all part : List GaugeBucket} (hall : materialize history resolution g = .ok all)
    (hpart : rawRange history resolution g start stop = .ok part) :
    part = all.filter (inside start stop) := by
  obtain ⟨buckets, hbuckets, hrest⟩ := bind_eq_ok.mp hpart
  injection hrest with hrest
  obtain ⟨hg, -, hrolled⟩ := materialize_eq_ok htiles hall
  obtain ⟨-, -, hwindow⟩ := materialize_eq_ok htiles hbuckets
  obtain ⟨hlow, hhigh⟩ := toInt_context hg hfits
  rw [contextOf, stableSort_filter byValidTime_preorder] at hwindow
  rw [← hrest]
  exact hrolled.window (sorted_stableSort byValidTime_preorder history) hwindow
    (.of_le _ (by omega) (by omega)) hg

/-- The raw answer of a range is the part of the answer of any wider one. -/
theorem rawRange_of_wider {start' stop' : Int64} (htiles : resolution.Tiles)
    (hstart : start' ≤ start) (hstop : stop ≤ stop') {part whole : List GaugeBucket}
    (hpart : rawRange history resolution g start stop = .ok part)
    (hwhole : rawRange history resolution g start' stop' = .ok whole) :
    part = whole.filter (inside start stop) := by
  obtain ⟨all, hall, hrest⟩ := bind_eq_ok.mp hwhole
  injection hrest with hrest
  rw [rawRange, ← contextOf_contextOf hstart hstop] at hpart
  obtain ⟨buckets, hbuckets, hrest'⟩ := bind_eq_ok.mp hpart
  injection hrest' with hrest'
  obtain ⟨hg, -, hrolled⟩ := materialize_eq_ok htiles hall
  obtain ⟨-, -, hnarrow⟩ := materialize_eq_ok htiles hbuckets
  rw [contextOf, stableSort_filter byValidTime_preorder] at hnarrow
  have hwindow := hrolled.window (sorted_stableSort byValidTime_preorder _) hnarrow
    (window_contextOf hg hstop fun p hp => by rwa [mem_stableSort] at hp) hg
  rw [← hrest', ← hrest, hwindow, filter_filter]
  refine filter_congr fun b _ => ?_
  rw [Int64.le_iff_toInt_le] at hstart hstop
  rw [Bool.eq_iff_iff, Bool.and_eq_true, inside_iff, inside_iff]
  omega

/-- Raw answers are local, and the answers of adjacent ranges put together are the
answer of their union. -/
theorem raw_materialization_local (htiles : resolution.Tiles)
    (hfits : ContextFits g start stop) :
    (∀ all part, materialize history resolution g = .ok all →
      rawRange history resolution g start stop = .ok part →
      part = all.filter (inside start stop)) ∧
    ∀ mid, Boundary resolution.bounds mid → start ≤ mid → mid ≤ stop →
      ∀ whole left right, rawRange history resolution g start stop = .ok whole →
        rawRange history resolution g start mid = .ok left →
        rawRange history resolution g mid stop = .ok right → whole = left ++ right := by
  refine ⟨fun all part => rawRange_eq_filter htiles hfits, ?_⟩
  intro mid hmid hstart hstop whole left right hwhole hleft hright
  -- the window of the union is a history of which both parts are raw answers
  obtain ⟨buckets, hbuckets, hrest⟩ := bind_eq_ok.mp hwhole
  injection hrest with hrest
  obtain ⟨-, htiling, hrolled⟩ := materialize_eq_ok htiles hbuckets
  have hstart' := Int64.le_iff_toInt_le.mp hstart
  have hstop' := Int64.le_iff_toInt_le.mp hstop
  rw [ContextFits] at hfits
  rw [rawRange, ← contextOf_contextOf (Std.le_refl start) hstop] at hleft
  rw [rawRange, ← contextOf_contextOf hstart (Std.le_refl stop)] at hright
  rw [rawRange_eq_filter htiles ⟨hfits.1, by omega⟩ hbuckets hleft,
    rawRange_eq_filter htiles ⟨by omega, hfits.2⟩ hbuckets hright, ← hrest]
  exact hrolled.split htiling hmid hstart hstop

end Raw

/-- The ends of the buckets of a fixed width. -/
theorem fixed_boundary {r t : Int64} (hr : 0 < r.toInt) {k : ℤ} (ht : t.toInt = k * r.toInt) :
    Boundary (fixedBounds r) t := by
  rintro s e hcell ⟨hs, he⟩
  obtain ⟨n, hstart, hstop⟩ := (fixed_cell_iff hr).mp hcell
  rw [Int64.lt_iff_toInt_lt, ht, hstart] at hs
  rw [Int64.lt_iff_toInt_lt, ht, hstop] at he
  have hlow : n < k := lt_of_mul_lt_mul_right hs hr.le
  have hhigh : k < n + 1 := lt_of_mul_lt_mul_right he hr.le
  omega

theorem raw_materialization_local_twoSamples :
    letI := Jiff.withoutZones
    ∃ whole left right, rawRange twoSamples (.fixedMicros 10) 20 (-10) 10 = .ok whole ∧
      rawRange twoSamples (.fixedMicros 10) 20 (-10) 0 = .ok left ∧
      rawRange twoSamples (.fixedMicros 10) 20 0 10 = .ok right ∧ left.length = 1 ∧
      whole = left ++ right := by
  let _ := Jiff.withoutZones
  obtain ⟨whole, hwhole, -⟩ :
      ∃ whole, rawRange twoSamples (.fixedMicros 10) 20 (-10) 10 = .ok whole ∧
      whole.length = 2 := map_eq_ok.mp (by decide +kernel)
  obtain ⟨left, hleft, hlength⟩ :
      ∃ left, rawRange twoSamples (.fixedMicros 10) 20 (-10) 0 = .ok left ∧
      left.length = 1 := map_eq_ok.mp (by decide +kernel)
  obtain ⟨right, hright, -⟩ : ∃ right, rawRange twoSamples (.fixedMicros 10) 20 0 10 = .ok right ∧
      right.length = 1 := map_eq_ok.mp (by decide +kernel)
  have hmid : Boundary (RollupResolution.bounds (.fixedMicros 10)) 0 :=
    @fixed_boundary 10 0 (by decide) 0 (by decide)
  refine ⟨whole, left, right, hwhole, hleft, hright, hlength, ?_⟩
  have hfits : ContextFits 20 (-10) 10 := ⟨by decide, by decide⟩
  have hlocal := @raw_materialization_local _ twoSamples (.fixedMicros 10) 20 (-10) 10 trivial hfits
  exact hlocal.2 0 hmid (by decide) (by decide) whole left right hwhole hleft hright

end Ftwdb
