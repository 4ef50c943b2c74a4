import Mathlib.Algebra.Order.BigOperators.Group.List
import Mathlib.Algebra.Order.Ring.Rat
import Ftwdb.Storage.Query
import Ftwdb.Store.Rollup

/-!
# The statistics of an interval

What a bucket is for, said without buckets: the samples of an interval of time,
the stretches in which a value is held between two neighbouring samples, and the
numbers computed from them.  The second part is the arithmetic of the
accumulators: a bucket that has taken in samples and held stretches one after
the other has the sums, extremes and ends of the two lists.
-/

namespace Ftwdb

open Check List Signed

/-! ## Samples and held stretches -/

/-- The exact value of a point. -/
def Point.rat (p : Point) : ℚ := p.value.toRat

/-- The sample of a point. -/
def Point.sample (p : Point) : Sample := ⟨p.validTime, p.rat⟩

/-- The points of a range. -/
def samplesIn (points : List Point) (start stop : Int64) : List Point :=
  points.filter (inRange start stop)

/-- The pairs of `windows(2)`. -/
def neighbours : List Point → List (Point × Point)
  | p :: q :: ps => (p, q) :: neighbours (q :: ps)
  | _ => []

/-- How much of the stretch from `a` to `b` lies between `start` and `stop`. -/
def overlap (a b start stop : Int64) : Int :=
  max 0 (min b.toInt stop.toInt - max a.toInt start.toInt)

/-- Two neighbours, the earlier of which holds its value up to the later. -/
abbrev Hold := Point × Point

namespace Hold

/-- The time that a hold spans. -/
def gap (h : Hold) : Int := h.2.validTime.toInt - h.1.validTime.toInt

/-- How long the hold lies inside an interval. -/
def overlap (start stop : Int64) (h : Hold) : Int :=
  Ftwdb.overlap h.1.validTime h.2.validTime start stop

end Hold

/-- The neighbours close enough for their interval to count. -/
def holds (maxGap : Int64) (points : List Point) : List Hold :=
  (neighbours points).filter fun h => decide (0 < h.gap ∧ h.gap ≤ maxGap.toInt)

/-- The holds that reach into a range. -/
def holdsIn (maxGap : Int64) (points : List Point) (start stop : Int64) : List Hold :=
  (holds maxGap points).filter fun h => decide (0 < h.overlap start stop)

/-- The sample values of an interval and the values held in it. -/
def valuesIn (maxGap : Int64) (points : List Point) (start stop : Int64) : List ℚ :=
  (samplesIn points start stop).map Point.rat ++
    (holdsIn maxGap points start stop).map fun h => h.1.rat

/-- The bucket of an interval, for points in the order of their times. -/
def statistics (maxGap : Int64) (points : List Point) (start stop : Int64) : GaugeBucket where
  start := start
  stop := stop
  count := UInt64.ofNat (samplesIn points start stop).length
  sum := ((samplesIn points start stop).map Point.rat).sum
  min := (valuesIn maxGap points start stop).min?
  max := (valuesIn maxGap points start stop).max?
  first := (samplesIn points start stop).head?.map Point.sample
  last := (samplesIn points start stop).getLast?.map Point.sample
  integralValueMicros := ((holdsIn maxGap points start stop).map fun h =>
    h.1.rat * (h.overlap start stop : ℚ)).sum
  coveredMicros :=
    Int64.ofInt ((holdsIn maxGap points start stop).map (Hold.overlap start stop)).sum

/-! ## Accumulators -/

/-- What a bucket keeps of the values it takes in: `op` of all of them, behind `o`. -/
def mergeWith (op : ℚ → ℚ → ℚ) (o : Option ℚ) (values : List ℚ) : Option ℚ :=
  values.foldl (fun o v => some (o.elim v (op · v))) o

theorem mergeWith_some (op : ℚ → ℚ → ℚ) (a : ℚ) (values : List ℚ) :
    mergeWith op (some a) values = some (values.foldl op a) := by
  induction values generalizing a with
  | nil => rfl
  | cons v values ih => exact ih (op a v)

theorem mergeWith_min (values : List ℚ) : mergeWith (· ⊓ ·) none values = values.min? := by
  cases values with
  | nil => rfl
  | cons v values => exact mergeWith_some _ v values

theorem mergeWith_max (values : List ℚ) : mergeWith (· ⊔ ·) none values = values.max? := by
  cases values with
  | nil => rfl
  | cons v values => exact mergeWith_some _ v values

theorem mergeWith_append (op : ℚ → ℚ → ℚ) (o : Option ℚ) (l r : List ℚ) :
    mergeWith op o (l ++ r) = mergeWith op (mergeWith op o l) r := foldl_append

namespace GaugeBucket

theorem foldl_addSample (b : GaugeBucket) (samples : List Sample) :
    samples.foldl addSample b =
      { b with
        count := b.count + UInt64.ofNat samples.length
        sum := b.sum + (samples.map Sample.value).sum
        min := mergeWith (· ⊓ ·) b.min (samples.map Sample.value)
        max := mergeWith (· ⊔ ·) b.max (samples.map Sample.value)
        first := b.first.or samples.head?
        last := samples.getLast?.or b.last } := by
  induction samples generalizing b with
  | nil => simp [mergeWith]
  | cons s samples ih =>
    rw [foldl_cons, ih]
    have hcount : b.count + 1 + UInt64.ofNat samples.length =
        b.count + UInt64.ofNat (samples.length + 1) := by
      rw [UInt64.ofNat_add, UInt64.add_comm (UInt64.ofNat samples.length), ← UInt64.add_assoc]
      rfl
    have hlast : samples.getLast?.or (some s) = (s :: samples).getLast?.or b.last := by
      rw [getLast?_cons]
      cases samples.getLast? <;> rfl
    simp only [addSample, map_cons, sum_cons, length_cons, mergeWith,
      foldl_cons, head?_cons, hcount, hlast, add_assoc]
    cases b.first <;> simp

theorem foldl_addCoveredInterval (b : GaugeBucket) (stretches : List (ℚ × Int64)) :
    stretches.foldl (fun b h => b.addCoveredInterval h.1 h.2) b =
      { b with
        integralValueMicros :=
          b.integralValueMicros + (stretches.map fun h => h.1 * (h.2.toInt : ℚ)).sum
        coveredMicros := Int64.ofInt (b.coveredMicros.toInt + (stretches.map (·.2.toInt)).sum)
        min := mergeWith (· ⊓ ·) b.min (stretches.map Prod.fst)
        max := mergeWith (· ⊔ ·) b.max (stretches.map Prod.fst) } := by
  induction stretches generalizing b with
  | nil => simp [mergeWith]
  | cons h stretches ih =>
    rw [foldl_cons, ih]
    simp only [addCoveredInterval, map_cons, sum_cons, mergeWith, foldl_cons,
      Int64.ofInt_add, Int64.ofInt_toInt, add_assoc, Int64.add_assoc]

end GaugeBucket

/-! ## Bounds -/

theorem overlap_nonneg (a b start stop : Int64) : 0 ≤ overlap a b start stop := le_max_left _ _

theorem Hold.overlap_nonneg (start stop : Int64) (h : Hold) : 0 ≤ h.overlap start stop :=
  Ftwdb.overlap_nonneg ..

/-- The holds lie one behind the other, so their parts of an interval add up to no
more than the interval.  The sum over what is behind `p` is bounded by the part of
the interval behind `p`. -/
theorem sum_overlap_neighbours {start stop : Int64} {p : Point} {ps : List Point}
    (hsorted : StableSort.Sorted byValidTime (p :: ps)) :
    ((neighbours (p :: ps)).map (Hold.overlap start stop)).sum ≤
      max 0 (stop.toInt - max p.validTime.toInt start.toInt) := by
  induction ps generalizing p with
  | nil => exact le_max_left _ _
  | cons q ps ih =>
    obtain ⟨hp, hrest⟩ := pairwise_cons.mp hsorted
    have hpq := hp q (mem_cons_self ..)
    rw [byValidTime, decide_eq_true_eq, Int64.le_iff_toInt_le] at hpq
    have hbehind := ih hrest
    have hfirst : Hold.overlap start stop (p, q) = max 0
        (min q.validTime.toInt stop.toInt - max p.validTime.toInt start.toInt) := rfl
    rw [neighbours, map_cons, sum_cons, hfirst]
    omega

theorem sum_map_filter_le {α : Type} {f : α → Int} (hf : ∀ a, 0 ≤ f a) (p : α → Bool)
    (l : List α) : ((l.filter p).map f).sum ≤ (l.map f).sum :=
  (List.Sublist.map f filter_sublist).sum_le_sum fun x hx => by
    obtain ⟨a, _, rfl⟩ := mem_map.mp hx
    exact hf a

/-- Held values do not overlap, so they cover no more than the bucket. -/
theorem sum_overlap_le (maxGap : Int64) {points : List Point} {start stop : Int64}
    (hsorted : StableSort.Sorted byValidTime points) (hle : start ≤ stop) :
    ((holdsIn maxGap points start stop).map (Hold.overlap start stop)).sum ≤
      stop.toInt - start.toInt := by
  rw [Int64.le_iff_toInt_le] at hle
  have hall : ((neighbours points).map (Hold.overlap start stop)).sum ≤
      stop.toInt - start.toInt := by
    cases points with
    | nil => exact Int.sub_nonneg.mpr hle
    | cons p ps =>
      have hbehind := @sum_overlap_neighbours start stop p ps hsorted
      omega
  refine le_trans ?_ hall
  exact (sum_map_filter_le (Hold.overlap_nonneg start stop) _ _).trans
    (sum_map_filter_le (Hold.overlap_nonneg start stop) _ _)

/-- A hold outside the interval adds nothing. -/
theorem sum_holdsIn {M : Type} [AddCommMonoid M] {f : Hold → Int → M} (hf : ∀ h, f h 0 = 0)
    (maxGap : Int64) (points : List Point) (start stop : Int64) :
    ((holdsIn maxGap points start stop).map fun h => f h (h.overlap start stop)).sum =
      ((holds maxGap points).map fun h => f h (h.overlap start stop)).sum := by
  rw [holdsIn]
  induction holds maxGap points with
  | nil => rfl
  | cons h hs ih =>
    rw [filter_cons, map_cons, sum_cons, ← ih]
    split
    · rw [map_cons, sum_cons]
    · next hout =>
      have hnonneg := h.overlap_nonneg start stop
      rw [decide_eq_true_eq] at hout
      rw [show h.overlap start stop = 0 by omega, hf, zero_add]

theorem sum_overlap_holdsIn (maxGap : Int64) (points : List Point) (start stop : Int64) :
    ((holdsIn maxGap points start stop).map (Hold.overlap start stop)).sum =
      ((holds maxGap points).map (Hold.overlap start stop)).sum :=
  @sum_holdsIn Int _ (fun _ x => x) (fun _ => rfl) maxGap points start stop

theorem mem_of_mem_neighbours {points : List Point} {h : Hold} (hh : h ∈ neighbours points) :
    h.1 ∈ points ∧ h.2 ∈ points := by
  induction points with
  | nil => cases hh
  | cons p ps ih =>
    cases ps with
    | nil => cases hh
    | cons q ps =>
      rcases mem_cons.mp hh with rfl | hh
      · exact ⟨mem_cons_self .., mem_cons_of_mem _ (mem_cons_self ..)⟩
      · exact ⟨mem_cons_of_mem _ (ih hh).1, mem_cons_of_mem _ (ih hh).2⟩

theorem mem_of_mem_holds {maxGap : Int64} {points : List Point} {h : Hold}
    (hh : h ∈ holds maxGap points) : h.1 ∈ points ∧ h.2 ∈ points :=
  mem_of_mem_neighbours (mem_filter.mp hh).1

/-! ## Validation

The tests of `validate_buckets` hold of the statistics of any interval. -/

section Validation

variable {maxGap : Int64} {points : List Point} {start stop : Int64}

theorem sum_overlap_nonneg :
    0 ≤ ((holdsIn maxGap points start stop).map (Hold.overlap start stop)).sum := by
  apply sum_nonneg
  intro x hx
  obtain ⟨h, _, rfl⟩ := mem_map.mp hx
  exact Hold.overlap_nonneg start stop h

/-- The covered time of a bucket, as a number. -/
theorem toInt_coveredMicros (hsorted : StableSort.Sorted byValidTime points) (hle : start ≤ stop)
    (hwidth : stop.toInt - start.toInt < 2 ^ 63) :
    (statistics maxGap points start stop).coveredMicros.toInt =
      ((holdsIn maxGap points start stop).map (Hold.overlap start stop)).sum := by
  have hupper := sum_overlap_le maxGap hsorted hle
  have hlower := @sum_overlap_nonneg maxGap points start stop
  exact Int64.toInt_ofInt_of_le (by omega) (by omega)

theorem toNat_count (hlength : points.length < 2 ^ 64) :
    (statistics maxGap points start stop).count.toNat = (samplesIn points start stop).length :=
  UInt64.toNat_ofNat_of_lt' (lt_of_le_of_lt (length_filter_le ..) hlength)

theorem count_pos_iff (hlength : points.length < 2 ^ 64) :
    0 < (statistics maxGap points start stop).count ↔ samplesIn points start stop ≠ [] := by
  rw [UInt64.lt_iff_toNat_lt, toNat_count hlength]
  exact length_pos_iff

/-- A hold counts in an interval only with a positive part. -/
theorem sum_overlap_pos_iff :
    0 < ((holdsIn maxGap points start stop).map (Hold.overlap start stop)).sum ↔
      holdsIn maxGap points start stop ≠ [] := by
  constructor
  · rintro hpos hnil
    rw [hnil] at hpos
    exact lt_irrefl 0 hpos
  · intro hne
    obtain ⟨h, hh⟩ := exists_mem_of_ne_nil _ hne
    have hpos : 0 < h.overlap start stop := of_decide_eq_true (mem_filter.mp hh).2
    refine lt_of_lt_of_le hpos (single_le_sum ?_ _ (mem_map_of_mem hh))
    intro x hx
    obtain ⟨h', _, rfl⟩ := mem_map.mp hx
    exact Hold.overlap_nonneg start stop h'

theorem valuesIn_ne_nil : valuesIn maxGap points start stop ≠ [] ↔
    samplesIn points start stop ≠ [] ∨ holdsIn maxGap points start stop ≠ [] := by
  rw [valuesIn, ne_eq, append_eq_nil_iff, map_eq_nil_iff, map_eq_nil_iff,
    not_and_or]

theorem mem_valuesIn_of_mem_samplesIn {p : Point} (hp : p ∈ samplesIn points start stop) :
    p.rat ∈ valuesIn maxGap points start stop :=
  mem_append_left _ (mem_map_of_mem hp)

theorem first_eq_some {first : Sample}
    (h : (statistics maxGap points start stop).first = some first) :
    ∃ p ps, samplesIn points start stop = p :: ps ∧ p.sample = first := by
  obtain ⟨p, hp, rfl⟩ := Option.map_eq_some_iff.mp h
  obtain ⟨ps, hps⟩ := head?_eq_some_iff.mp hp
  exact ⟨p, ps, hps, rfl⟩

theorem last_eq_some {last : Sample}
    (h : (statistics maxGap points start stop).last = some last) :
    ∃ ps p, samplesIn points start stop = ps ++ [p] ∧ p.sample = last := by
  obtain ⟨p, hp, rfl⟩ := Option.map_eq_some_iff.mp h
  obtain ⟨ps, hps⟩ := getLast?_eq_some_iff.mp hp
  exact ⟨ps, p, hps, rfl⟩

/-- The aggregates are there exactly for the lists they are computed from. -/
theorem statistics_presence (hsorted : StableSort.Sorted byValidTime points) (hle : start ≤ stop)
    (hwidth : stop.toInt - start.toInt < 2 ^ 63) (hlength : points.length < 2 ^ 64) :
    let b := statistics maxGap points start stop
    b.first.isSome = decide (0 < b.count) ∧ b.last.isSome = decide (0 < b.count) ∧
      b.min.isSome = (decide (0 < b.count) || decide (0 < b.coveredMicros)) ∧
      b.max.isSome = (decide (0 < b.count) || decide (0 < b.coveredMicros)) := by
  intro b
  have hvalues : (decide (0 < b.count) || decide (0 < b.coveredMicros)) = true ↔
      valuesIn maxGap points start stop ≠ [] := by
    have hcovered : 0 < b.coveredMicros ↔ holdsIn maxGap points start stop ≠ [] := by
      rw [Int64.lt_iff_toInt_lt, toInt_coveredMicros hsorted hle hwidth]
      exact sum_overlap_pos_iff
    rw [Bool.or_eq_true, decide_eq_true_eq, decide_eq_true_eq, valuesIn_ne_nil,
      count_pos_iff hlength, hcovered]
  refine ⟨?_, ?_, ?_, ?_⟩
  · rw [Bool.eq_iff_iff, decide_eq_true_eq, count_pos_iff hlength, ← isSome_head?]
    simp [b, statistics]
  · rw [Bool.eq_iff_iff, decide_eq_true_eq, count_pos_iff hlength]
    simp [b, statistics]
  · rw [Bool.eq_iff_iff, hvalues]
    exact isSome_min?_iff
  · rw [Bool.eq_iff_iff, hvalues]
    exact isSome_max?_iff

/-- The samples at the ends lie in the interval, in order, with values in range. -/
theorem statistics_samples (hsorted : StableSort.Sorted byValidTime points)
    (hlength : points.length < 2 ^ 64) {least greatest : ℚ} {first last : Sample}
    (hmin : (statistics maxGap points start stop).min = some least)
    (hmax : (statistics maxGap points start stop).max = some greatest)
    (hfirst : (statistics maxGap points start stop).first = some first)
    (hlast : (statistics maxGap points start stop).last = some last) :
    ¬ (first.timestamp < start ∨ stop ≤ first.timestamp ∨ last.timestamp < start ∨
      stop ≤ last.timestamp ∨ last.timestamp < first.timestamp ∨ first.value < least ∨
      greatest < first.value ∨ last.value < least ∨ greatest < last.value ∨
      ((statistics maxGap points start stop).count = 1 ∧ first ≠ last)) := by
  obtain ⟨p, ps, hhead, rfl⟩ := first_eq_some hfirst
  obtain ⟨qs, q, hconcat, rfl⟩ := last_eq_some hlast
  have hp : p ∈ samplesIn points start stop := hhead ▸ mem_cons_self ..
  have hq : q ∈ samplesIn points start stop := hconcat ▸ mem_concat_self
  have hin : ∀ r ∈ samplesIn points start stop, start ≤ r.validTime ∧ r.validTime < stop :=
    fun r hr => of_decide_eq_true (mem_filter.mp hr).2
  have hbetween : ∀ r ∈ samplesIn points start stop, least ≤ r.rat ∧ r.rat ≤ greatest := by
    intro r hr
    have hvalue := @mem_valuesIn_of_mem_samplesIn maxGap points start stop r hr
    exact ⟨(min?_eq_some_iff.mp hmin).2 _ hvalue, (max?_eq_some_iff.mp hmax).2 _ hvalue⟩
  have horder : p.validTime ≤ q.validTime := by
    have hsub : StableSort.Sorted byValidTime (samplesIn points start stop) := hsorted.filter _
    rw [hhead] at hsub
    rw [hhead] at hq
    rcases mem_cons.mp hq with rfl | hq
    · exact Std.le_refl _
    · exact of_decide_eq_true ((pairwise_cons.mp hsub).1 q hq)
  have hsingle : (statistics maxGap points start stop).count = 1 → p.sample = q.sample := by
    intro hone
    have hlen : (samplesIn points start stop).length = 1 := by
      rw [← @toNat_count maxGap points start stop hlength, hone]
      rfl
    rw [hhead, length_cons] at hlen
    obtain rfl : ps = [] := length_eq_zero_iff.mp (by omega)
    rw [hhead, mem_singleton] at hq
    rw [hq]
  simp only [not_or, not_and, Std.not_lt, Std.not_le, ne_eq, not_not]
  exact ⟨(hin p hp).1, (hin p hp).2, (hin q hq).1, (hin q hq).2, horder, (hbetween p hp).1,
    (hbetween p hp).2, (hbetween q hq).1, (hbetween q hq).2, hsingle⟩

/-- A bucket of statistics passes the check of a reader. -/
theorem validateBucket_statistics (hsorted : StableSort.Sorted byValidTime points)
    (hlt : start < stop) (hwidth : stop.toInt - start.toInt < 2 ^ 63)
    (hlength : points.length < 2 ^ 64) {previous : Option GaugeBucket}
    (hprevious : ∀ a ∈ previous, a.stop ≤ start) (offset : Nat) :
    validateBucket previous (statistics maxGap points start stop) offset = .ok () := by
  have hle : start ≤ stop := Std.le_of_lt hlt
  have hcovered := @toInt_coveredMicros maxGap points start stop hsorted hle hwidth
  have hupper := sum_overlap_le maxGap hsorted hle
  have hlower := @sum_overlap_nonneg maxGap points start stop
  obtain ⟨hfirst, hlast, hmin, hmax⟩ :=
    @statistics_presence maxGap points start stop hsorted hle hwidth hlength
  obtain ⟨duration, hduration⟩ : ∃ d, checkedSub stop start = some d := by
    have hint := Int64.lt_iff_toInt_lt.mp hlt
    refine ⟨Int64.ofInt (stop.toInt - start.toInt), checkedSub_eq_some.mpr ?_⟩
    exact Int64.toInt_ofInt_of_le (by omega) hwidth
  rw [validateBucket, show (statistics maxGap points start stop).stop = stop from rfl,
    show (statistics maxGap points start stop).start = start from rfl, hduration]
  refine bind_eq_ok.mpr ⟨(), failIf_eq_ok.mpr ?_, bind_eq_ok.mpr ⟨(), failIf_eq_ok.mpr ?_,
    bind_eq_ok.mpr ⟨duration, rfl, bind_eq_ok.mpr ⟨(), failIf_eq_ok.mpr ?_,
      bind_eq_ok.mpr ⟨(), failIf_eq_ok.mpr ?_, ?_⟩⟩⟩⟩⟩
  · rw [not_or, Std.not_le, Std.not_lt, Int64.le_iff_toInt_le, hcovered]
    exact ⟨hlt, hlower⟩
  · cases previous with
    | none => simp
    | some a => simpa using hprevious a rfl
  · simp [hfirst, hlast, hmin, hmax]
  · rw [Std.not_lt, Int64.le_iff_toInt_le, hcovered, checkedSub_eq_some.mp hduration]
    exact hupper
  · split
    · next least greatest hmin' hmax' =>
      refine bind_eq_ok.mpr ⟨(), failIf_eq_ok.mpr ?_, ?_⟩
      · obtain ⟨hmem, hbelow⟩ := min?_eq_some_iff.mp hmin'
        exact not_lt.mpr (hbelow _ (max?_eq_some_iff.mp hmax').1)
      · split
        · next first last hfirst' hlast' =>
          exact failIf_eq_ok.mpr (statistics_samples hsorted hlength hmin' hmax' hfirst' hlast')
        · rfl
    · rfl

end Validation

end Ftwdb
