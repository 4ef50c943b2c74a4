import Ftwdb.Store.FixedRollup

/-!
# Coarser rollups out of finer ones

The statistics of an interval are the merge of the statistics of its two parts,
wherever it is cut.  So a bucket of a coarser rollup is the merge, from left to
right, of the finer buckets it spans.
-/

namespace Ftwdb

open Check List Signed StableSort

/-! ## The algebra of merging -/

namespace GaugeBucket

/-- The merge of two buckets that meet. -/
def merged (b next : GaugeBucket) : GaugeBucket where
  start := b.start
  stop := next.stop
  count := b.count + next.count
  sum := b.sum + next.sum
  min := optionMin b.min next.min
  max := optionMax b.max next.max
  first := b.first.or next.first
  last := next.last.or b.last
  integralValueMicros := b.integralValueMicros + next.integralValueMicros
  coveredMicros := b.coveredMicros + next.coveredMicros

theorem mergeExact_of_eq {b next : GaugeBucket} (h : b.stop = next.start) :
    b.mergeExact next = .ok (b.merged next) := by
  rw [mergeExact, if_neg (not_not.mpr h)]
  rfl

theorem merged_assoc (a b c : GaugeBucket) : (a.merged b).merged c = a.merged (b.merged c) := by
  simp only [merged, mk.injEq]
  exact ⟨trivial, trivial, UInt64.add_assoc .., add_assoc ..,
    (Option.associative_merge _).assoc .., (Option.associative_merge _).assoc .., Option.or_assoc,
    Option.or_assoc.symm, add_assoc .., Int64.add_assoc ..⟩

/-- Merging is associative where three buckets meet. -/
theorem mergeExact_assoc {a b c : GaugeBucket} (hab : a.stop = b.start) (hbc : b.stop = c.start) :
    (a.mergeExact b).bind (·.mergeExact c) = (b.mergeExact c).bind (a.mergeExact ·) := by
  rw [mergeExact_of_eq hab, mergeExact_of_eq hbc]
  show (a.merged b).mergeExact c = a.mergeExact (b.merged c)
  rw [mergeExact_of_eq (show (a.merged b).stop = c.start from hbc),
    mergeExact_of_eq (show a.stop = (b.merged c).start from hab), merged_assoc]

/-- An empty bucket adds only its bounds. -/
theorem mergeExact_empty_right (a : GaugeBucket) (stop : Int64) :
    a.mergeExact (.empty a.stop stop) = .ok { a with stop := stop } := by
  rw [mergeExact_of_eq rfl]
  simp [merged, empty, optionMin, optionMax]

theorem mergeExact_empty_left (a : GaugeBucket) (start : Int64) :
    (GaugeBucket.empty start a.start).mergeExact a = .ok { a with start := start } := by
  rw [mergeExact_of_eq rfl]
  simp [merged, empty, optionMin, optionMax]

end GaugeBucket

/-! ## Cutting an interval -/

section Cut

variable {maxGap : Int64} {points : List Point} {s m e : Int64}

theorem samplesIn_cut (hsorted : Sorted byValidTime points) (hsm : s ≤ m) (hme : m ≤ e) :
    samplesIn points s e = samplesIn points s m ++ samplesIn points m e := by
  rw [Int64.le_iff_toInt_le] at hsm hme
  have hin : ∀ (s e : Int64) (p : Point), inRange s e p = true ↔
      s.toInt ≤ p.validTime.toInt ∧ p.validTime.toInt < e.toInt := by
    intro s e p
    rw [inRange, decide_eq_true_eq, Int64.le_iff_toInt_le, Int64.lt_iff_toInt_lt]
  induction points with
  | nil => rfl
  | cons p ps ih =>
    obtain ⟨hp, hps⟩ := pairwise_cons.mp hsorted
    have hrest := ih hps
    rw [samplesIn, samplesIn, samplesIn] at hrest ⊢
    by_cases hearly : inRange s m p = true
    · have hfull : inRange s e p = true := by rw [hin] at hearly ⊢; omega
      have hlate : ¬ inRange m e p = true := by rw [hin] at hearly ⊢; omega
      rw [filter_cons_of_pos hfull, filter_cons_of_pos hearly,
        filter_cons_of_neg hlate, hrest, cons_append]
    · by_cases hlate : inRange m e p = true
      · -- behind a sample of the second part there is none of the first
        have hnone : ps.filter (inRange s m) = [] := by
          rw [filter_eq_nil_iff]
          intro q hq
          have hpq := hp q hq
          rw [byValidTime, decide_eq_true_eq, Int64.le_iff_toInt_le] at hpq
          rw [hin] at hlate ⊢
          omega
        have hfull : inRange s e p = true := by rw [hin] at hlate ⊢; omega
        rw [filter_cons_of_pos hfull, filter_cons_of_neg hearly,
          filter_cons_of_pos hlate, hrest, hnone, nil_append, nil_append]
      · have hfull : ¬ inRange s e p = true := by rw [hin] at hearly hlate ⊢; omega
        rw [filter_cons_of_neg hfull, filter_cons_of_neg hearly,
          filter_cons_of_neg hlate, hrest]

theorem overlap_cut (hsm : s ≤ m) (hme : m ≤ e) (h : Hold) :
    h.overlap s e = h.overlap s m + h.overlap m e := by
  rw [Int64.le_iff_toInt_le] at hsm hme
  simp only [Hold.overlap, overlap]
  omega

theorem mem_valuesIn_cut (hsorted : Sorted byValidTime points) (hsm : s ≤ m) (hme : m ≤ e)
    (v : ℚ) : v ∈ valuesIn maxGap points s e ↔
      v ∈ valuesIn maxGap points s m ∨ v ∈ valuesIn maxGap points m e := by
  have hholds : ∀ h, h ∈ holdsIn maxGap points s e ↔
      h ∈ holdsIn maxGap points s m ∨ h ∈ holdsIn maxGap points m e := by
    intro h
    have hcut := overlap_cut hsm hme h
    have hleft := h.overlap_nonneg s m
    have hright := h.overlap_nonneg m e
    simp only [holdsIn, mem_filter, decide_eq_true_eq, ← and_or_left]
    exact and_congr_right fun _ => by omega
  simp only [valuesIn, samplesIn_cut hsorted hsm hme, mem_append, mem_map, hholds]
  grind

/-- The least value of a union. -/
theorem min?_eq_merge {α : Type} [LinearOrder α] {l l₁ l₂ : List α}
    (h : ∀ v, v ∈ l ↔ v ∈ l₁ ∨ v ∈ l₂) : l.min? = Option.merge min l₁.min? l₂.min? := by
  cases h₁ : l₁.min? with
  | none =>
    rw [Option.merge_none_left]
    rw [min?_eq_none_iff] at h₁
    cases h₂ : l₂.min? with
    | none =>
      rw [min?_eq_none_iff] at h₂ ⊢
      exact eq_nil_iff_forall_not_mem.mpr fun v => by simp [h, h₁, h₂]
    | some b =>
      rw [min?_eq_some_iff] at h₂ ⊢
      simpa [h, h₁] using h₂
  | some a =>
    cases h₂ : l₂.min? with
    | none =>
      rw [min?_eq_none_iff] at h₂
      rw [Option.merge_none_right]
      rw [min?_eq_some_iff] at h₁ ⊢
      simpa [h, h₂] using h₁
    | some b =>
      rw [min?_eq_some_iff] at h₁ h₂
      refine min?_eq_some_iff.mpr ⟨?_, fun v hv => ?_⟩
      · rcases min_choice a b with hmin | hmin
        · rw [hmin]
          exact (h a).mpr (.inl h₁.1)
        · rw [hmin]
          exact (h b).mpr (.inr h₂.1)
      · rcases (h v).mp hv with hv | hv
        · exact (min_le_left a b).trans (h₁.2 v hv)
        · exact (min_le_right a b).trans (h₂.2 v hv)

/-- The statistics of an interval are those of its two parts, merged. -/
theorem statistics_cut (hsorted : Sorted byValidTime points) (hsm : s ≤ m) (hme : m ≤ e) :
    statistics maxGap points s e =
      (statistics maxGap points s m).merged (statistics maxGap points m e) := by
  have hsamples := samplesIn_cut hsorted hsm hme
  have hvalues := @mem_valuesIn_cut maxGap points s m e hsorted hsm hme
  have hintegral : ((holdsIn maxGap points s e).map fun h => h.1.rat * (h.overlap s e : ℚ)).sum =
      ((holdsIn maxGap points s m).map fun h => h.1.rat * (h.overlap s m : ℚ)).sum +
        ((holdsIn maxGap points m e).map fun h => h.1.rat * (h.overlap m e : ℚ)).sum := by
    have hzero : ∀ h : Hold, h.1.rat * ((0 : Int) : ℚ) = 0 := fun h => by simp
    rw [@sum_holdsIn ℚ _ (fun h x => h.1.rat * (x : ℚ)) hzero,
      @sum_holdsIn ℚ _ (fun h x => h.1.rat * (x : ℚ)) hzero,
      @sum_holdsIn ℚ _ (fun h x => h.1.rat * (x : ℚ)) hzero, ← sum_map_add]
    refine congrArg List.sum (map_congr_left fun h _ => ?_)
    rw [overlap_cut hsm hme, Int.cast_add, mul_add]
  have hcovered : ((holdsIn maxGap points s e).map (Hold.overlap s e)).sum =
      ((holdsIn maxGap points s m).map (Hold.overlap s m)).sum +
        ((holdsIn maxGap points m e).map (Hold.overlap m e)).sum := by
    rw [sum_overlap_holdsIn, sum_overlap_holdsIn, sum_overlap_holdsIn, ← sum_map_add]
    exact congrArg List.sum (map_congr_left fun h _ => overlap_cut hsm hme h)
  simp only [statistics, GaugeBucket.merged, GaugeBucket.mk.injEq]
  -- the greatest value is the least one of the dual order
  refine ⟨trivial, trivial, ?_, ?_, min?_eq_merge hvalues, @min?_eq_merge ℚᵒᵈ _ _ _ _ hvalues,
    ?_, ?_, hintegral, ?_⟩
  · rw [hsamples, length_append, UInt64.ofNat_add]
  · rw [hsamples, map_append, sum_append]
  · rw [hsamples, head?_append]
    cases (samplesIn points s m).head? <;> rfl
  · rw [hsamples, getLast?_append]
    cases (samplesIn points m e).getLast? <;> rfl
  · rw [hcovered, Int64.ofInt_add]

/-- Consecutive parts, merged from left to right behind the first `j` of them. -/
theorem foldlM_mergeExact (hsorted : Sorted byValidTime points) {bound : Nat → Int64} {n : Nat}
    (hmono : ∀ i < n, bound i ≤ bound (i + 1)) {j len : Nat} (hlen : j + len ≤ n)
    (hstart : bound 0 ≤ bound j) :
    ((List.range' j len).map fun i => statistics maxGap points (bound i) (bound (i + 1))).foldlM
      GaugeBucket.mergeExact (statistics maxGap points (bound 0) (bound j)) =
      .ok (statistics maxGap points (bound 0) (bound (j + len))) := by
  induction len generalizing j with
  | zero => rfl
  | succ len ih =>
    have hnext := hmono j (by omega)
    rw [range'_succ, map_cons, foldlM_cons,
      GaugeBucket.mergeExact_of_eq rfl, ← statistics_cut hsorted hstart hnext,
      show j + (len + 1) = j + 1 + len by omega]
    exact ih (by omega) (Std.le_trans hstart hnext)

end Cut

/-! ## Coarse and fine buckets -/

/-- The bucket at `start`, or an empty one. -/
def fineBucket (fine : List GaugeBucket) (start stop : Int64) : GaugeBucket :=
  (fine.find? fun b => decide (b.start = start)).getD (.empty start stop)

/-- The `i`-th multiple of `r` behind `start`. -/
def fineBound (start r : Int64) (i : Nat) : Int64 := Int64.ofInt (start.toInt + i * r.toInt)

/-- The `k` buckets of width `r` from `start` on. -/
def spanned (fine : List GaugeBucket) (r start : Int64) (k : Nat) : List GaugeBucket :=
  (List.range k).map fun i => fineBucket fine (fineBound start r i) (fineBound start r (i + 1))

theorem statistics_eq_empty {maxGap : Int64} {points : List Point} {s e : Int64}
    (hsamples : samplesIn points s e = []) (hholds : holdsIn maxGap points s e = []) :
    statistics maxGap points s e = .empty s e := by
  simp [statistics, valuesIn, hsamples, hholds, GaugeBucket.empty]

/-- What stands at a cell of a rollup, a missing bucket read as an empty one. -/
theorem fineBucket_eq {bounds : Int64 → Except Error (Int64 × Int64)} {maxGap : Int64}
    {points : List Point} {fine : List GaugeBucket} (h : Rolled bounds maxGap points fine)
    {s e : Int64} (hcell : Cell bounds s e) :
    fineBucket fine s e = statistics maxGap points s e := by
  rw [fineBucket]
  cases hfind : fine.find? fun b => decide (b.start = s) with
  | none =>
    have hnone : ∀ b ∈ fine, b.start ≠ s := by simpa using hfind
    by_contra hne
    have hempty : ¬ (samplesIn points s e ≠ [] ∨ holdsIn maxGap points s e ≠ []) := fun hor =>
      hnone _ (h.mem_of_cell hcell hor) rfl
    rw [not_or, not_not, not_not] at hempty
    exact hne (statistics_eq_empty hempty.1 hempty.2).symm
  | some b =>
    have hb := mem_of_find?_eq_some hfind
    have hstart : b.start = s := by simpa using find?_some hfind
    obtain ⟨hcell', -, heq⟩ := h.of_mem hb
    rw [hstart] at hcell' heq
    rw [Tiling.stop_unique hcell hcell']
    exact heq

section Coarse

variable {points : List Point} {r R g : Int64} {fine coarse : List GaugeBucket} {k : Nat}

/-- The bounds of the fine buckets inside a coarse one. -/
theorem toInt_fineBound (hr : 0 < r.toInt) (hR : R.toInt = k * r.toInt) {s e : Int64}
    (he : e.toInt = s.toInt + R.toInt) {i : Nat} (hi : i ≤ k) :
    (fineBound s r i).toInt = s.toInt + i * r.toInt := by
  have hs := fits_toInt s
  have hfits := fits_toInt e
  have hle : (i : ℤ) * r.toInt ≤ k * r.toInt :=
    Int.mul_le_mul_of_nonneg_right (by exact_mod_cast hi) hr.le
  have hnonneg : 0 ≤ (i : ℤ) * r.toInt := Int.mul_nonneg (Int.natCast_nonneg i) hr.le
  exact Int64.toInt_ofInt_of_le (by omega) (by omega)

theorem fineBound_cell (hr : 0 < r.toInt) (hR : R.toInt = k * r.toInt) {s e : Int64} {n : ℤ}
    (hs : s.toInt = n * R.toInt) (he : e.toInt = s.toInt + R.toInt) {i : Nat} (hi : i < k) :
    Cell (fixedBounds r) (fineBound s r i) (fineBound s r (i + 1)) := by
  refine (fixed_cell_iff hr).mpr ⟨n * k + i, ?_, ?_⟩
  · rw [toInt_fineBound hr hR he hi.le, hs, hR]
    ring
  · rw [toInt_fineBound hr hR he hi, hs, hR]
    push_cast
    ring

/-- A coarse bucket is the merge of the fine buckets it spans. -/
theorem foldlM_spanned (hr : 0 < r.toInt) (hk : 1 ≤ k) (hR : R.toInt = k * r.toInt)
    (hfine : Rolled (fixedBounds r) g (stableSort byValidTime points) fine)
    (hcoarse : Rolled (fixedBounds R) g (stableSort byValidTime points) coarse)
    {b : GaugeBucket} (hb : b ∈ coarse) :
    ∃ first rest, spanned fine r b.start k = first :: rest ∧
      rest.foldlM GaugeBucket.mergeExact first = .ok b := by
  have hRpos : 0 < R.toInt := by
    rw [hR]
    exact Int.mul_pos (by exact_mod_cast hk) hr
  have hsorted : Sorted byValidTime (stableSort byValidTime points) :=
    sorted_stableSort byValidTime_preorder points
  obtain ⟨hcell, -, heq⟩ := hcoarse.of_mem hb
  obtain ⟨hs, he⟩ := (fixedBounds_eq_ok hRpos).mp hcell
  have hbound : ∀ i ≤ k, (fineBound b.start r i).toInt = b.start.toInt + i * r.toInt :=
    fun i hi => toInt_fineBound hr hR he hi
  have hmono : ∀ i < k, fineBound b.start r i ≤ fineBound b.start r (i + 1) := by
    intro i hi
    rw [Int64.le_iff_toInt_le, hbound i hi.le, hbound (i + 1) hi]
    push_cast
    nlinarith
  have hfineEq : spanned fine r b.start k = (List.range k).map fun i =>
      statistics g (stableSort byValidTime points) (fineBound b.start r i)
        (fineBound b.start r (i + 1)) := by
    refine map_congr_left fun i hi => ?_
    exact fineBucket_eq hfine (fineBound_cell hr hR hs he (mem_range.mp hi))
  have hzero : fineBound b.start r 0 = b.start := by
    rw [← Int64.toInt_inj, hbound 0 (by omega)]
    simp
  have hlast : fineBound b.start r k = b.stop := by
    rw [← Int64.toInt_inj, hbound k le_rfl, he, hR]
  obtain ⟨n, rfl⟩ : ∃ n, k = n + 1 := ⟨k - 1, by omega⟩
  rw [range_eq_range', range'_succ, map_cons] at hfineEq
  refine ⟨_, _, hfineEq, ?_⟩
  have hfold := @foldlM_mergeExact g _ hsorted (fineBound b.start r) (n + 1) hmono 1 n (by omega)
    (hmono 0 (by omega))
  rw [show 1 + n = n + 1 by omega, hzero, hlast, ← heq] at hfold
  rw [zero_add, hzero]
  exact hfold

/-- An instant of a coarse bucket lies in one of its fine buckets. -/
theorem exists_fine {r n t : ℤ} (hr : 0 < r) (hlow : n * (k * r) ≤ t)
    (hhigh : t < (n + 1) * (k * r)) :
    ∃ i : Nat, i < k ∧ (n * k + i) * r ≤ t ∧ t < (n * k + i + 1) * r := by
  have hquot := align_bounds (t := t) hr
  have hfrom : n * k ≤ t / r := by
    rw [Int.le_ediv_iff_mul_le hr, Int.mul_assoc]
    exact hlow
  have hto : t / r < (n + 1) * k := by
    rw [Int.ediv_lt_iff_lt_mul hr, Int.mul_assoc]
    exact hhigh
  rw [Int.add_mul, Int.one_mul] at hto
  have hindex : n * k + ((t / r - n * k).toNat : ℤ) = t / r := by omega
  refine ⟨(t / r - n * k).toNat, by omega, ?_⟩
  rw [hindex, Int.add_mul, Int.one_mul]
  exact hquot

theorem fine_inside {r n : ℤ} (hr : 0 < r) {i : Nat} (hi : i < k) :
    n * (k * r) ≤ (n * k + i) * r ∧ (n * k + i + 1) * r ≤ (n + 1) * (k * r) := by
  have hi' : (i : ℤ) + 1 ≤ k := by exact_mod_cast hi
  have hnonneg : (0 : ℤ) ≤ i * r := Int.mul_nonneg (Int.natCast_nonneg i) hr.le
  have hle := Int.mul_le_mul_of_nonneg_right hi' hr.le
  constructor <;> nlinarith

/-- A coarse bucket is there exactly if one of its fine buckets is. -/
theorem coarse_present_iff (hr : 0 < r.toInt) (hR : R.toInt = k * r.toInt)
    (hfine : FixedStatistics points r g fine) (hcoarse : FixedStatistics points R g coarse)
    (n : ℤ) : (∃ b ∈ coarse, b.start.toInt = n * R.toInt) ↔
      ∃ i < k, ∃ b ∈ fine, b.start.toInt = (n * k + i) * r.toInt := by
  rw [hcoarse.present n]
  simp only [hfine.present, hR, Hold.within]
  constructor
  · rintro (⟨p, hp, hin⟩ | ⟨h, hh, hpos⟩)
    · obtain ⟨i, hi, hfrom, hto⟩ := exists_fine hr hin.1 hin.2
      exact ⟨i, hi, .inl ⟨p, hp, hfrom, hto⟩⟩
    · -- the first instant of the hold inside the coarse bucket
      obtain ⟨i, hi, hfrom, hto⟩ := @exists_fine k r.toInt n
        (max h.1.validTime.toInt (n * (k * r.toInt))) hr (by omega) (by omega)
      exact ⟨i, hi, .inr ⟨h, hh, by omega⟩⟩
  · rintro ⟨i, hi, ⟨p, hp, hin⟩ | ⟨h, hh, hpos⟩⟩
    · have hinside := @fine_inside k r.toInt n hr i hi
      exact .inl ⟨p, hp, by omega⟩
    · have hinside := @fine_inside k r.toInt n hr i hi
      exact .inr ⟨h, hh, by omega⟩

/-- A rollup at a multiple of a resolution is the exact coarsening of the finer
rollup, and merging is associative with empty buckets as identities. -/
theorem exact_coarsening (hk : 1 ≤ k) (hR : R.toInt = k * r.toInt)
    (hfine : fixedGaugeRollup points r g = .ok fine)
    (hcoarse : fixedGaugeRollup points R g = .ok coarse) :
    (∀ b ∈ coarse, ∃ first rest, spanned fine r b.start k = first :: rest ∧
      rest.foldlM GaugeBucket.mergeExact first = .ok b) ∧
    (∀ n : ℤ, (∃ b ∈ coarse, b.start.toInt = n * R.toInt) ↔
      ∃ i < k, ∃ b ∈ fine, b.start.toInt = (n * k + i) * r.toInt) ∧
    (∀ a b c : GaugeBucket, a.stop = b.start → b.stop = c.start →
      (a.mergeExact b).bind (·.mergeExact c) = (b.mergeExact c).bind (a.mergeExact ·)) ∧
    (∀ (a : GaugeBucket) (stop : Int64),
      a.mergeExact (.empty a.stop stop) = .ok { a with stop := stop }) ∧
    ∀ (a : GaugeBucket) (start : Int64),
      (GaugeBucket.empty start a.start).mergeExact a = .ok { a with start := start } := by
  obtain ⟨hr, -, hrolled⟩ := fixedGaugeRollup_eq_ok hfine
  obtain ⟨hRpos, -, hrolled'⟩ := fixedGaugeRollup_eq_ok hcoarse
  refine ⟨fun b hb => foldlM_spanned hr hk hR hrolled hrolled' hb, fun n => ?_,
    fun a b c => GaugeBucket.mergeExact_assoc, GaugeBucket.mergeExact_empty_right,
    GaugeBucket.mergeExact_empty_left⟩
  exact coarse_present_iff hr hR (fixedStatistics_of_rolled hr hrolled)
    (fixedStatistics_of_rolled hRpos hrolled') n

theorem exact_coarsening_twoSamples :
    ∃ fine coarse, fixedGaugeRollup twoSamples 4 20 = .ok fine ∧
      fixedGaugeRollup twoSamples 12 20 = .ok coarse ∧ coarse.length = 2 ∧
      ∀ b ∈ coarse, ∃ first rest, spanned fine 4 b.start 3 = first :: rest ∧
        rest.foldlM GaugeBucket.mergeExact first = .ok b := by
  obtain ⟨fine, hfine, -⟩ : ∃ fine, fixedGaugeRollup twoSamples 4 20 = .ok fine ∧
      fine.length = 4 := map_eq_ok.mp (by decide +kernel)
  obtain ⟨coarse, hcoarse, hlength⟩ : ∃ coarse, fixedGaugeRollup twoSamples 12 20 = .ok coarse ∧
      coarse.length = 2 := map_eq_ok.mp (by decide +kernel)
  exact ⟨fine, coarse, hfine, hcoarse, hlength,
    (exact_coarsening (k := 3) (by decide) (by decide) hfine hcoarse).1⟩

end Coarse

end Ftwdb
