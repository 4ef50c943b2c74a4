import Ftwdb.Store.Tiling

/-!
# Rollups of fixed width

The buckets of a fixed resolution start at its multiples.  A multiple below the
range of the numbers wraps around to the top, where the end of the bucket
overflows, so a rollup that is built at all has only true multiples.  Its
buckets tile the line, and carry the statistics of their intervals.
-/

namespace Ftwdb

open Check List Signed StableSort

/-! ## The tiling -/

theorem fixedBounds_eq_ok {r t s e : Int64} (hr : 0 < r.toInt) :
    fixedBounds r t = .ok (s, e) ↔
      s.toInt = t.toInt / r.toInt * r.toInt ∧ e.toInt = s.toInt + r.toInt := by
  have hs := fits_toInt s
  have he := fits_toInt e
  rw [fixedBounds]
  constructor
  · intro h
    split at h
    · cases h
    · next stop hstop =>
      injection h with h
      cases h
      have hsum := checkedAdd_eq_some.mp hstop
      refine ⟨?_, hsum⟩
      by_cases hfits : -2 ^ 63 ≤ t.toInt / r.toInt * r.toInt
      · exact toInt_alignDown_of_le hr hfits
      · have hwraps := (toInt_alignDown_of_lt hr (lt_of_not_ge hfits)).2
        omega
  · rintro ⟨hstart, hstop⟩
    have halign : alignDown t r = s := by
      rw [← Int64.toInt_inj, toInt_alignDown_of_le hr (by omega), hstart]
    rw [halign, checkedAdd_eq_some.mpr hstop]

/-- Fixed buckets tile the line. -/
theorem fixed_tiling {r : Int64} (hr : 0 < r.toInt) : Tiling (fixedBounds r) where
  around := by
    intro t s e h
    obtain ⟨hs, he⟩ := (fixedBounds_eq_ok hr).mp h
    have hbounds := align_bounds (t := t.toInt) hr
    rw [Int64.le_iff_toInt_le, Int64.lt_iff_toInt_lt]
    omega
  same := by
    intro t s e h t' hle hlt
    rw [fixedBounds_eq_ok hr] at h ⊢
    rw [Int64.le_iff_toInt_le] at hle
    rw [Int64.lt_iff_toInt_lt] at hlt
    have hquot : t'.toInt / r.toInt = t.toInt / r.toInt := by
      apply le_antisymm
      · rw [← Int.lt_add_one_iff, Int.ediv_lt_iff_lt_mul hr, Int.add_mul, Int.one_mul]
        omega
      · rw [Int.le_ediv_iff_mul_le hr]
        omega
    rw [hquot]
    exact h

theorem fixed_cell_iff {r s e : Int64} (hr : 0 < r.toInt) :
    Cell (fixedBounds r) s e ↔
      ∃ k : ℤ, s.toInt = k * r.toInt ∧ e.toInt = (k + 1) * r.toInt := by
  rw [Cell, fixedBounds_eq_ok hr]
  constructor
  · rintro ⟨hs, he⟩
    exact ⟨s.toInt / r.toInt, hs, by rw [Int.add_mul, Int.one_mul, ← hs, he]⟩
  · rintro ⟨k, hs, he⟩
    rw [hs, Int.mul_ediv_cancel _ hr.ne']
    exact ⟨rfl, by rw [he, Int.add_mul, Int.one_mul]⟩

/-- A fixed rollup is the rollup of a tiling. -/
theorem fixedGaugeRollup_eq_ok {points : List Point} {r g : Int64} {buckets : List GaugeBucket}
    (h : fixedGaugeRollup points r g = .ok buckets) :
    0 < r.toInt ∧ 0 ≤ g.toInt ∧
      Rolled (fixedBounds r) g (stableSort byValidTime points) buckets := by
  obtain ⟨_, hr, hrest⟩ := bind_eq_ok.mp h
  obtain ⟨_, hg, hrest⟩ := bind_eq_ok.mp hrest
  rw [failIf_eq_ok, Std.not_le, Int64.lt_iff_toInt_lt] at hr
  rw [failIf_eq_ok, Std.not_lt, Int64.le_iff_toInt_le] at hg
  exact ⟨hr, hg, BucketRule.build_eq_ok (fixed_tiling hr) hrest⟩

theorem fixed_advances {r : Int64} (hr : 0 < r.toInt) : (fixedRule r).Advances where
  after h := ((fixed_tiling hr).around h).2
  bounds t := by
    show fixedBounds r t ≠ _
    rw [fixedBounds]
    split
    · simp [BucketRule.stuck]
    · exact fun h => nomatch h
  gap := by simp [fixedRule]
  coverage := by simp [fixedRule]

/-! ## What a rollup of fixed width is -/

/-- The length of a hold inside the bucket of the multiple `k`. -/
def Hold.within (k r : ℤ) (h : Hold) : ℤ :=
  min h.2.validTime.toInt ((k + 1) * r) - max h.1.validTime.toInt (k * r)

/-- The buckets of `points` at resolution `r` and gap limit `g`, bucket by bucket and
in sum.  Counts are 64-bit numbers, which no list in memory exceeds. -/
structure FixedStatistics (points : List Point) (r g : Int64) (buckets : List GaugeBucket) :
    Prop where
  ordered : buckets.Pairwise fun a b => a.start < b.start
  aligned : ∀ b ∈ buckets, ∃ k : ℤ, b.start.toInt = k * r.toInt ∧
    b.stop.toInt = (k + 1) * r.toInt
  present : ∀ k : ℤ, (∃ b ∈ buckets, b.start.toInt = k * r.toInt) ↔
    (∃ p ∈ points, k * r.toInt ≤ p.validTime.toInt ∧ p.validTime.toInt < (k + 1) * r.toInt) ∨
    ∃ h ∈ holds g (stableSort byValidTime points), 0 < h.within k r.toInt
  computed : ∀ b ∈ buckets, b = statistics g (stableSort byValidTime points) b.start b.stop
  counted : points.length < 2 ^ 64 → ∀ b ∈ buckets,
    b.count.toNat = (samplesIn points b.start b.stop).length
  covered : ∀ b ∈ buckets, b.coveredMicros.toInt =
      ((holds g (stableSort byValidTime points)).map (Hold.overlap b.start b.stop)).sum ∧
    b.coveredMicros.toInt ≤ r.toInt
  allCounted : points.length < 2 ^ 64 →
    (buckets.map fun b => b.count.toNat).sum = points.length
  allCovered : (buckets.map fun b => b.coveredMicros.toInt).sum =
    ((holds g (stableSort byValidTime points)).map Hold.gap).sum
  valid : points.length < 2 ^ 64 → validateBuckets none buckets 0 = .ok ()

section Statistics

variable {points : List Point} {r g : Int64} {buckets : List GaugeBucket}

/-- The multiple of a bucket that a hold touches is one of the numbers, because the
buckets of both its ends are. -/
theorem cell_of_within {ordered : List Point} (hr : 0 < r.toInt)
    (h : Rolled (fixedBounds r) g ordered buckets) {hold : Hold} (hhold : hold ∈ holds g ordered)
    {k : ℤ} (hwithin : 0 < hold.within k r.toInt) :
    ∃ s e, Cell (fixedBounds r) s e ∧ s.toInt = k * r.toInt ∧ e.toInt = (k + 1) * r.toInt := by
  obtain ⟨hfirst, hsecond⟩ := mem_of_mem_holds hhold
  obtain ⟨s₁, e₁, hbounds₁⟩ := h.sampled _ hfirst
  obtain ⟨s₂, e₂, hbounds₂⟩ := h.sampled _ hsecond
  obtain ⟨hs₁, -⟩ := (fixedBounds_eq_ok hr).mp hbounds₁
  obtain ⟨hs₂, he₂⟩ := (fixedBounds_eq_ok hr).mp hbounds₂
  have hfits₁ := fits_toInt s₁
  have hfits₂ := fits_toInt e₂
  rw [Hold.within] at hwithin
  have hlow : hold.1.validTime.toInt / r.toInt ≤ k := by
    rw [← Int.lt_add_one_iff, Int.ediv_lt_iff_lt_mul hr]
    omega
  have hhigh : k ≤ hold.2.validTime.toInt / r.toInt := by
    rw [Int.le_ediv_iff_mul_le hr]
    omega
  have hstart : s₁.toInt ≤ k * r.toInt := hs₁ ▸ Int.mul_le_mul_of_nonneg_right hlow hr.le
  have hstop : k * r.toInt ≤ s₂.toInt := hs₂ ▸ Int.mul_le_mul_of_nonneg_right hhigh hr.le
  have hnext : (k + 1) * r.toInt = k * r.toInt + r.toInt := by rw [Int.add_mul, Int.one_mul]
  have hs : (Int64.ofInt (k * r.toInt)).toInt = k * r.toInt :=
    Int64.toInt_ofInt_of_le (by omega) (by omega)
  have he : (Int64.ofInt ((k + 1) * r.toInt)).toInt = (k + 1) * r.toInt :=
    Int64.toInt_ofInt_of_le (by omega) (by omega)
  exact ⟨_, _, (fixed_cell_iff hr).mpr ⟨k, hs, he⟩, hs, he⟩

theorem overlap_eq_within {s e : Int64} {k : ℤ} (hs : s.toInt = k * r.toInt)
    (he : e.toInt = (k + 1) * r.toInt) (hold : Hold) :
    hold.overlap s e = max 0 (hold.within k r.toInt) := by
  rw [Hold.overlap, overlap, Hold.within, hs, he]

/-- There is a bucket where a sample or a held value lies. -/
theorem present_iff (hr : 0 < r.toInt)
    (h : Rolled (fixedBounds r) g (stableSort byValidTime points) buckets) (k : ℤ) :
    (∃ b ∈ buckets, b.start.toInt = k * r.toInt) ↔
      (∃ p ∈ points, k * r.toInt ≤ p.validTime.toInt ∧
        p.validTime.toInt < (k + 1) * r.toInt) ∨
      ∃ hold ∈ holds g (stableSort byValidTime points), 0 < hold.within k r.toInt := by
  have hinRange : ∀ {s e : Int64}, s.toInt = k * r.toInt → e.toInt = (k + 1) * r.toInt →
      ∀ p : Point, inRange s e p = true ↔ k * r.toInt ≤ p.validTime.toInt ∧
        p.validTime.toInt < (k + 1) * r.toInt := by
    intro s e hs he p
    rw [inRange, decide_eq_true_eq, Int64.le_iff_toInt_le, Int64.lt_iff_toInt_lt, hs, he]
  constructor
  · rintro ⟨b, hb, hstart⟩
    obtain ⟨hcell, hne, -⟩ := h.of_mem hb
    obtain ⟨k', hs, he⟩ := (fixed_cell_iff hr).mp hcell
    obtain rfl : k' = k := Int.eq_of_mul_eq_mul_right hr.ne' (hs ▸ hstart)
    rcases hne with hne | hne
    · obtain ⟨p, hp⟩ := exists_mem_of_ne_nil _ hne
      obtain ⟨hp, hin⟩ := mem_filter.mp hp
      exact .inl ⟨p, mem_stableSort.mp hp, (hinRange hs he p).mp hin⟩
    · obtain ⟨hold, hhold⟩ := exists_mem_of_ne_nil _ hne
      obtain ⟨hhold, hpos⟩ := mem_filter.mp hhold
      rw [decide_eq_true_eq, overlap_eq_within hs he] at hpos
      exact .inr ⟨hold, hhold, by omega⟩
  · rintro (⟨p, hp, hin⟩ | ⟨hold, hhold, hwithin⟩)
    · obtain ⟨s, e, hbounds⟩ := h.sampled p (mem_stableSort.mpr hp)
      have hcell := (fixed_tiling hr).cell hbounds
      obtain ⟨hs, he⟩ := (fixedBounds_eq_ok hr).mp hbounds
      have hquot : p.validTime.toInt / r.toInt = k := by
        apply le_antisymm
        · rw [← Int.lt_add_one_iff, Int.ediv_lt_iff_lt_mul hr]
          exact hin.2
        · rw [Int.le_ediv_iff_mul_le hr]
          exact hin.1
      rw [hquot] at hs
      rw [hs, ← Int.one_mul r.toInt, ← Int.mul_assoc, Int.mul_one, ← Int.add_mul] at he
      have hsample : p ∈ samplesIn (stableSort byValidTime points) s e :=
        mem_filter.mpr ⟨mem_stableSort.mpr hp, (hinRange hs he p).mpr hin⟩
      exact ⟨_, h.mem_of_cell hcell (.inl (ne_nil_of_mem hsample)), hs⟩
    · obtain ⟨s, e, hcell, hs, he⟩ := cell_of_within hr h hhold hwithin
      have hin : hold ∈ holdsIn g (stableSort byValidTime points) s e := by
        refine mem_filter.mpr ⟨hhold, ?_⟩
        rw [decide_eq_true_eq, overlap_eq_within hs he]
        omega
      exact ⟨_, h.mem_of_cell hcell (.inr (ne_nil_of_mem hin)), hs⟩

theorem fixedStatistics_of_rolled (hr : 0 < r.toInt)
    (h : Rolled (fixedBounds r) g (stableSort byValidTime points) buckets) :
    FixedStatistics points r g buckets := by
  have hsorted : Sorted byValidTime (stableSort byValidTime points) :=
    sorted_stableSort byValidTime_preorder points
  have hbounds : ∀ b ∈ buckets, b.start < b.stop ∧ b.stop.toInt = b.start.toInt + r.toInt ∧
      b.stop.toInt - b.start.toInt < 2 ^ 63 := by
    intro b hb
    have hcell := (h.of_mem hb).1
    have hstop := ((fixedBounds_eq_ok hr).mp hcell).2
    have hfits := fits_toInt r
    exact ⟨(fixed_tiling hr).lt hcell, hstop, by omega⟩
  have hcovered : ∀ b ∈ buckets, b.coveredMicros.toInt =
      ((holdsIn g (stableSort byValidTime points) b.start b.stop).map
        (Hold.overlap b.start b.stop)).sum := by
    intro b hb
    obtain ⟨hlt, -, hwidth⟩ := hbounds b hb
    conv_lhs => rw [(h.of_mem hb).2.2]
    exact toInt_coveredMicros hsorted (Std.le_of_lt hlt) hwidth
  have hcounted : points.length < 2 ^ 64 → ∀ b ∈ buckets,
      b.count.toNat = (samplesIn (stableSort byValidTime points) b.start b.stop).length := by
    intro hlength b hb
    conv_lhs => rw [(h.of_mem hb).2.2]
    exact toNat_count (by rwa [length_stableSort])
  refine {
    ordered := h.ordered
    aligned := fun b hb => (fixed_cell_iff hr).mp (h.of_mem hb).1
    present := present_iff hr h
    computed := fun b hb => (h.of_mem hb).2.2
    counted := fun hlength b hb => ?_
    covered := fun b hb => ⟨?_, ?_⟩
    allCounted := fun hlength => ?_
    allCovered := ?_
    valid := fun hlength => ?_ }
  · rw [hcounted hlength b hb]
    exact ((stableSort_perm byValidTime points).filter _).length_eq
  · rw [hcovered b hb, sum_overlap_holdsIn]
  · obtain ⟨hlt, hstop, -⟩ := hbounds b hb
    have hupper := sum_overlap_le g hsorted (Std.le_of_lt hlt)
    rw [hcovered b hb]
    omega
  · rw [map_congr_left (hcounted hlength), h.samples_total, length_stableSort]
  · rw [map_congr_left hcovered, h.covered_total]
  · exact validateBuckets_eq_ok hsorted (by rwa [length_stableSort]) (h.apart (fixed_tiling hr))
      (fun b hb => ⟨(hbounds b hb).1, (hbounds b hb).2.2, (h.of_mem hb).2.2⟩) (by simp) 0

/-- A rollup of fixed width that is built has the stated statistics, and building
never runs out of rounds. -/
theorem fixedGaugeRollup_statistics (points : List Point) (r g : Int64) :
    fixedGaugeRollup points r g ≠ .error BucketRule.stuck ∧
      ∀ buckets, fixedGaugeRollup points r g = .ok buckets →
        FixedStatistics points r g buckets := by
  constructor
  · refine bind_ne_error ?_ fun _ hr => bind_ne_error ?_ fun _ hg => ?_
    · rw [failIf]
      split <;> simp [BucketRule.stuck]
    · rw [failIf]
      split <;> simp [BucketRule.stuck]
    · rw [failIf_eq_ok, Std.not_le, Int64.lt_iff_toInt_lt] at hr
      exact BucketRule.build_ne_stuck (fixed_advances hr) points g
  · intro buckets h
    obtain ⟨hr, -, hrolled⟩ := fixedGaugeRollup_eq_ok h
    exact fixedStatistics_of_rolled hr hrolled

/-- Two samples on both sides of zero, twelve microseconds apart. -/
def twoSamples : List Point :=
  [.actual 1 7 ⟨0x4000000000000000⟩, .actual 1 (-5) ⟨0x3FF0000000000000⟩]

theorem fixedGaugeRollup_statistics_twoSamples :
    ∃ buckets, fixedGaugeRollup twoSamples 10 20 = .ok buckets ∧
      buckets.map (fun b => (b.start, b.stop, b.coveredMicros)) = [(-10, 0, 5), (0, 10, 7)] ∧
      FixedStatistics twoSamples 10 20 buckets := by
  obtain ⟨buckets, hbuckets, hvalues⟩ : ∃ buckets, fixedGaugeRollup twoSamples 10 20 = .ok buckets ∧
      buckets.map (fun b => (b.start, b.stop, b.coveredMicros)) = [(-10, 0, 5), (0, 10, 7)] :=
    map_eq_ok.mp (by decide +kernel)
  exact ⟨buckets, hbuckets, hvalues, (fixedGaugeRollup_statistics _ _ _).2 buckets hbuckets⟩

end Statistics

end Ftwdb
