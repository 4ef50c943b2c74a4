import Ftwdb.Store.Locality

/-!
# Shards

A rollup file holds the buckets of one shard: of a day, of one bucket of an
unusual width, or of one calendar unit.  A maintenance writes a shard if it is
complete and needed.  The start of a shard is a multiple of its width that is
computed without a check, so before the least multiple it wraps around to the
top of the line; such a shard is never both needed and found, so the buckets of
every shard that is written lie in it (`Store.rebuiltShards_proper`).
-/

namespace Ftwdb

open Check List Signed StableSort Tally

/-! ## Widths -/

theorem toInt_utcDayMicros : utcDayMicros.toInt = 86400000000 := rfl

theorem shardWidth_cases (r : Int64) :
    shardWidth r = r ∨ shardWidth r = utcDayMicros ∧ r.toInt ∣ utcDayMicros.toInt := by
  rw [shardWidth]
  split
  · next h =>
    refine .inr ⟨rfl, ?_⟩
    have hmod := congrArg Int64.toInt h.2
    rw [Int64.toInt_mod, Int64.toInt_zero] at hmod
    exact Int.dvd_of_tmod_eq_zero hmod
  · exact .inl rfl

theorem shardWidth_pos {r : Int64} (hr : 0 < r.toInt) : 0 < (shardWidth r).toInt := by
  rcases shardWidth_cases r with heq | ⟨heq, -⟩
  · rw [heq]
    exact hr
  · rw [heq, toInt_utcDayMicros]
    decide

theorem dvd_shardWidth (r : Int64) : r.toInt ∣ (shardWidth r).toInt := by
  rcases shardWidth_cases r with heq | ⟨heq, hdvd⟩
  · rw [heq]
  · rwa [heq]

theorem fixedShardWidth_eq_ok {r width : Int64} :
    fixedShardWidth r = .ok width ↔ 0 < r.toInt ∧ width = shardWidth r := by
  rw [fixedShardWidth]
  have hpos : ¬ r ≤ 0 ↔ 0 < r.toInt := by
    rw [Std.not_le, Int64.lt_iff_toInt_lt, Int64.toInt_zero]
  split
  · next h => simp [← hpos, h]
  · next h => simp [← hpos, h, eq_comm]

/-! ## The grid of a width -/

section Grid

variable {width latest now : Int64} {covered : List ShardBounds}

/-- The shards of a walk: they follow each other from its start on, up to one that
may be empty at the very end of the line. -/
theorem mem_fixedShards {fuel : Nat} {start : Int64} {shard : ShardBounds}
    (hwidth : 0 < width.toInt) (h : shard ∈ fixedShards width latest now covered fuel start) :
    shard.start ≤ latest ∧ shard.stop = saturatingAdd shard.start width ∧ shard.stop ≤ now ∧
      shard ∉ covered ∧ (shard.start = Int64.maxValue ∨
        ∃ k : ℕ, shard.start.toInt = start.toInt + k * width.toInt) := by
  induction fuel generalizing start with
  | zero => cases h
  | succ fuel ih =>
    rw [fixedShards] at h
    split at h
    · next hlatest =>
      have hfirst : shard ∈ (if (saturatingAdd start width ≤ now ∧
          (⟨start, saturatingAdd start width⟩ : ShardBounds) ∉ covered) then
            [(⟨start, saturatingAdd start width⟩ : ShardBounds)] else []) →
          shard.start ≤ latest ∧ shard.stop = saturatingAdd shard.start width ∧
            shard.stop ≤ now ∧ shard ∉ covered ∧ (shard.start = Int64.maxValue ∨
              ∃ k : ℕ, shard.start.toInt = start.toInt + k * width.toInt) := by
        intro hmem
        split at hmem
        · next hfound =>
          rw [mem_singleton] at hmem
          rw [hmem]
          exact ⟨hlatest, rfl, hfound.1, hfound.2, .inr ⟨0, by simp⟩⟩
        · cases hmem
      simp only at h
      split at h
      · exact hfirst h
      · rcases mem_append.mp h with hmem | hmem
        · exact hfirst hmem
        · obtain ⟨hle, hstop, hnow, hcovered, hgrid⟩ := ih hmem
          refine ⟨hle, hstop, hnow, hcovered, ?_⟩
          rcases hgrid with hmax | ⟨k, hk⟩
          · exact .inl hmax
          · -- the end of a shard is exact, or the greatest number
            have hsum := toInt_saturatingAdd start width
            have hfits := fits_toInt start
            have hfits' := fits_toInt shard.start
            by_cases hexact : start.toInt + width.toInt ≤ 2 ^ 63 - 1
            · refine .inr ⟨k + 1, ?_⟩
              rw [hk, hsum]
              push_cast
              rw [Int.add_mul, Int.one_mul]
              omega
            · left
              rw [← Int64.toInt_inj, Int64.toInt_maxValue]
              have hnonneg : 0 ≤ (k : ℤ) * width.toInt := Int.mul_nonneg (by omega) hwidth.le
              omega
    · cases h

end Grid

/-! ## Groups of buckets -/

/-- The buckets of one shard. -/
def bucketsOf (width now : Int64) (buckets : List GaugeBucket) (start : Int64) : List GaugeBucket :=
  buckets.filter fun b =>
    decide (alignDown b.start width = start ∧ saturatingAdd start width ≤ now)

theorem groupShards_eq_tally (width now : Int64) (buckets : List GaugeBucket) :
    groupShards width now buckets = tally (fun o u => o.getD [] ++ [u.2]) ∅
      ((buckets.filter fun b =>
        decide (saturatingAdd (alignDown b.start width) width ≤ now)).map fun b =>
          (alignDown b.start width, b)) := by
  rw [groupShards, tally]
  generalize (∅ : Std.ExtTreeMap Int64 (List GaugeBucket)) = m
  induction buckets generalizing m with
  | nil => rfl
  | cons b buckets ih =>
    rw [foldl_cons]
    by_cases hnow : saturatingAdd (alignDown b.start width) width ≤ now
    · rw [filter_cons_of_pos (by simpa using hnow), map_cons, foldl_cons, ← ih]
      simp only [if_pos hnow]
    · rw [filter_cons_of_neg (by simpa using hnow), ← ih]
      simp only [if_neg hnow]

theorem foldl_collect (us : List (Int64 × GaugeBucket)) (bs : List GaugeBucket) :
    us.foldl (fun o u => some (o.getD [] ++ [u.2])) (some bs) = some (bs ++ us.map Prod.snd) := by
  induction us generalizing bs with
  | nil => simp
  | cons u us ih => simp [ih]

theorem ofKey_groups (width now : Int64) (buckets : List GaugeBucket) (start : Int64) :
    (ofKey start ((buckets.filter fun b =>
        decide (saturatingAdd (alignDown b.start width) width ≤ now)).map fun b =>
          (alignDown b.start width, b))).map Prod.snd = bucketsOf width now buckets start := by
  rw [ofKey, bucketsOf, filter_map, map_map, filter_filter]
  show List.map id _ = _
  rw [map_id]
  refine filter_congr fun b _ => ?_
  rw [Bool.eq_iff_iff, Bool.and_eq_true, decide_eq_true_eq, decide_eq_true_eq, Function.comp_apply,
    decide_eq_true_eq]
  refine and_congr_right fun hkey => ?_
  rw [show alignDown b.start width = start from hkey]

variable {now : Int64} {buckets : List GaugeBucket} {b : GaugeBucket} {covered : List ShardBounds}

theorem getElem?_groupShards {width start : Int64} {bs : List GaugeBucket} :
    (groupShards width now buckets)[start]? = some bs ↔
      bs = bucketsOf width now buckets start ∧ bs ≠ [] := by
  rw [groupShards_eq_tally, getElem?_tally, Std.ExtTreeMap.getElem?_empty,
    ← ofKey_groups width now buckets start]
  cases ofKey start ((buckets.filter fun b =>
      decide (saturatingAdd (alignDown b.start width) width ≤ now)).map fun b =>
        (alignDown b.start width, b)) with
  | nil => simp
  | cons u us =>
    rw [foldl_cons, foldl_collect]
    constructor
    · intro h
      cases h
      exact ⟨rfl, by simp⟩
    · rintro ⟨rfl, -⟩
      rfl

theorem mem_rollupShards_fixed {r : Int64} {shards : List RollupShard}
    (h : rollupShards buckets (.fixedMicros r) now = .ok shards) {shard : RollupShard} :
    shard ∈ shards ↔
      shard.stop = saturatingAdd shard.start (shardWidth r) ∧
        shard.buckets = bucketsOf (shardWidth r) now buckets shard.start ∧ shard.buckets ≠ [] := by
  obtain ⟨width, hwidth, hshards⟩ := bind_eq_ok.mp h
  obtain ⟨-, rfl⟩ := fixedShardWidth_eq_ok.mp hwidth
  injection hshards with hshards
  rw [← hshards, mem_map]
  constructor
  · rintro ⟨⟨start, bs⟩, hmem, rfl⟩
    rw [Std.ExtTreeMap.mem_toList_iff_getElem?_eq_some, getElem?_groupShards] at hmem
    exact ⟨rfl, hmem⟩
  · rintro ⟨hstop, hbuckets⟩
    refine ⟨(shard.start, shard.buckets), ?_, ?_⟩
    · rw [Std.ExtTreeMap.mem_toList_iff_getElem?_eq_some, getElem?_groupShards]
      exact hbuckets
    · obtain ⟨⟨start, stop⟩, bs⟩ := shard
      simp only at hstop
      rw [hstop]

/-! ## Shards that are written -/

/-- Buckets inside a range, in their order. -/
structure Within (start stop : Int64) (buckets : List GaugeBucket) : Prop where
  ordered : buckets.Pairwise fun a b => a.start < b.start
  lt : ∀ b ∈ buckets, b.start < b.stop
  inside : ∀ b ∈ buckets, inside start stop b = true

/-- A shard that is not empty and whose buckets lie in it. -/
structure RollupShard.Proper (shard : RollupShard) : Prop where
  lt : shard.start < shard.stop
  within : Within shard.start shard.stop shard.buckets

theorem Store.shardSpan_eq_some {needed : List ShardBounds} {span : Int64 × Int64}
    (h : Store.shardSpan needed = some span) :
    (∀ shard ∈ needed, span.1 ≤ shard.start ∧ shard.stop ≤ span.2) ∧
      ∃ shard ∈ needed, span.1 = shard.start := by
  cases needed with
  | nil => cases h
  | cons first rest =>
    cases h
    obtain ⟨hstart, hfrom⟩ := foldl_least ShardBounds.start rest first.start
    obtain ⟨hstop, -⟩ := foldl_greatest ShardBounds.stop rest first.stop
    constructor
    · intro shard hshard
      exact ⟨hstart _ (mem_map_of_mem (f := ShardBounds.start) hshard),
        hstop _ (mem_map_of_mem (f := ShardBounds.stop) hshard)⟩
    · obtain ⟨shard, hshard, heq⟩ := mem_map (l := first :: rest).mp hfrom
      exact ⟨shard, hshard, heq.symm⟩

/-- A bucket has a part of the points from the first one on. -/
theorem Rolled.exists_before {bounds : Int64 → Except Error (Int64 × Int64)} {g : Int64}
    {points : List Point} (h : Rolled bounds g points buckets) (hb : b ∈ buckets) :
    ∃ p ∈ points, p.validTime < b.stop := by
  obtain ⟨-, hsome, -⟩ := h.of_mem hb
  rcases hsome with hsamples | hholds
  · obtain ⟨p, hp⟩ := exists_mem_of_ne_nil _ hsamples
    obtain ⟨hmem, hrange⟩ := mem_filter.mp hp
    exact ⟨p, hmem, (of_decide_eq_true hrange).2⟩
  · obtain ⟨hold, hhold⟩ := exists_mem_of_ne_nil _ hholds
    obtain ⟨hmem, hoverlap⟩ := mem_filter.mp hhold
    refine ⟨hold.1, (mem_of_mem_holds hmem).1, ?_⟩
    rw [decide_eq_true_eq, Hold.overlap, overlap] at hoverlap
    rw [Int64.lt_iff_toInt_lt]
    omega

/-- The day that the least number lies in starts below the numbers, and wraps around
to the day that the greatest number lies in. -/
theorem toInt_alignDown_day {t : Int64}
    (hwraps : ¬ -2 ^ 63 ≤ t.toInt / utcDayMicros.toInt * utcDayMicros.toInt) :
    (alignDown t utcDayMicros).toInt = 9223371964909551616 ∧
      t.toInt < -9223372022400000000 := by
  have ht := fits_toInt t
  have hvalue := (toInt_alignDown_of_lt (t := t) (by decide) (lt_of_not_ge hwraps)).1
  rw [toInt_utcDayMicros] at hwraps hvalue
  have hquot : t.toInt / 86400000000 = -106751992 := by omega
  rw [hquot] at hvalue
  refine ⟨hvalue, ?_⟩
  omega

/-- The walk over the days of a history meets the day that wraps around only if it
starts there. -/
theorem start_of_wrapped {earliest latest : Int64} {fuel : Nat} {shard : ShardBounds}
    (hshard : shard ∈ fixedShards utcDayMicros latest now covered fuel
      (alignDown earliest utcDayMicros)) (hstart : shard.start.toInt = 9223371964909551616) :
    (alignDown earliest utcDayMicros).toInt = 9223371964909551616 := by
  obtain ⟨-, -, -, -, hgrid⟩ := mem_fixedShards (by decide) hshard
  rcases hgrid with hmax | ⟨n, hgrid⟩
  · rw [hmax, Int64.toInt_maxValue] at hstart
    omega
  · by_cases hfits : -2 ^ 63 ≤ earliest.toInt / utcDayMicros.toInt * utcDayMicros.toInt
    · rw [hstart, toInt_alignDown_of_le (by decide) hfits, toInt_utcDayMicros] at hgrid
      omega
    · exact (toInt_alignDown_day hfits).1

/-- The shard of a bucket does not wrap around if it is needed and the bucket has
a point in reach of some shard that is needed. -/
theorem align_fits_of_needed {r earliest latest g : Int64} {fuel : Nat}
    {shard shard' : ShardBounds} {p : Point} (hr : 0 < r.toInt)
    (hcell : Cell (fixedBounds r) b.start b.stop)
    (hshard : shard ∈ fixedShards (shardWidth r) latest now covered fuel
      (alignDown earliest (shardWidth r)))
    (hshard' : shard' ∈ fixedShards (shardWidth r) latest now covered fuel
      (alignDown earliest (shardWidth r)))
    (hstart : alignDown b.start (shardWidth r) = shard.start)
    (hreach : saturatingSub shard'.start g ≤ p.validTime) (hp : p.validTime < b.stop) :
    -2 ^ 63 ≤ b.start.toInt / (shardWidth r).toInt * (shardWidth r).toInt := by
  obtain ⟨k, hlow, hhigh⟩ := (fixed_cell_iff hr).mp hcell
  rcases shardWidth_cases r with hwidth | ⟨hwidth, hdvd⟩
  · rw [hwidth, hlow, Int.mul_ediv_cancel _ hr.ne', ← hlow]
    exact (fits_toInt b.start).1
  · rw [hwidth] at hshard hshard' hstart ⊢
    by_contra hwraps
    obtain ⟨hvalue, hbelow⟩ := toInt_alignDown_day hwraps
    rw [hstart] at hvalue
    -- every shard that is needed lies at the top of the line, and the points at its bottom
    have hfirst := start_of_wrapped hshard hvalue
    have htop : 9223371964909551616 ≤ shard'.start.toInt := by
      obtain ⟨-, -, -, -, hgrid⟩ := mem_fixedShards (by decide) hshard'
      rcases hgrid with hmax | ⟨n, hgrid⟩
      · rw [hmax, Int64.toInt_maxValue]
        decide
      · rw [hgrid, hfirst, toInt_utcDayMicros]
        omega
    have hstop : b.stop.toInt ≤ b.start.toInt + 86400000000 := by
      have hle : r.toInt ≤ 86400000000 := Int.le_of_dvd (by decide) hdvd
      rw [hhigh, hlow, Int.add_mul, Int.one_mul]
      omega
    have hg := (fits_toInt g).2
    rw [Int64.le_iff_toInt_le, toInt_saturatingSub] at hreach
    rw [Int64.lt_iff_toInt_lt] at hp
    omega

theorem mem_bucketsOf {width start : Int64} :
    b ∈ bucketsOf width now buckets start ↔ b ∈ buckets ∧ alignDown b.start width = start ∧
      saturatingAdd start width ≤ now := by
  rw [bucketsOf, mem_filter, decide_eq_true_eq]

/-- A bucket lies in its shard if that starts at a true multiple. -/
theorem inside_of_align {r : Int64} (hr : 0 < r.toInt)
    (hcell : Cell (fixedBounds r) b.start b.stop)
    (hfits : -2 ^ 63 ≤ b.start.toInt / (shardWidth r).toInt * (shardWidth r).toInt) :
    inside (alignDown b.start (shardWidth r))
      (saturatingAdd (alignDown b.start (shardWidth r)) (shardWidth r)) b = true := by
  obtain ⟨k, hlow, hhigh⟩ := (fixed_cell_iff hr).mp hcell
  obtain ⟨c, hc⟩ := dvd_shardWidth r
  have hpos := shardWidth_pos hr
  have hstart := toInt_alignDown_of_le hpos hfits
  obtain ⟨hle, hlt⟩ := align_bounds (t := b.start.toInt) hpos
  have hstop := (fits_toInt b.stop).2
  -- the end of the shard is a multiple of the resolution, too
  have hend : b.stop.toInt ≤ b.start.toInt / (shardWidth r).toInt * (shardWidth r).toInt +
      (shardWidth r).toInt := by
    generalize b.start.toInt / (shardWidth r).toInt = q at hlt
    have hmultiple : q * (shardWidth r).toInt + (shardWidth r).toInt = (q * c + c) * r.toInt := by
      rw [hc]
      ring
    rw [hmultiple, hlow] at hlt
    rw [hmultiple, hhigh]
    exact Int.mul_le_mul_of_nonneg_right (lt_of_mul_lt_mul_right hlt hr.le) hr.le
  rw [inside_iff, toInt_saturatingAdd, hstart]
  omega

section Rebuilt

variable [Jiff] {s : Store} {definition : SeriesDefinition} {resolution : RollupResolution}
  {now : Int64} {needed : List ShardBounds} {span : Int64 × Int64} {shards : List RollupShard}

/-- The points a maintenance reads for the shards of a span. -/
def Store.spanPoints (s : Store) (definition : SeriesDefinition) (span : Int64 × Int64) :
    List Point :=
  let maxGap := definition.maximumGapMicros.getD 0
  s.database.queryLatest definition.id (saturatingSub span.1 maxGap)
    (saturatingAdd span.2 (if 1 ≤ maxGap then maxGap else 1))

theorem Store.rebuiltShards_eq_ok
    (h : s.rebuiltShards definition resolution now needed span = .ok shards) :
    ∃ buckets found,
      materialize (s.spanPoints definition span) resolution (definition.maximumGapMicros.getD 0) =
        .ok buckets ∧
      rollupShards (buckets.filter fun b => decide (b.stop ≤ now)) resolution now = .ok found ∧
      shards = found.filter fun shard => decide (shard.toShardBounds ∈ needed) := by
  obtain ⟨buckets, hbuckets, hrest⟩ := bind_eq_ok.mp h
  obtain ⟨found, hfound, hrest⟩ := bind_eq_ok.mp hrest
  exact ⟨buckets, found, hbuckets, hfound, (Except.ok.inj hrest).symm⟩

/-- The buckets of every shard that a maintenance writes lie in it. -/
theorem Store.rebuiltShards_proper (htiles : resolution.Tiles) {earliest latest : Int64}
    {covered all : List ShardBounds}
    (hall : neededShards resolution earliest latest now covered = .ok all)
    (hneeded : ∀ shard ∈ needed, shard ∈ all) (hspan : shardSpan needed = some span)
    (h : s.rebuiltShards definition resolution now needed span = .ok shards) :
    ∀ shard ∈ shards, shard.Proper := by
  obtain ⟨buckets, found, hbuckets, hfound, rfl⟩ := rebuiltShards_eq_ok h
  obtain ⟨-, htiling, hrolled⟩ := materialize_eq_ok htiles hbuckets
  intro shard hshard
  obtain ⟨hmem, hin⟩ := mem_filter.mp hshard
  rw [decide_eq_true_eq] at hin
  cases resolution with
  | fixedMicros r =>
    obtain ⟨hstop, hof, hne⟩ := (mem_rollupShards_fixed hfound).mp hmem
    obtain ⟨width, hwidth, hshards⟩ := bind_eq_ok.mp hall
    obtain ⟨hr, rfl⟩ := fixedShardWidth_eq_ok.mp hwidth
    injection hshards with hshards
    obtain ⟨-, first, hfirst, hspan⟩ := shardSpan_eq_some hspan
    have hinside : ∀ b ∈ shard.buckets, inside shard.start shard.stop b = true ∧
        b.start < b.stop := by
      intro b hb
      rw [hof, mem_bucketsOf, mem_filter] at hb
      obtain ⟨⟨hb, -⟩, hstart, -⟩ := hb
      have hcell := (hrolled.of_mem hb).1
      obtain ⟨p, hp, hbefore⟩ := hrolled.exists_before hb
      have hreach : saturatingSub first.start (definition.maximumGapMicros.getD 0) ≤
          p.validTime := by
        rw [mem_stableSort] at hp
        rw [← hspan]
        exact (of_decide_eq_true (Database.inRange_of_mem_queryLatest hp)).1
      have hfits := align_fits_of_needed hr hcell (hshards ▸ hneeded _ hin)
        (hshards ▸ hneeded _ hfirst) hstart hreach hbefore
      have hwithin := inside_of_align hr hcell hfits
      rw [hstart, ← hstop] at hwithin
      exact ⟨hwithin, htiling.lt hcell⟩
    have hordered : shard.buckets.Pairwise fun a b => a.start < b.start := by
      rw [hof]
      exact (hrolled.ordered.filter _).filter _
    refine ⟨?_, hordered, fun b hb => (hinside b hb).2, fun b hb => (hinside b hb).1⟩
    obtain ⟨b, hb⟩ := exists_mem_of_ne_nil _ hne
    obtain ⟨hwithin, hlt⟩ := hinside b hb
    rw [inside_iff] at hwithin
    rw [Int64.lt_iff_toInt_lt] at hlt ⊢
    omega
  | calendar unit zone =>
    cases hfound
    obtain ⟨b, hb, rfl⟩ := mem_map.mp hmem
    have hb := (mem_filter.mp (mem_filter.mp hb).1).1
    have hlt := htiling.lt (hrolled.of_mem hb).1
    refine ⟨hlt, pairwise_singleton .., fun b' hb' => ?_, fun b' hb' => ?_⟩
    · rwa [mem_singleton.mp hb']
    · rw [mem_singleton.mp hb']
      exact decide_eq_true ⟨Std.le_refl _, Std.le_refl _⟩

end Rebuilt

end Ftwdb
