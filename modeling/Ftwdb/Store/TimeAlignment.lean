import Ftwdb.Store.GaugeQuery

/-!
# Alignment over the whole range of time

Buckets, shards and the ranges of queries start at multiples of a width, which
the code computes as `t.div_euclid(width) * width`.  The multiple is right from
the least representable one on (`leastMultiple`).  Below it the product wraps
around, so an instant next to `i64::MIN` is put next to `i64::MAX`: its bucket
lies behind it, and a query from there on finds nothing.
-/

namespace Ftwdb

open Check Signed StableSort

/-- The multiple below an instant: not wrapped around, and less than one width away. -/
structure Aligned (t width : Int64) : Prop where
  exact : (alignDown t width).toInt = t.toInt / width.toInt * width.toInt
  le : alignDown t width ≤ t
  lt : t.toInt < (alignDown t width).toInt + width.toInt

theorem aligned_iff {t width : Int64} (hwidth : 0 < width.toInt) :
    Aligned t width ↔ leastMultiple width ≤ t.toInt := by
  rw [← align_fits_iff hwidth]
  constructor
  · intro h
    rw [← h.exact]
    exact (fits_toInt _).1
  · intro hfits
    have hexact := toInt_alignDown_of_le hwidth hfits
    have hbounds := align_bounds (t := t.toInt) hwidth
    refine ⟨hexact, ?_, ?_⟩
    · rw [Int64.le_iff_toInt_le]
      omega
    · omega

theorem Aligned.mono {t t' width : Int64} (hwidth : 0 < width.toInt) (h : Aligned t width)
    (hle : t ≤ t') : Aligned t' width := by
  rw [Int64.le_iff_toInt_le] at hle
  rw [aligned_iff hwidth] at h ⊢
  omega

theorem Aligned.alignDown_le {t t' width : Int64} (hwidth : 0 < width.toInt) (h : Aligned t width)
    (hle : t ≤ t') : alignDown t width ≤ alignDown t' width := by
  have h' := h.mono hwidth hle
  rw [Int64.le_iff_toInt_le] at hle ⊢
  rw [h.exact, h'.exact]
  exact Int.mul_le_mul_of_nonneg_right (Int.ediv_le_ediv hwidth hle) hwidth.le

/-- The shards are aligned to a multiple of the resolution. -/
theorem Aligned.of_shard {t r : Int64} (hr : 0 < r.toInt) (h : Aligned t (shardWidth r)) :
    Aligned t r := by
  have hbounds := align_bounds (t := t.toInt) (shardWidth_pos hr)
  obtain ⟨c, hc⟩ := dvd_shardWidth r
  rw [aligned_iff (shardWidth_pos hr), ← align_fits_iff (shardWidth_pos hr)] at h
  rw [aligned_iff hr, ← align_fits_iff hr]
  have hmultiple : t.toInt / (shardWidth r).toInt * (shardWidth r).toInt =
      t.toInt / (shardWidth r).toInt * c * r.toInt := by
    rw [hc]
    ring
  have hquot : t.toInt / (shardWidth r).toInt * c ≤ t.toInt / r.toInt := by
    rw [Int.le_ediv_iff_mul_le hr, ← hmultiple]
    exact hbounds.1
  have hmul := Int.mul_le_mul_of_nonneg_right hquot hr.le
  omega

theorem fixedRange_of_wider {r start stop a b : Int64} (hr : 0 < r.toInt) (halign : Aligned start r)
    (hstart : start ≤ a) (hlt : a < b) (hstop : b ≤ stop) (buckets : List GaugeBucket) :
    ∃ narrow wide, fixedRange r buckets a b = some narrow ∧
      fixedRange r buckets start stop = some wide ∧ narrow.Sublist wide := by
  have hfirst := halign.alignDown_le hr hstart
  have ha := (halign.mono hr hstart).le
  have hnarrow : ¬ b < alignDown a r := Std.not_lt.mpr (Std.le_trans ha (Std.le_of_lt hlt))
  have hwide : ¬ stop < alignDown start r :=
    Std.not_lt.mpr (Std.le_trans hfirst (Std.le_trans (Std.not_lt.mp hnarrow) hstop))
  refine ⟨_, _, if_neg (hnarrow ·.2), if_neg (hwide ·.2),
    List.monotone_filter_right _ fun bucket hb => ?_⟩
  rw [decide_eq_true_eq] at hb ⊢
  exact ⟨Std.le_trans hfirst hb.1, Std.lt_of_lt_of_le hb.2 hstop⟩

section Alignment

variable [Jiff]

/-- The range of a query in whole buckets: the first bucket from its start, and the
last one from its last instant, cut off where the line ends. -/
theorem queryEnvelope_fixed {r start stop : Int64} (hr : 0 < r.toInt) (halign : Aligned start r)
    (hlt : start < stop) : ∃ range, Store.queryEnvelope start stop (.fixedMicros r) = .ok range ∧
      range.1 = alignDown start r ∧ range.1 ≤ start ∧ stop ≤ range.2 ∧
      range.2.toInt = min ((stop.toInt - 1) / r.toInt * r.toInt + r.toInt) (2 ^ 63 - 1) := by
  have hpos : ¬ r ≤ 0 := by
    rw [Int64.le_iff_toInt_le]
    exact Int.not_le.mpr hr
  have hlt' := Int64.lt_iff_toInt_lt.mp hlt
  have hstart := fits_toInt start
  have hstop := fits_toInt stop
  have hlast : (saturatingSub stop 1).toInt = stop.toInt - 1 := by
    rw [toInt_saturatingSub, show (1 : Int64).toInt = 1 from rfl]
    omega
  have hle : start ≤ saturatingSub stop 1 := by
    rw [Int64.le_iff_toInt_le, hlast]
    omega
  have hexact := (halign.mono hr hle).exact
  have hbounds := align_bounds (t := stop.toInt - 1) hr
  rw [hlast] at hexact
  have hend : (saturatingAdd (alignDown (saturatingSub stop 1) r) r).toInt =
      min ((stop.toInt - 1) / r.toInt * r.toInt + r.toInt) (2 ^ 63 - 1) := by
    rw [toInt_saturatingAdd, hexact]
    omega
  refine ⟨_, if_neg hpos, rfl, halign.le, ?_, hend⟩
  rw [Int64.le_iff_toInt_le]
  show stop.toInt ≤ (saturatingAdd (alignDown (saturatingSub stop 1) r) r).toInt
  rw [hend]
  omega

theorem queryEnvelope_mono {r start stop a b : Int64} (hr : 0 < r.toInt)
    (halign : Aligned start r) (hstart : start ≤ a) (hlt : a < b) (hstop : b ≤ stop)
    {inner outer : Int64 × Int64} (hinner : Store.queryEnvelope a b (.fixedMicros r) = .ok inner)
    (houter : Store.queryEnvelope start stop (.fixedMicros r) = .ok outer) :
    outer.1 ≤ inner.1 ∧ inner.1 < inner.2 ∧ inner.2 ≤ outer.2 := by
  have hwide : start < stop := Std.lt_of_le_of_lt hstart (Std.lt_of_lt_of_le hlt hstop)
  obtain ⟨range, heq, hfirst, hbefore, hbehind, hend⟩ :=
    queryEnvelope_fixed hr (halign.mono hr hstart) hlt
  obtain rfl := Except.ok.inj (heq.symm.trans hinner)
  obtain ⟨range', heq', hfirst', -, -, hend'⟩ := queryEnvelope_fixed hr halign hwide
  obtain rfl := Except.ok.inj (heq'.symm.trans houter)
  refine ⟨?_, Std.lt_of_le_of_lt hbefore (Std.lt_of_lt_of_le hlt hbehind), ?_⟩
  · rw [hfirst, hfirst']
    exact halign.alignDown_le hr hstart
  · rw [Int64.le_iff_toInt_le] at hstop ⊢
    have hquot : (b.toInt - 1) / r.toInt * r.toInt ≤ (stop.toInt - 1) / r.toInt * r.toInt :=
      Int.mul_le_mul_of_nonneg_right (Int.ediv_le_ediv hr (by omega)) hr.le
    omega

/-- The computations that align an instant `t` and a query from `start` to `stop` at the
resolution `r`. -/
structure TimeAlignment (r t start stop : Int64) : Prop where
  -- `bucket_start`, and the shards of `needed_completed_shards` and `rollup_shards`
  bucket : Aligned t r
  shard : Aligned t (shardWidth r)
  grouped : ∀ buckets now shards, rollupShards buckets (.fixedMicros r) now = .ok shards →
    ∀ shard ∈ shards, ∀ b ∈ shard.buckets, b.start = t →
      shard.start ≤ t ∧ t.toInt < shard.start.toInt + (shardWidth r).toInt
  completed : ∃ stop, latestCompletedShardEnd t (.fixedMicros r) = .ok stop ∧ stop ≤ t ∧
    t.toInt < stop.toInt + (shardWidth r).toInt
  -- `query_envelope` contains the range
  ends : Aligned start r ∧ Aligned (saturatingSub stop 1) r
  envelope : ∃ range, Store.queryEnvelope start stop (.fixedMicros r) = .ok range ∧
    range.1 ≤ start ∧ stop ≤ range.2
  -- what is returned for a part of the range is returned for the range
  range : ∀ buckets a b, start ≤ a → a < b → b ≤ stop → ∃ narrow wide,
    fixedRange r buckets a b = some narrow ∧ fixedRange r buckets start stop = some wide ∧
      narrow.Sublist wide
  query : ∀ s history seriesId a b narrow wide, Store.Run s history → start ≤ a → b ≤ stop →
    s.queryGauge seriesId a b (.fixedMicros r) = .ok narrow →
    s.queryGauge seriesId start stop (.fixedMicros r) = .ok wide →
      narrow.buckets.Sublist wide.buckets

theorem query_of_wider {r start stop : Int64} (hr : 0 < r.toInt) (halign : Aligned start r)
    {s : Store} {history : List Point} {seriesId : UInt64} {a b : Int64}
    {narrow wide : Store.RollupQuery} (hrun : Store.Run s history) (hstart : start ≤ a)
    (hstop : b ≤ stop) (hnarrow : s.queryGauge seriesId a b (.fixedMicros r) = .ok narrow)
    (hwide : s.queryGauge seriesId start stop (.fixedMicros r) = .ok wide) :
    narrow.buckets.Sublist wide.buckets := by
  obtain ⟨latest, -, hlatest⟩ := hrun.carries.answers.exists_latest seriesId
  have htiles : (RollupResolution.fixedMicros r).Tiles := trivial
  have hlt := (Store.queryGauge_eq_ok hrun.tidy htiles hlatest hnarrow).1
  exact Store.queryGauge_of_wider hrun.tidy htiles hlatest hstart hstop
    (fun inner outer => queryEnvelope_mono hr halign hstart hlt hstop) hnarrow hwide

/-- Alignment is right exactly from the least multiples on: that of the width of a shard
for an instant, and that of the resolution for the start of a query. -/
theorem time_alignment_iff {r t start stop : Int64} (hr : 0 < r) (hlt : start < stop) :
    TimeAlignment r t start stop ↔
      leastMultiple (shardWidth r) ≤ t.toInt ∧ leastMultiple r ≤ start.toInt := by
  have hr : 0 < r.toInt := Int64.lt_iff_toInt_lt.mp hr
  have hwidth := shardWidth_pos hr
  rw [← aligned_iff hwidth, ← aligned_iff hr]
  constructor
  · intro h
    exact ⟨h.shard, h.ends.1⟩
  · rintro ⟨hshard, hstart⟩
    have hlast : start ≤ saturatingSub stop 1 := by
      have hfits := fits_toInt start
      have hfits' := fits_toInt stop
      rw [Int64.lt_iff_toInt_lt] at hlt
      rw [Int64.le_iff_toInt_le, toInt_saturatingSub, show (1 : Int64).toInt = 1 from rfl]
      omega
    obtain ⟨range, hrange, -, hbefore, hbehind, -⟩ := queryEnvelope_fixed hr hstart hlt
    exact {
      bucket := hshard.of_shard hr
      shard := hshard
      grouped := by
        intro buckets now shards hshards shard hmem b hb hbt
        obtain ⟨-, hof, -⟩ := (mem_rollupShards_fixed hshards).mp hmem
        rw [hof, bucketsOf, List.mem_filter, decide_eq_true_eq, hbt] at hb
        rw [← hb.2.1]
        exact ⟨hshard.le, hshard.lt⟩
      completed := by
        refine ⟨alignDown t (shardWidth r), ?_, hshard.le, hshard.lt⟩
        rw [latestCompletedShardEnd, (fixedShardWidth_eq_ok).mpr ⟨hr, rfl⟩]
        rfl
      ends := ⟨hstart, hstart.mono hr hlast⟩
      envelope := ⟨range, hrange, hbefore, hbehind⟩
      range := fun buckets a b ha hab hb => fixedRange_of_wider hr hstart ha hab hb buckets
      query := fun s history seriesId a b narrow wide hrun ha hb =>
        query_of_wider hr hstart hrun ha hb }

/-- However an answer is put together from rollups and raw points, its buckets are in order,
and none of them comes twice. -/
theorem Store.Run.queryGauge_ordered {s : Store} {history : List Point} (h : Run s history)
    {seriesId : UInt64} {start stop : Int64} {resolution : RollupResolution}
    (htiles : resolution.Tiles) {range : Int64 × Int64}
    (hrange : queryEnvelope start stop resolution = .ok range) (hlt : range.1 < range.2)
    {answer : RollupQuery} (hquery : s.queryGauge seriesId start stop resolution = .ok answer) :
    answer.buckets.Pairwise fun a b => a.start < b.start := by
  obtain ⟨latest, -, hlatest⟩ := h.carries.answers.exists_latest seriesId
  obtain ⟨-, _, -, _, hrange', hanswer⟩ := queryGauge_eq_ok h.tidy htiles hlatest hquery
  obtain rfl := Except.ok.inj (hrange.symm.trans hrange')
  obtain ⟨hassembled⟩ := hanswer hlt
  exact hassembled.ordered h.tidy htiles hlt

end Alignment

theorem time_alignment_iff_epoch :
    letI := Jiff.withoutZones
    TimeAlignment 1000000 0 0 1 := by
  let _ := Jiff.withoutZones
  exact (time_alignment_iff (by decide) (by decide)).mpr ⟨by decide, by decide⟩

/-- A gauge with one reading at the epoch. -/
def oneReading : Transaction where
  records := [.entity ⟨1, "site", "home", none, 0, none, ∅⟩,
    .series ⟨7, some 1, none, "load", "power", "W", .gauge, none, ⟨none, []⟩⟩,
    .points [.actual 7 0 ⟨0⟩]]

set_option maxRecDepth 20000 in
/-- The reading is found from the epoch on, but not from `i64::MIN` on. -/
theorem time_alignment_minValue :
    letI := Jiff.withoutZones
    ∃ s history, Store.Run s history ∧
      (s.queryGauge 7 0 1 (.fixedMicros 1000000)).map (·.buckets.length) = .ok 1 ∧
      (s.queryGauge 7 Int64.minValue 1 (.fixedMicros 1000000)).map (·.buckets.length) = .ok 0 ∧
      fixedRange 1000000 [.empty 0 1000000] Int64.minValue 1 = none ∧
      Int64.minValue < alignDown Int64.minValue 1000000 ∧
      ¬ TimeAlignment 1000000 Int64.minValue Int64.minValue 1 := by
  let _ := Jiff.withoutZones
  have hcomputed : (Store.openWith {} ⟨.empty, {}⟩ {}).1.map (fun s =>
      let r := s.commit oneReading {}
      (r.1.isOk, (r.2.queryGauge 7 0 1 (.fixedMicros 1000000)).map (·.buckets.length),
        (r.2.queryGauge 7 Int64.minValue 1 (.fixedMicros 1000000)).map (·.buckets.length))) =
      .ok (true, .ok 1, .ok 0) := by
    decide +kernel
  obtain ⟨s, hcreated, hfacts⟩ := map_eq_ok.mp hcomputed
  simp only [Prod.mk.injEq] at hfacts
  obtain ⟨hok, hnarrow, hwide⟩ := hfacts
  have hcommit : ∃ commit, (s.commit oneReading {}).1 = .ok commit := by
    cases hresult : (s.commit oneReading {}).1 with
    | error e =>
      rw [hresult] at hok
      cases hok
    | ok commit => exact ⟨commit, rfl⟩
  obtain ⟨commit, hcommit⟩ := hcommit
  have hrun := (Store.Run.created (Prod.ext hcreated rfl)).commit (Prod.ext hcommit rfl)
  refine ⟨_, _, hrun, hnarrow, hwide, by decide, by decide, fun h => ?_⟩
  exact absurd h.bucket.le (by decide)

set_option maxRecDepth 20000 in
/-- The first day is answered from its rollup file, the second from the raw points. -/
theorem queryGauge_ordered_twoDays :
    letI := Jiff.withoutZones
    ∃ s history answer, Store.Run s history ∧ s.manifest.rollups.length = 1 ∧
      s.queryGauge 7 0 86402000000 (.fixedMicros 1000000) = .ok answer ∧
      answer.source = .hybrid ∧
      answer.buckets.map GaugeBucket.start = [0, 2000000, 86400000000] ∧
      answer.buckets.Pairwise fun a b => a.start < b.start := by
  let _ := Jiff.withoutZones
  have hcomputed : (do
      let s ← (Store.openWith {} ⟨.empty, {}⟩ {}).1
      let _ ← (s.commit Store.twoDays {}).1
      let _ ← ((s.commit Store.twoDays {}).2.maintain 86400000010 {}).1
      let kept := ((s.commit Store.twoDays {}).2.maintain 86400000010 {}).2
      let answer ← kept.queryGauge 7 0 86402000000 (.fixedMicros 1000000)
      .ok (kept.manifest.rollups.length, answer.source, answer.buckets.map GaugeBucket.start)) =
      .ok (1, .hybrid, [0, 2000000, 86400000000]) := by
    decide +kernel
  obtain ⟨s, hcreated, hcomputed⟩ := bind_eq_ok.mp hcomputed
  obtain ⟨_, hcommit, hcomputed⟩ := bind_eq_ok.mp hcomputed
  obtain ⟨_, hmaintain, hcomputed⟩ := bind_eq_ok.mp hcomputed
  obtain ⟨answer, hquery, hanswer⟩ := bind_eq_ok.mp hcomputed
  simp only [Except.ok.injEq, Prod.mk.injEq] at hanswer
  have hrun := ((Store.Run.created (Prod.ext hcreated rfl)).commit (Prod.ext hcommit rfl)).maintain
    (Prod.ext hmaintain rfl)
  exact ⟨_, _, answer, hrun, hanswer.1, hquery, hanswer.2.1, hanswer.2.2,
    hrun.queryGauge_ordered (by trivial) rfl (by decide) hquery⟩

end Ftwdb
