import Ftwdb.Store.Descriptors

/-!
# Gauge queries

`coverage_plan` walks over a range and takes a rollup where one covers the
cursor, or a gap up to the next rollup.  If the candidates are apart, it takes
all of them, and each interval without a rollup lies in one gap (`Walk`).  The
answer is put together from the files of the rollups and the raw answers of the
gaps (`Assembled`), which do not overlap.  So what a query returns for a range,
it returns for every wider one (`queryGauge_of_wider`).
-/

namespace Ftwdb

open Check Signed List StableSort BinarySearch

namespace Store

/-! ## The walk -/

theorem mem_furthest {l : List RollupDescriptor} {d : RollupDescriptor} (h : furthest l = some d) :
    d ∈ l := by
  induction l with
  | nil => cases h
  | cons a l ih =>
    rw [furthest] at h
    split at h
    · next best hbest =>
      split at h
      · rw [← Option.some.inj h]
        exact mem_cons_self
      · exact mem_cons_of_mem _ (ih (by rw [hbest, h]))
    · rw [← Option.some.inj h]
      exact mem_cons_self

theorem furthest_eq_none {l : List RollupDescriptor} (h : furthest l = none) : l = [] := by
  cases l with
  | nil => rfl
  | cons a l =>
    rw [furthest] at h
    split at h
    · split at h <;> cases h
    · cases h

theorem gapEnd_spec (candidates : List RollupDescriptor) (cursor stop : Int64) :
    gapEnd candidates cursor stop ≤ stop ∧
      (∀ c ∈ candidates, cursor < c.start → gapEnd candidates cursor stop ≤ c.start) ∧
      (gapEnd candidates cursor stop = stop ∨
        ∃ c ∈ candidates, cursor < c.start ∧ gapEnd candidates cursor stop = c.start) := by
  have hfilter : gapEnd candidates cursor stop =
      (candidates.filter fun c => decide (cursor < c.start)).foldl
        (fun t c => if c.start < t then c.start else t) stop := by
    rw [gapEnd, foldl_filter]
    congr 1
    funext t c
    by_cases hc : cursor < c.start
    · simp [hc]
    · simp [hc]
  obtain ⟨hall, hfrom⟩ := foldl_least RollupDescriptor.start
    (candidates.filter fun c => decide (cursor < c.start)) stop
  rw [← hfilter] at hall hfrom
  obtain ⟨hle, hall⟩ := forall_mem_cons.mp hall
  refine ⟨hle, fun c hc hlt => hall _ (mem_map_of_mem
    (mem_filter.mpr ⟨hc, decide_eq_true hlt⟩)), ?_⟩
  rcases mem_cons.mp hfrom with heq | hc
  · exact .inl heq
  · obtain ⟨c, hc, heq⟩ := mem_map.mp hc
    obtain ⟨hmem, hlt⟩ := mem_filter.mp hc
    exact .inr ⟨c, hmem, of_decide_eq_true hlt, heq.symm⟩

/-- The plan of a walk from the cursor to the end of a range. -/
inductive Walk (candidates : List RollupDescriptor) (stop : Int64) : Int64 → CoveragePlan → Prop
  | done {cursor : Int64} : ¬ cursor < stop → Walk candidates stop cursor ⟨[], []⟩
  | rollup {cursor next : Int64} {d : RollupDescriptor} {plan : CoveragePlan} : cursor < stop →
      d ∈ candidates → d.start ≤ cursor → cursor < d.stop →
      next.toInt = min d.stop.toInt stop.toInt → Walk candidates stop next plan →
      Walk candidates stop cursor { plan with descriptors := d :: plan.descriptors }
  | gap {cursor next : Int64} {plan : CoveragePlan} : cursor < stop →
      (∀ c ∈ candidates, c.start ≤ cursor → c.stop ≤ cursor) → cursor < next → next ≤ stop →
      (∀ c ∈ candidates, cursor < c.start → next ≤ c.start) →
      (next = stop ∨ ∃ c ∈ candidates, next = c.start) → Walk candidates stop next plan →
      Walk candidates stop cursor { plan with gaps := (cursor, next) :: plan.gaps }

/-- Each round advances, so there are enough of them. -/
theorem coverFrom_walk (candidates : List RollupDescriptor) (stop : Int64) {fuel : Nat}
    {cursor : Int64} (hfuel : stop.toInt - cursor.toInt ≤ fuel) :
    Walk candidates stop cursor (coverFrom candidates stop fuel cursor) := by
  induction fuel generalizing cursor with
  | zero =>
    refine .done ?_
    rw [Int64.lt_iff_toInt_lt]
    omega
  | succ fuel ih =>
    rw [coverFrom]
    split
    · next hlt =>
      have hlt' := Int64.lt_iff_toInt_lt.mp hlt
      split
      · next d hd =>
        obtain ⟨hmem, hcovers⟩ := mem_filter.mp (mem_furthest hd)
        rw [decide_eq_true_eq] at hcovers
        have hcovers' := Int64.lt_iff_toInt_lt.mp hcovers.2
        have hnext : (if d.stop ≤ stop then d.stop else stop).toInt =
            min d.stop.toInt stop.toInt := by
          split
          · next hle =>
            rw [Int64.le_iff_toInt_le] at hle
            omega
          · next hle =>
            rw [Int64.le_iff_toInt_le] at hle
            omega
        exact .rollup hlt hmem hcovers.1 hcovers.2 hnext (ih (by omega))
      · next hnone =>
        have hnil := furthest_eq_none hnone
        rw [filter_eq_nil_iff] at hnil
        obtain ⟨hle, hall, hfrom⟩ := gapEnd_spec candidates cursor stop
        have hadvance : cursor < gapEnd candidates cursor stop := by
          rcases hfrom with heq | ⟨c, -, hc, heq⟩
          · rwa [heq]
          · rwa [heq]
        have hadvance' := Int64.lt_iff_toInt_lt.mp hadvance
        refine .gap hlt (fun c hc hstart => ?_) hadvance hle hall ?_ (ih (by omega))
        · have hnot := hnil c hc
          rw [decide_eq_true_eq, not_and, Std.not_lt] at hnot
          exact hnot hstart
        · exact hfrom.imp_right fun ⟨c, hc, _, heq⟩ => ⟨c, hc, heq⟩
    · next hge => exact .done hge

/-- Candidates that are apart from each other. -/
structure Spread (candidates : List RollupDescriptor) : Prop where
  lt : ∀ c ∈ candidates, c.start.toInt < c.stop.toInt
  apart : ∀ c ∈ candidates, ∀ d ∈ candidates, c ≠ d →
    c.stop.toInt ≤ d.start.toInt ∨ d.stop.toInt ≤ c.start.toInt

namespace Walk

variable {candidates : List RollupDescriptor} {stop cursor : Int64} {plan : CoveragePlan}

/-- The walk takes exactly the candidates that reach behind the cursor. -/
theorem mem_descriptors (h : Walk candidates stop cursor plan) (hspread : Spread candidates)
    {d : RollupDescriptor} : d ∈ plan.descriptors ↔ d ∈ candidates ∧
      cursor.toInt < d.stop.toInt ∧ d.start.toInt < stop.toInt ∧ cursor.toInt < stop.toInt := by
  induction h with
  | done hge =>
    rw [Int64.lt_iff_toInt_lt] at hge
    simp [hge]
  | @rollup cursor next c plan hlt hc hstart hstop hnext _ ih =>
    rw [Int64.lt_iff_toInt_lt] at hlt hstop
    rw [Int64.le_iff_toInt_le] at hstart
    rw [mem_cons, ih]
    constructor
    · rintro (rfl | ⟨hd, hrest⟩)
      · exact ⟨hc, by omega⟩
      · exact ⟨hd, by omega⟩
    · rintro ⟨hd, hrest⟩
      by_cases heq : d = c
      · exact .inl heq
      · have hapart := hspread.apart d hd c hc heq
        have hwidth := hspread.lt d hd
        exact .inr ⟨hd, by omega⟩
  | @gap cursor next plan hlt hfree hadvance hle hnext _ _ ih =>
    rw [Int64.lt_iff_toInt_lt] at hlt hadvance
    rw [Int64.le_iff_toInt_le] at hle
    rw [ih]
    refine and_congr_right fun hd => ?_
    have hwidth := hspread.lt d hd
    have hbefore := hfree d hd
    have hbehind := hnext d hd
    rw [Int64.le_iff_toInt_le, Int64.le_iff_toInt_le] at hbefore
    rw [Int64.lt_iff_toInt_lt, Int64.le_iff_toInt_le] at hbehind
    omega

/-- No candidate reaches into a gap. -/
theorem gap_free (h : Walk candidates stop cursor plan) {gap : Int64 × Int64}
    (hgap : gap ∈ plan.gaps) : cursor.toInt ≤ gap.1.toInt ∧ gap.1.toInt < gap.2.toInt ∧
      gap.2.toInt ≤ stop.toInt ∧
      ∀ c ∈ candidates, c.stop.toInt ≤ gap.1.toInt ∨ gap.2.toInt ≤ c.start.toInt := by
  induction h with
  | done => cases hgap
  | @rollup cursor next c plan hlt hc hstart hstop hnext _ ih =>
    rw [Int64.lt_iff_toInt_lt] at hlt hstop
    obtain ⟨hfrom, hrest⟩ := ih hgap
    exact ⟨by omega, hrest⟩
  | @gap cursor next plan hlt hfree hadvance hle hnext _ _ ih =>
    rw [Int64.lt_iff_toInt_lt] at hadvance
    rw [Int64.le_iff_toInt_le] at hle
    rcases mem_cons.mp hgap with rfl | hgap
    · refine ⟨le_rfl, hadvance, hle, fun c hc => ?_⟩
      have hbefore := hfree c hc
      have hbehind := hnext c hc
      rw [Int64.le_iff_toInt_le, Int64.le_iff_toInt_le] at hbefore
      rw [Int64.lt_iff_toInt_lt, Int64.le_iff_toInt_le] at hbehind
      show c.stop.toInt ≤ cursor.toInt ∨ next.toInt ≤ c.start.toInt
      omega
    · obtain ⟨hfrom, hrest⟩ := ih hgap
      exact ⟨by omega, hrest⟩

/-- An interval that no candidate reaches into lies in one gap. -/
theorem exists_gap (h : Walk candidates stop cursor plan) (hspread : Spread candidates) {p q : ℤ}
    (hp : cursor.toInt ≤ p) (hpq : p < q) (hq : q ≤ stop.toInt)
    (hfree : ∀ c ∈ candidates, c.stop.toInt ≤ p ∨ q ≤ c.start.toInt) :
    ∃ gap ∈ plan.gaps, gap.1.toInt ≤ p ∧ q ≤ gap.2.toInt := by
  induction h with
  | done hge =>
    rw [Int64.lt_iff_toInt_lt] at hge
    omega
  | @rollup cursor next c plan hlt hc hstart hstop hnext _ ih =>
    have hwidth := hspread.lt c hc
    have hoff := hfree c hc
    rw [Int64.le_iff_toInt_le] at hstart
    exact ih (by omega)
  | @gap cursor next plan hlt _ hadvance hle _ hend _ ih =>
    by_cases hbefore : p < next.toInt
    · refine ⟨(cursor, next), mem_cons_self, hp, ?_⟩
      rcases hend with rfl | ⟨c, hc, rfl⟩
      · exact hq
      · have hwidth := hspread.lt c hc
        have hoff := hfree c hc
        show q ≤ c.start.toInt
        omega
    · obtain ⟨gap, hgap, hwithin⟩ := ih (by omega)
      exact ⟨gap, mem_cons_of_mem _ hgap, hwithin⟩

theorem gaps_apart (h : Walk candidates stop cursor plan) :
    plan.gaps.Pairwise fun a b => a.2.toInt ≤ b.1.toInt := by
  induction h with
  | done => exact .nil
  | rollup _ _ _ _ _ _ ih => exact ih
  | gap _ _ _ _ _ _ hrest ih =>
    exact pairwise_cons.mpr ⟨fun gap hgap => (hrest.gap_free hgap).1, ih⟩

/-- A rollup is not taken twice. -/
theorem descriptors_nodup (h : Walk candidates stop cursor plan) (hspread : Spread candidates) :
    plan.descriptors.Nodup := by
  induction h with
  | done => exact .nil
  | @rollup cursor next d plan hlt hd hstart hstop hnext hrest ih =>
    refine nodup_cons.mpr ⟨fun hmem => ?_, ih⟩
    have hagain := (hrest.mem_descriptors hspread).mp hmem
    omega
  | gap _ _ _ _ _ _ _ ih => exact ih

/-- A walk that finds no rollup is one gap. -/
theorem gaps_of_no_descriptors (h : Walk candidates stop cursor plan)
    (hspread : Spread candidates) (hnone : plan.descriptors = []) (hlt : cursor < stop) :
    plan.gaps = [(cursor, stop)] := by
  cases h with
  | done hge => exact absurd hlt hge
  | rollup => cases hnone
  | @gap _ next plan _ _ _ hle _ hend hrest =>
    have hstop : ¬ next < stop := by
      intro hbefore
      rcases hend with rfl | ⟨c, hc, rfl⟩
      · exact Std.lt_irrefl hbefore
      · have hmem := (hrest.mem_descriptors hspread (d := c)).mpr
          ⟨hc, hspread.lt c hc, Int64.lt_iff_toInt_lt.mp hbefore, Int64.lt_iff_toInt_lt.mp hbefore⟩
        rw [show plan.descriptors = [] from hnone] at hmem
        cases hmem
    have heq : next = stop := Std.le_antisymm hle (Std.not_lt.mp hstop)
    cases hrest with
    | done => rw [heq]
    | rollup hlt' => exact absurd hlt' hstop
    | gap hlt' => exact absurd hlt' hstop

end Walk

/-! ## Parts of an answer -/

/-- A later start leaves out more. -/
theorem dropWhile_suffix_of_imp {α : Type} {p q : α → Bool} (h : ∀ a, p a = true → q a = true)
    (l : List α) : l.dropWhile q <:+ l.dropWhile p := by
  induction l with
  | nil => exact suffix_rfl
  | cons a l ih =>
    cases hp : p a with
    | true => rwa [dropWhile_cons_of_pos (h a hp), dropWhile_cons_of_pos hp]
    | false =>
      rw [dropWhile_cons_of_neg (p := p) (by simp [hp])]
      exact dropWhile_suffix q

theorem queryRollup_sublist (content : List GaugeBucket) (start stop : Int64) :
    (queryRollup content start stop).Sublist content :=
  (takeWhile_sublist _).trans (dropWhile_sublist _)

theorem mem_queryRollup_of_wider {content : List GaugeBucket}
    (hordered : content.Pairwise fun a b => a.start < b.start) {a b start stop : Int64}
    (hstart : start ≤ a) (hstop : b ≤ stop) {x : GaugeBucket} (hx : x ∈ queryRollup content a b) :
    x ∈ queryRollup content start stop := by
  -- the file is in the order of the starts, so the end of a query only filters
  have htake : ∀ t u : Int64, queryRollup content t u =
      (content.dropWhile fun b => decide (b.stop ≤ t)).filter fun b => decide (b.start < u) := by
    intro t u
    refine (Partitioned.takeWhile_eq_filter ?_).1
    refine (hordered.sublist (dropWhile_sublist _)).imp ?_
    intro c d hcd hd
    exact decide_eq_true (Std.lt_trans hcd (of_decide_eq_true hd))
  rw [htake, mem_filter, decide_eq_true_eq] at hx ⊢
  have hsuffix := dropWhile_suffix_of_imp (p := fun b : GaugeBucket => decide (b.stop ≤ start))
    (q := fun b => decide (b.stop ≤ a))
    (fun b hb => decide_eq_true (Std.le_trans (of_decide_eq_true hb) hstart)) content
  exact ⟨hsuffix.subset hx.1, Std.lt_of_lt_of_le hx.2 hstop⟩

theorem within_sublist {start stop : Int64} {buckets part : List GaugeBucket}
    (h : Within start stop buckets) (hsub : part.Sublist buckets) : Within start stop part :=
  ⟨h.ordered.sublist hsub, fun b hb => h.lt b (hsub.subset hb),
    fun b hb => h.inside b (hsub.subset hb)⟩

/-- The order of the buckets of an answer. -/
def byStart (a b : GaugeBucket) : Bool := decide (a.start ≤ b.start)

theorem byStart_preorder : TotalPreorder byStart where
  trans hab hbc := decide_eq_true (Std.le_trans (of_decide_eq_true hab) (of_decide_eq_true hbc))
  total a b := by
    rw [byStart, byStart, decide_eq_true_eq, decide_eq_true_eq]
    exact Std.le_total

/-- Parts whose bounds are apart, put together in order. -/
theorem ordered_of_apart {α : Type} (bounds : α → Int64 × Int64) {part : α → List GaugeBucket}
    {l : List α} (hwithin : ∀ a ∈ l, Within (bounds a).1 (bounds a).2 (part a))
    (hapart : l.Pairwise fun a b => (bounds a).2.toInt ≤ (bounds b).1.toInt ∨
      (bounds b).2.toInt ≤ (bounds a).1.toInt) :
    (stableSort byStart (l.flatMap part)).Pairwise fun a b => a.start < b.start := by
  have hne : (l.flatMap part).Pairwise fun a b => a.start ≠ b.start := by
    refine pairwise_flatMap.mpr ⟨fun a ha => ?_, hapart.imp_of_mem ?_⟩
    · exact (hwithin a ha).ordered.imp Std.ne_of_lt
    · intro a b ha hb hab x hx y hy heq
      have hxlt := Int64.lt_iff_toInt_lt.mp ((hwithin a ha).lt x hx)
      have hylt := Int64.lt_iff_toInt_lt.mp ((hwithin b hb).lt y hy)
      have hxin := inside_iff.mp ((hwithin a ha).inside x hx)
      have hyin := inside_iff.mp ((hwithin b hb).inside y hy)
      rw [heq] at hxlt hxin
      omega
  have hsorted := sorted_stableSort byStart_preorder (l.flatMap part)
  have hdistinct := ((stableSort_perm byStart (l.flatMap part)).pairwise_iff
    (R := fun a b : GaugeBucket => a.start ≠ b.start) Ne.symm).mpr hne
  exact (hsorted.and hdistinct).imp fun h => Std.lt_of_le_of_ne (of_decide_eq_true h.1) h.2

section Queries

variable {s : Store} {seriesId : UInt64} {resolution : RollupResolution}

theorem mem_candidates {range : Int64 × Int64} {d : RollupDescriptor} :
    d ∈ s.candidates seriesId resolution range ↔ d ∈ s.manifest.rollups ∧
      (d.active = true ∧ d.seriesId = seriesId ∧ d.resolution = resolution) ∧
      d.sourcePoints = s.database.statPoints ∧
      d.start.toInt < range.2.toInt ∧ range.1.toInt < d.stop.toInt := by
  rw [candidates, mem_filter, Bool.and_eq_true, Bool.and_eq_true, isActiveOf_iff,
    rangesOverlap, decide_eq_true_eq, decide_eq_true_eq, Int64.lt_iff_toInt_lt,
    Int64.lt_iff_toInt_lt, and_assoc]

theorem coveragePlan_walk (candidates : List RollupDescriptor) (range : Int64 × Int64) :
    Walk (stableSort byBounds candidates) range.2 range.1
      (coveragePlan candidates range.1 range.2) :=
  coverFrom_walk _ _ (Int.self_le_toNat _)

variable [Jiff] {latest : List Point} {g start stop : Int64}

theorem within_rawRange (htiles : resolution.Tiles) {part : List GaugeBucket}
    (h : rawRange latest resolution g start stop = .ok part) : Within start stop part := by
  obtain ⟨buckets, hbuckets, hrest⟩ := bind_eq_ok.mp h
  cases hrest
  obtain ⟨-, htiling, hrolled⟩ := materialize_eq_ok htiles hbuckets
  refine ⟨hrolled.ordered.filter _, fun b hb => ?_, fun b hb => (mem_filter.mp hb).2⟩
  exact htiling.lt (hrolled.of_mem (mem_filter.mp hb).1).1

/-- The answer of a plan: the rollups from their files, the gaps from the raw points. -/
structure Assembled (s : Store) (resolution : RollupResolution) (g : Int64) (latest : List Point)
    (start stop : Int64) (plan : CoveragePlan) (buckets : List GaugeBucket) where
  file : RollupDescriptor → List GaugeBucket
  raw : Int64 × Int64 → List GaugeBucket
  files : ∀ d ∈ plan.descriptors, openRollup s.directory.rollups d.file = .ok (file d)
  raws : ∀ gap ∈ plan.gaps, rawRange latest resolution g gap.1 gap.2 = .ok (raw gap)
  sorted : buckets = stableSort byStart
    (plan.descriptors.flatMap (fun d => queryRollup (file d) start stop) ++ plan.gaps.flatMap raw)

theorem candidates_spread (h : s.Tidy) (htiles : resolution.Tiles) (range : Int64 × Int64) :
    Spread (stableSort byBounds (s.candidates seriesId resolution range)) := by
  constructor
  · intro c hc
    obtain ⟨hmem, ⟨hactive, -, hres⟩, -⟩ := mem_candidates.mp (mem_stableSort.mp hc)
    exact Int64.lt_iff_toInt_lt.mp (h.lt c hmem hactive (hres ▸ htiles))
  · intro c hc d hd hne
    obtain ⟨hcmem, ⟨hcactive, hcseries, hcres⟩, -⟩ := mem_candidates.mp (mem_stableSort.mp hc)
    obtain ⟨hdmem, ⟨hdactive, hdseries, hdres⟩, -⟩ := mem_candidates.mp (mem_stableSort.mp hd)
    have : Std.Symm RollupDescriptor.Apart := by
      refine ⟨fun a b hab hb ha hseries hres => ?_⟩
      exact (hab ha hb hseries.symm hres.symm).symm
    have hapart := h.apart.forall hcmem hdmem hne hcactive hdactive
      (hcseries.trans hdseries.symm) (hcres.trans hdres.symm)
    rwa [Int64.le_iff_toInt_le, Int64.le_iff_toInt_le] at hapart

/-- A query is answered from its plan, whichever way it takes. -/
theorem queryGauge_eq_ok (htidy : s.Tidy) (htiles : resolution.Tiles)
    (hlatest : ∀ start stop,
      s.database.queryLatest seriesId start stop = latest.filter (inRange start stop))
    {answer : RollupQuery} (h : s.queryGauge seriesId start stop resolution = .ok answer) :
    start < stop ∧ ∃ definition, s.database.catalog.series[seriesId]? = some definition ∧
      ∃ range, queryEnvelope start stop resolution = .ok range ∧ (range.1 < range.2 →
        Nonempty (Assembled s resolution (definition.maximumGapMicros.getD 0) latest start stop
          (coveragePlan (s.candidates seriesId resolution range) range.1 range.2)
          answer.buckets)) := by
  obtain ⟨_, -, h⟩ := bind_eq_ok.mp h
  obtain ⟨_, hrange, h⟩ := bind_eq_ok.mp h
  obtain ⟨definition, hdefinition, h⟩ := bind_eq_ok.mp h
  obtain ⟨_, -, h⟩ := bind_eq_ok.mp h
  obtain ⟨range, henvelope, h⟩ := bind_eq_ok.mp h
  rw [failIf_eq_ok, Std.not_le] at hrange
  have hdefined : s.database.catalog.series[seriesId]? = some definition := by
    cases hget : s.database.catalog.series[seriesId]? with
    | none =>
      rw [hget] at hdefinition
      cases hdefinition
    | some d =>
      rw [hget] at hdefinition
      rw [Except.ok.inj hdefinition]
  refine ⟨hrange, definition, hdefined, range, henvelope, fun hlt => ?_⟩
  simp only [materializeRawRange_eq hlatest] at h
  generalize hplan :
    coveragePlan (s.candidates seriesId resolution range) range.1 range.2 = plan at h
  split at h
  · next hsome =>
    obtain ⟨covered, hcovered, h⟩ := bind_eq_ok.mp h
    obtain ⟨gaps, hgaps, h⟩ := bind_eq_ok.mp h
    obtain ⟨parts, hparts, rfl⟩ := map_eq_ok.mp hcovered
    obtain ⟨part, hpart, rfl⟩ := exists_map_of_mapM hparts
    obtain ⟨raw, hraw, rfl⟩ := exists_map_of_mapM hgaps
    cases h
    choose! file hfile hquery using fun d hd => map_eq_ok.mp (hpart d hd)
    refine ⟨file, raw, hfile, hraw, ?_⟩
    rw [flatMap_def, flatMap_def, map_congr_left hquery]
    rfl
  · next hnone =>
    rw [not_not] at hnone
    obtain ⟨buckets, hbuckets, h⟩ := bind_eq_ok.mp h
    cases h
    have hwalk := coveragePlan_walk (s.candidates seriesId resolution range) range
    rw [hplan] at hwalk
    have hgaps := hwalk.gaps_of_no_descriptors (candidates_spread htidy htiles range) hnone hlt
    refine ⟨fun _ => [], fun _ => buckets, ?_, ?_, ?_⟩
    · simp [hnone]
    · simpa [hgaps] using hbuckets
    · have hordered : Sorted byStart buckets := (within_rawRange htiles hbuckets).ordered.imp
        fun hab => decide_eq_true (Std.le_of_lt hab)
      rw [hnone, hgaps, flatMap_nil, nil_append, flatMap_singleton,
        stableSort_of_sorted byStart_preorder hordered]

/-- The plan of a query takes every candidate. -/
theorem mem_coveragePlan (htidy : s.Tidy) (htiles : resolution.Tiles) {range : Int64 × Int64}
    (hlt : range.1 < range.2) {d : RollupDescriptor} :
    d ∈ (coveragePlan (s.candidates seriesId resolution range) range.1 range.2).descriptors ↔
      d ∈ s.candidates seriesId resolution range := by
  rw [(coveragePlan_walk _ range).mem_descriptors (candidates_spread htidy htiles range),
    mem_stableSort]
  refine and_iff_left_of_imp fun hd => ?_
  obtain ⟨-, -, -, hoverlap⟩ := mem_candidates.mp hd
  exact ⟨hoverlap.2, hoverlap.1, Int64.lt_iff_toInt_lt.mp hlt⟩

namespace Assembled

variable {range : Int64 × Int64} {buckets : List GaugeBucket}

theorem mem_iff {plan : CoveragePlan}
    (h : Assembled s resolution g latest start stop plan buckets) {b : GaugeBucket} :
    b ∈ buckets ↔ (∃ d ∈ plan.descriptors, b ∈ queryRollup (h.file d) start stop) ∨
      ∃ gap ∈ plan.gaps, b ∈ h.raw gap := by
  conv_lhs => rw [h.sorted]
  rw [mem_stableSort, mem_append, mem_flatMap, mem_flatMap]

theorem within_file
    (h : Assembled s resolution g latest start stop
      (coveragePlan (s.candidates seriesId resolution range) range.1 range.2) buckets)
    (htidy : s.Tidy) (htiles : resolution.Tiles) (hlt : range.1 < range.2) {d : RollupDescriptor}
    (hd : d ∈ (coveragePlan (s.candidates seriesId resolution range) range.1 range.2).descriptors) :
    Within d.start d.stop (h.file d) := by
  obtain ⟨hmem, ⟨hactive, -, hres⟩, -⟩ :=
    mem_candidates.mp ((mem_coveragePlan htidy htiles hlt).mp hd)
  obtain ⟨content, hcontent, hwithin⟩ := htidy.filed d hmem hactive (hres ▸ htiles)
  have hfile := h.files d hd
  rw [openRollup, hcontent] at hfile
  rwa [← Except.ok.inj hfile]

/-- Rollups and gaps do not overlap, so no two buckets of an answer start together. -/
theorem ordered
    (h : Assembled s resolution g latest start stop
      (coveragePlan (s.candidates seriesId resolution range) range.1 range.2) buckets)
    (htidy : s.Tidy) (htiles : resolution.Tiles) (hlt : range.1 < range.2) :
    buckets.Pairwise fun a b => a.start < b.start := by
  have hfile := fun {d} => h.within_file htidy htiles hlt (d := d)
  have hwalk := coveragePlan_walk (s.candidates seriesId resolution range) range
  have hspread : Spread (stableSort byBounds (s.candidates seriesId resolution range)) :=
    candidates_spread htidy htiles range
  generalize coveragePlan (s.candidates seriesId resolution range) range.1 range.2 = plan at *
  let parts : List (RollupDescriptor ⊕ Int64 × Int64) :=
    plan.descriptors.map .inl ++ plan.gaps.map .inr
  have hparts : (plan.descriptors.flatMap fun d => queryRollup (h.file d) start stop) ++
      plan.gaps.flatMap h.raw =
      parts.flatMap (Sum.elim (fun d => queryRollup (h.file d) start stop) h.raw) := by
    simp [parts, flatMap_map]
  have hsorted := h.sorted
  rw [hparts] at hsorted
  rw [hsorted]
  refine ordered_of_apart (Sum.elim (fun d => (d.start, d.stop)) id) ?_ ?_
  · intro part hpart
    rcases mem_append.mp hpart with hpart | hpart
    · obtain ⟨d, hd, rfl⟩ := mem_map.mp hpart
      exact within_sublist (hfile hd) (queryRollup_sublist ..)
    · obtain ⟨gap, hgap, rfl⟩ := mem_map.mp hpart
      exact within_rawRange htiles (h.raws gap hgap)
  · refine pairwise_append.mpr ⟨?_, ?_, ?_⟩
    · refine pairwise_map.mpr ((hwalk.descriptors_nodup hspread).imp_of_mem ?_)
      intro d d' hd hd' hne
      exact hspread.apart d ((hwalk.mem_descriptors hspread).mp hd).1 d'
        ((hwalk.mem_descriptors hspread).mp hd').1 hne
    · exact pairwise_map.mpr (hwalk.gaps_apart.imp .inl)
    · intro part hpart part' hpart'
      obtain ⟨d, hd, rfl⟩ := mem_map.mp hpart
      obtain ⟨gap, hgap, rfl⟩ := mem_map.mp hpart'
      exact (hwalk.gap_free hgap).2.2.2 d ((hwalk.mem_descriptors hspread).mp hd).1

end Assembled

/-- What a query returns for a range, it returns for every wider one.  A gap of the
narrow query has no rollup, so it lies in a gap of the wide one. -/
theorem queryGauge_of_wider (htidy : s.Tidy) (htiles : resolution.Tiles)
    (hlatest : ∀ start stop,
      s.database.queryLatest seriesId start stop = latest.filter (inRange start stop))
    {a b : Int64} (hstart : start ≤ a) (hstop : b ≤ stop)
    (henvelope : ∀ inner outer, queryEnvelope a b resolution = .ok inner →
      queryEnvelope start stop resolution = .ok outer →
        outer.1 ≤ inner.1 ∧ inner.1 < inner.2 ∧ inner.2 ≤ outer.2)
    {narrow wide : RollupQuery} (hnarrow : s.queryGauge seriesId a b resolution = .ok narrow)
    (hwide : s.queryGauge seriesId start stop resolution = .ok wide) :
    narrow.buckets.Sublist wide.buckets := by
  obtain ⟨-, definition, hdefinition, inner, hinner, hnarrow⟩ :=
    queryGauge_eq_ok htidy htiles hlatest hnarrow
  obtain ⟨-, definition', hdefinition', outer, houter, hwide⟩ :=
    queryGauge_eq_ok htidy htiles hlatest hwide
  obtain rfl := Option.some.inj (hdefinition.symm.trans hdefinition')
  obtain ⟨hlow, hlt, hhigh⟩ := henvelope inner outer hinner houter
  have hlt' : outer.1 < outer.2 := Std.lt_of_le_of_lt hlow (Std.lt_of_lt_of_le hlt hhigh)
  obtain ⟨hnarrow⟩ := hnarrow hlt
  obtain ⟨hwide⟩ := hwide hlt'
  rw [Int64.le_iff_toInt_le] at hlow hhigh
  have hcandidates : ∀ {d : RollupDescriptor}, d ∈ s.candidates seriesId resolution inner ↔
      d ∈ s.candidates seriesId resolution outer ∧ d.start.toInt < inner.2.toInt ∧
        inner.1.toInt < d.stop.toInt := by
    intro d
    rw [mem_candidates, mem_candidates]
    constructor
    · rintro ⟨hmem, hof, hpoints, hoverlap⟩
      exact ⟨⟨hmem, hof, hpoints, by omega⟩, hoverlap⟩
    · rintro ⟨⟨hmem, hof, hpoints, -⟩, hoverlap⟩
      exact ⟨hmem, hof, hpoints, hoverlap⟩
  have hsubset : ∀ x ∈ narrow.buckets, x ∈ wide.buckets := by
    intro x hx
    rw [hwide.mem_iff]
    rcases hnarrow.mem_iff.mp hx with ⟨d, hd, hx⟩ | ⟨gap, hgap, hx⟩
    · have hd' := (mem_coveragePlan htidy htiles hlt').mpr
        (hcandidates.mp ((mem_coveragePlan htidy htiles hlt).mp hd)).1
      have hfile := Except.ok.inj ((hnarrow.files d hd).symm.trans (hwide.files d hd'))
      rw [hfile] at hx
      exact .inl ⟨d, hd', mem_queryRollup_of_wider
        (hwide.within_file htidy htiles hlt' hd').ordered hstart hstop hx⟩
    · obtain ⟨hfrom, hwidth, hto, hfree⟩ := (coveragePlan_walk _ inner).gap_free hgap
      have hfree' : ∀ d ∈ stableSort byBounds (s.candidates seriesId resolution outer),
          d.stop.toInt ≤ gap.1.toInt ∨ gap.2.toInt ≤ d.start.toInt := by
        intro d hd
        by_cases hinside : d.start.toInt < inner.2.toInt ∧ inner.1.toInt < d.stop.toInt
        · exact hfree d (mem_stableSort.mpr (hcandidates.mpr ⟨mem_stableSort.mp hd, hinside⟩))
        · omega
      obtain ⟨gap', hgap', hlow', hhigh'⟩ := (coveragePlan_walk _ outer).exists_gap
        (candidates_spread htidy htiles outer) (by omega) hwidth (by omega) hfree'
      have hpart := rawRange_of_wider htiles (Int64.le_iff_toInt_le.mpr hlow')
        (Int64.le_iff_toInt_le.mpr hhigh') (hnarrow.raws gap hgap) (hwide.raws gap' hgap')
      rw [hpart] at hx
      exact .inr ⟨gap', hgap', (mem_filter.mp hx).1⟩
  have hfilter : narrow.buckets = wide.buckets.filter fun x => decide (x ∈ narrow.buckets) := by
    refine eq_of_ordered (hnarrow.ordered htidy htiles hlt)
      ((hwide.ordered htidy htiles hlt').filter _) fun x => ?_
    rw [mem_filter, decide_eq_true_eq]
    exact ⟨fun hx => ⟨hsubset x hx, hx⟩, And.right⟩
  rw [hfilter]
  exact filter_sublist

end Queries

end Store

end Ftwdb
