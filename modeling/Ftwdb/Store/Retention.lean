import Ftwdb.Store.GaugeQuery

/-!
# Coverage plans and retention gates

`retention_gates` reports for each series with a raw retention whether its raw
points below the cutoff may go.  It says yes only if every tier has rollups over
all of them, which it finds out with a coverage plan.

What a plan says about a range is read off the walk that makes it
(`PlanSound`): the rollups it takes and the gaps it leaves fill the range, the
gaps are those of the candidates, and where the candidates do not overlap
nothing is counted twice.
-/

namespace Ftwdb

open Check List Signed StableSort

/-! ## The gates -/

namespace RollupResolution

/-- The derived `Debug` text.  Names of time zones have no characters that it escapes. -/
def debugText : RollupResolution → String
  | .fixedMicros micros => "FixedMicros(" ++ toString micros.toInt ++ ")"
  | .calendar unit zone =>
    let name := match unit with
      | .day => "Day"
      | .month => "Month"
      | .year => "Year"
    "Calendar \x7b unit: " ++ name ++ ", iana_timezone: \"" ++ zone ++ "\" \x7d"

end RollupResolution

/-- `RetentionGate`. -/
structure RetentionGate where
  seriesId : UInt64
  rawBefore : Int64
  eligible : Bool
  reason : String
deriving DecidableEq

namespace Store

/-- `covering_descriptors`: a plan without gaps. -/
def coveringDescriptors (candidates : List RollupDescriptor) (start stop : Int64) :
    Option (List RollupDescriptor) :=
  let plan := coveragePlan candidates start stop
  if plan.gaps = [] then some plan.descriptors else none

/-- The rollups of a tier that count as durable. -/
def currentRollups (s : Store) (seriesId : UInt64) (resolution : RollupResolution) :
    List RollupDescriptor :=
  s.manifest.rollups.filter fun d =>
    isActiveOf seriesId resolution d && decide (d.sourcePoints = s.database.statPoints)

/-- The decision on a series whose raw points are kept for `retention`. -/
def decideGate (s : Store) (definition : SeriesDefinition) (cutoff : Int64) : Bool × String :=
  match s.database.seriesValidBounds definition.id with
  | none => (true, "no raw points exist")
  | some (oldest, _) =>
    if cutoff ≤ oldest then (true, "no raw points are older than the cutoff")
    else
      let missing := definition.rollupPolicy.tiers.find? fun tier =>
        (coveringDescriptors (s.currentRollups definition.id tier.resolution) oldest
          cutoff).isNone
      match missing with
      | some tier =>
        (false, "durable current " ++ tier.resolution.debugText ++
          " rollup does not cover raw data through the cutoff")
      | none =>
        if definition.rollupPolicy.tiers = [] then
          (false, "raw retention requires at least one durable rollup tier")
        else (true, "all configured durable rollup tiers cover the deletion range")

/-- The gate of one series, if its raw points are not kept forever. -/
def retentionGate (s : Store) (nowMicros : Int64) (definition : SeriesDefinition) :
    Option RetentionGate :=
  definition.rollupPolicy.rawRetainForMicros.map fun retention =>
    let cutoff := saturatingSub nowMicros retention
    let decision := s.decideGate definition cutoff
    ⟨definition.id, cutoff, decision.1, decision.2⟩

/-- `retention_gates`. -/
def retentionGates (s : Store) (nowMicros : Int64) : Except Error (List RetentionGate) := do
  s.ensureHealthy
  .ok (s.database.catalog.series.toList.filterMap fun p => s.retentionGate nowMicros p.2)

/-! ## Plans -/

/-- An instant lies in a half-open interval. -/
def Covers (start stop : Int64) (t : ℤ) : Prop := start.toInt ≤ t ∧ t < stop.toInt

instance (start stop : Int64) (t : ℤ) : Decidable (Covers start stop t) :=
  inferInstanceAs (Decidable (_ ∧ _))

/-- Two rollups without a common instant. -/
def Separate (c d : RollupDescriptor) : Prop :=
  c.stop.toInt ≤ d.start.toInt ∨ d.stop.toInt ≤ c.start.toInt

/-- The parts of a plan that an instant lies in. -/
def CoveragePlan.hits (plan : CoveragePlan) (t : ℤ) : Nat :=
  plan.descriptors.countP (fun d => decide (Covers d.start d.stop t)) +
    plan.gaps.countP fun gap => decide (Covers gap.1 gap.2 t)

/-- What a plan says about a range. -/
structure PlanSound (candidates : List RollupDescriptor) (start stop : Int64)
    (plan : CoveragePlan) : Prop where
  chosen : ∀ d ∈ plan.descriptors, d ∈ candidates
  covered : ∀ t, Covers start stop t →
    (∃ d ∈ plan.descriptors, Covers d.start d.stop t) ∨ ∃ gap ∈ plan.gaps, Covers gap.1 gap.2 t
  gaps_nonempty : ∀ gap ∈ plan.gaps, gap.1.toInt < gap.2.toInt
  gaps_inside : ∀ gap ∈ plan.gaps, start.toInt ≤ gap.1.toInt ∧ gap.2.toInt ≤ stop.toInt
  gaps_ordered : plan.gaps.Pairwise fun gap gap' => gap.2.toInt ≤ gap'.1.toInt
  gaps_free : ∀ gap ∈ plan.gaps, ∀ c ∈ candidates, ∀ t, Covers gap.1 gap.2 t →
    ¬ Covers c.start c.stop t
  exact : candidates.Pairwise Separate → ∀ t, Covers start stop t → plan.hits t = 1
  gaps_nil_iff : plan.gaps = [] ↔
    ∀ t, Covers start stop t → ∃ c ∈ candidates, Covers c.start c.stop t

namespace Walk

variable {candidates : List RollupDescriptor} {stop cursor : Int64} {plan : CoveragePlan}

theorem chosen (h : Walk candidates stop cursor plan) : ∀ d ∈ plan.descriptors, d ∈ candidates := by
  induction h with
  | done => exact nofun
  | rollup _ hc _ _ _ _ ih => exact forall_mem_cons.mpr ⟨hc, ih⟩
  | gap _ _ _ _ _ _ _ ih => exact ih

/-- The walk leaves nothing out. -/
theorem covered (h : Walk candidates stop cursor plan) {t : ℤ} (ht : Covers cursor stop t) :
    (∃ d ∈ plan.descriptors, Covers d.start d.stop t) ∨
      ∃ gap ∈ plan.gaps, Covers gap.1 gap.2 t := by
  obtain ⟨hfrom, hto⟩ := ht
  induction h with
  | done hge =>
    rw [Int64.lt_iff_toInt_lt] at hge
    omega
  | @rollup cursor next d plan hlt hd hstart hstop hnext _ ih =>
    rw [Int64.le_iff_toInt_le] at hstart
    by_cases hin : t < next.toInt
    · exact .inl ⟨d, mem_cons_self, by omega, by omega⟩
    · rcases ih (by omega) with ⟨c, hc, hcovers⟩ | hgap
      · exact .inl ⟨c, mem_cons_of_mem _ hc, hcovers⟩
      · exact .inr hgap
  | @gap cursor next plan hlt _ hadvance hle _ _ _ ih =>
    by_cases hin : t < next.toInt
    · exact .inr ⟨(cursor, next), mem_cons_self, hfrom, hin⟩
    · rcases ih (by omega) with hd | ⟨gap, hgap, hcovers⟩
      · exact .inl hd
      · exact .inr ⟨gap, mem_cons_of_mem _ hgap, hcovers⟩

theorem gaps_ordered (h : Walk candidates stop cursor plan) :
    plan.gaps.Pairwise fun gap gap' => gap.2.toInt ≤ gap'.1.toInt := by
  induction h with
  | done => exact .nil
  | rollup _ _ _ _ _ _ ih => exact ih
  | gap _ _ _ _ _ _ hwalk ih =>
    exact pairwise_cons.mpr ⟨fun gap hgap => (hwalk.gap_free hgap).1, ih⟩

/-- An instant before the cursor is in none of the gaps. -/
theorem countP_gaps_of_lt (h : Walk candidates stop cursor plan) {t : ℤ} (ht : t < cursor.toInt) :
    plan.gaps.countP (fun gap => decide (Covers gap.1 gap.2 t)) = 0 := by
  rw [countP_eq_zero]
  intro gap hgap hcovers
  have hfrom := (h.gap_free hgap).1
  obtain ⟨hstart, -⟩ := of_decide_eq_true hcovers
  omega

/-- Where the candidates are apart, the walk meets every instant once. -/
theorem hits_eq_one (h : Walk candidates stop cursor plan) (hspread : Spread candidates) {t : ℤ}
    (ht : Covers cursor stop t) : plan.hits t = 1 := by
  obtain ⟨hfrom, hto⟩ := ht
  induction h with
  | done hge =>
    rw [Int64.lt_iff_toInt_lt] at hge
    omega
  | @rollup cursor next d plan hlt hd hstart hstop hnext hwalk ih =>
    rw [Int64.le_iff_toInt_le] at hstart
    by_cases hin : t < next.toInt
    · have hgaps := hwalk.countP_gaps_of_lt hin
      have hrest : plan.descriptors.countP (fun d => decide (Covers d.start d.stop t)) = 0 := by
        rw [countP_eq_zero]
        intro c hc hcovers
        obtain ⟨hmem, hbehind, hbefore, hnextlt⟩ := (hwalk.mem_descriptors hspread).mp hc
        obtain ⟨hcstart, hcstop⟩ := of_decide_eq_true hcovers
        have hne : c ≠ d := by
          rintro rfl
          omega
        have hapart := hspread.apart c hmem d hd hne
        omega
      have hself : Covers d.start d.stop t := ⟨by omega, by omega⟩
      simp [CoveragePlan.hits, hrest, hgaps, hself]
    · have hother : ¬ Covers d.start d.stop t := by
        rintro ⟨-, hlt'⟩
        omega
      have hrest := ih (by omega)
      simpa [CoveragePlan.hits, hother] using hrest
  | @gap cursor next plan hlt hfree hadvance hle hnext hend hwalk ih =>
    by_cases hin : t < next.toInt
    · have hgaps := hwalk.countP_gaps_of_lt hin
      have hrest : plan.descriptors.countP (fun d => decide (Covers d.start d.stop t)) = 0 := by
        rw [countP_eq_zero]
        intro c hc hcovers
        have hmem := hwalk.chosen c hc
        obtain ⟨hcstart, hcstop⟩ := of_decide_eq_true hcovers
        have hbefore := hfree c hmem
        have hbehind := hnext c hmem
        rw [Int64.le_iff_toInt_le, Int64.le_iff_toInt_le] at hbefore
        rw [Int64.lt_iff_toInt_lt, Int64.le_iff_toInt_le] at hbehind
        omega
      have hself : Covers cursor next t := ⟨hfrom, hin⟩
      simp [CoveragePlan.hits, hrest, hgaps, hself]
    · have hother : ¬ Covers cursor next t := fun hcovers => hin hcovers.2
      have hrest := ih (by omega)
      simpa [CoveragePlan.hits, hother] using hrest

theorem gaps_nil_iff (h : Walk candidates stop cursor plan) : plan.gaps = [] ↔
    ∀ t, Covers cursor stop t → ∃ c ∈ candidates, Covers c.start c.stop t := by
  constructor
  · intro hnil t ht
    rcases h.covered ht with ⟨d, hd, hcovers⟩ | ⟨gap, hgap, -⟩
    · exact ⟨d, h.chosen d hd, hcovers⟩
    · rw [hnil] at hgap
      cases hgap
  · intro hall
    cases hgaps : plan.gaps with
    | nil => rfl
    | cons gap rest =>
      have hmem : gap ∈ plan.gaps := by
        rw [hgaps]
        exact mem_cons_self
      obtain ⟨hfrom, hlt, hto, hfree⟩ := h.gap_free hmem
      obtain ⟨c, hc, hcstart, hcstop⟩ := hall gap.1.toInt ⟨hfrom, by omega⟩
      have := hfree c hc
      omega

end Walk

/-- The rounds of a plan suffice. -/
theorem coverFrom_settled (candidates : List RollupDescriptor) (stop : Int64) {fuel : Nat}
    {cursor : Int64} (hfuel : stop.toInt - cursor.toInt ≤ fuel) :
    Settled (fun fuel => coverFrom candidates stop fuel cursor) fuel := by
  intro extra
  show coverFrom candidates stop (fuel + extra) cursor = coverFrom candidates stop fuel cursor
  induction fuel generalizing cursor with
  | zero =>
    have hge : ¬ cursor < stop := by
      rw [Int64.lt_iff_toInt_lt]
      omega
    cases extra with
    | zero => rfl
    | succ extra =>
      rw [Nat.zero_add]
      simp only [coverFrom, hge, if_false]
  | succ fuel ih =>
    rw [Nat.add_right_comm, coverFrom, coverFrom]
    split
    · next hlt =>
      have hlt' := Int64.lt_iff_toInt_lt.mp hlt
      split
      · next d hd =>
        obtain ⟨-, hcovers⟩ := mem_filter.mp (mem_furthest hd)
        have hcovers' := Int64.lt_iff_toInt_lt.mp (of_decide_eq_true hcovers).2
        have hnext : stop.toInt - (if d.stop ≤ stop then d.stop else stop).toInt ≤ fuel := by
          split <;> omega
        simp only [ih hnext]
      · have hadvance : cursor < gapEnd candidates cursor stop := by
          rcases (gapEnd_spec candidates cursor stop).2.2 with heq | ⟨c, -, hc, heq⟩
          · rwa [heq]
          · rwa [heq]
        rw [Int64.lt_iff_toInt_lt] at hadvance
        have hrest := ih (show stop.toInt - (gapEnd candidates cursor stop).toInt ≤ fuel by omega)
        simp only [hrest]
    · rfl

theorem coveragePlan_sound (candidates : List RollupDescriptor) (start stop : Int64)
    (hranges : ∀ c ∈ candidates, c.start < c.stop) :
    PlanSound candidates start stop (coveragePlan candidates start stop) := by
  have hwalk : Walk (stableSort byBounds candidates) stop start
      (coveragePlan candidates start stop) := coverFrom_walk _ stop (by omega)
  have hmem : ∀ c, c ∈ stableSort byBounds candidates ↔ c ∈ candidates := fun _ => mem_stableSort
  exact
    { chosen := fun d hd => (hmem d).mp (hwalk.chosen d hd)
      covered := fun t ht => hwalk.covered ht
      gaps_nonempty := fun gap hgap => (hwalk.gap_free hgap).2.1
      gaps_inside := fun gap hgap => ⟨(hwalk.gap_free hgap).1, (hwalk.gap_free hgap).2.2.1⟩
      gaps_ordered := hwalk.gaps_ordered
      gaps_free := by
        rintro gap hgap c hc t ⟨hfrom, hto⟩ ⟨hcfrom, hcto⟩
        have := (hwalk.gap_free hgap).2.2.2 c ((hmem c).mpr hc)
        omega
      exact := by
        intro hseparate t ht
        refine hwalk.hits_eq_one ⟨fun c hc => ?_, fun c hc d hd hne => ?_⟩ ht
        · exact Int64.lt_iff_toInt_lt.mp (hranges c ((hmem c).mp hc))
        · have hsymmetric : Std.Symm Separate := ⟨fun _ _ => Or.symm⟩
          exact hseparate.forall ((hmem c).mp hc) ((hmem d).mp hd) hne
      gaps_nil_iff := by
        rw [hwalk.gaps_nil_iff]
        simp only [hmem] }

end Store

/-! ## The oldest point -/

namespace Database

theorem widen_spec (bounds : Int64 × Int64) (o : Option (Int64 × Int64)) :
    (widen bounds o).1 ≤ bounds.1 ∧ bounds.2 ≤ (widen bounds o).2 ∧
      ∀ b ∈ o, (widen bounds o).1 ≤ b.1 ∧ b.2 ≤ (widen bounds o).2 := by
  cases o with
  | none => exact ⟨Std.le_refl _, Std.le_refl _, nofun⟩
  | some b =>
    have hlow : (widen bounds (some b)).1 ≤ bounds.1 ∧ (widen bounds (some b)).1 ≤ b.1 := by
      simp only [widen, Int64.le_iff_toInt_le, Int64.lt_iff_toInt_lt]
      split <;> omega
    have hhigh : bounds.2 ≤ (widen bounds (some b)).2 ∧ b.2 ≤ (widen bounds (some b)).2 := by
      simp only [widen, Int64.le_iff_toInt_le, Int64.lt_iff_toInt_lt]
      split <;> omega
    refine ⟨hlow.1, hhigh.1, fun b' hb' => ?_⟩
    cases hb'
    exact ⟨hlow.2, hhigh.2⟩

theorem foldl_widen_spec {α : Type} (f : α → Option (Int64 × Int64)) (l : List α)
    (bounds : Int64 × Int64) :
    (l.foldl (fun b a => widen b (f a)) bounds).1 ≤ bounds.1 ∧
      bounds.2 ≤ (l.foldl (fun b a => widen b (f a)) bounds).2 ∧
      ∀ a ∈ l, ∀ b ∈ f a, (l.foldl (fun b a => widen b (f a)) bounds).1 ≤ b.1 ∧
        b.2 ≤ (l.foldl (fun b a => widen b (f a)) bounds).2 := by
  induction l generalizing bounds with
  | nil => exact ⟨Std.le_refl _, Std.le_refl _, nofun⟩
  | cons a l ih =>
    obtain ⟨hlow, hhigh, hhead⟩ := widen_spec bounds (f a)
    obtain ⟨hlow', hhigh', htail⟩ := ih (widen bounds (f a))
    refine ⟨Std.le_trans hlow' hlow, Std.le_trans hhigh hhigh', ?_⟩
    refine forall_mem_cons.mpr ⟨fun b hb => ?_, htail⟩
    exact ⟨Std.le_trans hlow' (hhead b hb).1, Std.le_trans (hhead b hb).2 hhigh'⟩

theorem liveBounds_spec {points : List Point} (hsorted : Sorted byValidTime points) {p : Point}
    (hp : p ∈ points) :
    ∃ bounds ∈ liveBounds points, bounds.1 ≤ p.validTime ∧ p.validTime ≤ bounds.2 := by
  have hne : points ≠ [] := ne_nil_of_mem hp
  refine ⟨((points.head hne).validTime, (points.getLast hne).validTime), ?_,
    Segment.time_bounds (b := ⟨0, points, hne⟩) hsorted hp⟩
  rw [liveBounds, head?_eq_some_head hne, getLast?_eq_some_getLast hne]
  rfl

/-- The bounds of a series contain every point of it. -/
theorem InOrder.seriesValidBounds_spec {db : Database} (h : db.InOrder) {seriesId : UInt64}
    {p : Point} (hp : p ∈ db.rawSeries seriesId) :
    ∃ bounds, db.seriesValidBounds seriesId = some bounds ∧ bounds.1 ≤ p.validTime := by
  obtain ⟨-, -, hlive⟩ := widen_spec (Int64.maxValue, Int64.minValue)
    (liveBounds (db.index.seriesPoints seriesId))
  obtain ⟨hlow, hhigh, hsealed⟩ := foldl_widen_spec (fun s : Segment => s.seriesBounds seriesId)
    db.sealed (widen (Int64.maxValue, Int64.minValue)
      (liveBounds (db.index.seriesPoints seriesId)))
  rw [seriesValidBounds]
  generalize db.sealed.foldl _ _ = bounds at hlow hhigh hsealed ⊢
  have hwithin : bounds.1 ≤ p.validTime ∧ p.validTime ≤ bounds.2 := by
    rcases mem_append.mp hp with hp | hp
    · obtain ⟨hp, hseries⟩ := mem_filter.mp hp
      obtain ⟨segment, hsegment, hp⟩ := mem_flatMap.mp hp
      obtain ⟨inner, hinner, hfirst, hlast⟩ := ((h.sealed segment hsegment).seriesBounds
        seriesId).of_mem (mem_filter.mpr ⟨hp, hseries⟩)
      obtain ⟨hbelow, habove⟩ := hsealed segment hsegment inner hinner
      exact ⟨Std.le_trans hbelow hfirst, Std.le_trans hlast habove⟩
    · obtain ⟨inner, hinner, hfirst, hlast⟩ := liveBounds_spec (h.live seriesId) hp
      obtain ⟨hbelow, habove⟩ := hlive inner hinner
      exact ⟨Std.le_trans hlow (Std.le_trans hbelow hfirst),
        Std.le_trans hlast (Std.le_trans habove hhigh)⟩
  rw [if_pos (Std.le_trans hwithin.1 hwithin.2)]
  exact ⟨bounds, rfl, hwithin.1⟩

end Database

/-! ## The gates are safe -/

namespace Store

/-- If a gate is open although there are raw points below its cutoff, then every
tier has current rollups from each of them up to the cutoff. -/
def GateSound (s : Store) (gate : RetentionGate) : Prop :=
  ∃ (id : UInt64) (definition : SeriesDefinition),
    s.database.catalog.series[id]? = some definition ∧
    definition.id = gate.seriesId ∧
    (gate.eligible = true → ∀ p ∈ s.database.rawSeries gate.seriesId,
      p.validTime < gate.rawBefore →
        definition.rollupPolicy.tiers ≠ [] ∧
        ∀ tier ∈ definition.rollupPolicy.tiers, ∀ t, Covers p.validTime gate.rawBefore t →
          ∃ d ∈ s.currentRollups gate.seriesId tier.resolution, Covers d.start d.stop t)

theorem coveringDescriptors_covers {candidates : List RollupDescriptor} {start stop : Int64}
    (h : (coveringDescriptors candidates start stop).isNone = false) {t : ℤ}
    (ht : Covers start stop t) : ∃ d ∈ candidates, Covers d.start d.stop t := by
  have hwalk : Walk (stableSort byBounds candidates) stop start
      (coveragePlan candidates start stop) := coverFrom_walk _ stop (by omega)
  have hnil : (coveragePlan candidates start stop).gaps = [] := by
    by_contra hgaps
    simp [coveringDescriptors, hgaps] at h
  obtain ⟨d, hd, hcovers⟩ := hwalk.gaps_nil_iff.mp hnil t ht
  exact ⟨d, mem_stableSort.mp hd, hcovers⟩

theorem decideGate_sound {s : Store} (horder : s.database.InOrder) {definition : SeriesDefinition}
    {cutoff : Int64} (h : (s.decideGate definition cutoff).1 = true) {p : Point}
    (hp : p ∈ s.database.rawSeries definition.id) (hold : p.validTime < cutoff) :
    definition.rollupPolicy.tiers ≠ [] ∧
      ∀ tier ∈ definition.rollupPolicy.tiers, ∀ t, Covers p.validTime cutoff t →
        ∃ d ∈ s.currentRollups definition.id tier.resolution, Covers d.start d.stop t := by
  obtain ⟨bounds, hbounds, holdest⟩ := horder.seriesValidBounds_spec hp
  have hlt : ¬ cutoff ≤ bounds.1 := Std.not_le.mpr (Std.lt_of_le_of_lt holdest hold)
  rw [decideGate, hbounds] at h
  simp only [hlt, if_false] at h
  split at h
  · cases h
  · next hfind =>
    split at h
    · cases h
    · next htiers =>
      refine ⟨htiers, fun tier htier t ht => ?_⟩
      have hfound := find?_eq_none.mp hfind tier htier
      rw [Int64.le_iff_toInt_le] at holdest
      exact coveringDescriptors_covers (Bool.eq_false_iff.mpr hfound)
        ⟨Int.le_trans holdest ht.1, ht.2⟩

/-- Coverage plans say what they should about every range, and an open gate over
old raw points has rollups of all tiers behind it. -/
theorem retention_sound :
    (∀ (candidates : List RollupDescriptor) (start stop : Int64),
      (∀ c ∈ candidates, c.start < c.stop) → start < stop →
        PlanSound candidates start stop (coveragePlan candidates start stop) ∧
        Settled (fun fuel => coverFrom (stableSort byBounds candidates) stop fuel start)
          (stop.toInt - start.toInt).toNat) ∧
      (∀ (s : Store) (nowMicros : Int64) (gates : List RetentionGate), s.database.InOrder →
        s.retentionGates nowMicros = .ok gates → ∀ gate ∈ gates, s.GateSound gate) ∧
      ∀ [Jiff] (s : Store) (history : List Point), Run s history → s.database.InOrder := by
  refine ⟨fun candidates start stop hranges _ =>
    ⟨coveragePlan_sound candidates start stop hranges, coverFrom_settled _ stop (by omega)⟩,
    fun s nowMicros gates horder hgates gate hgate => ?_,
    fun s history hrun => hrun.carries.inOrder⟩
  simp only [retentionGates, bind_eq_ok] at hgates
  obtain ⟨_, -, hgates⟩ := hgates
  cases hgates
  obtain ⟨entry, hentry, hgate⟩ := mem_filterMap.mp hgate
  obtain ⟨retention, -, rfl⟩ := Option.map_eq_some_iff.mp hgate
  exact ⟨entry.1, entry.2, Std.ExtTreeMap.mem_toList_iff_getElem?_eq_some.mp hentry, rfl,
    fun heligible p hp hold => decideGate_sound horder heligible hp hold⟩

set_option maxRecDepth 20000 in
/-- Behind a maintenance the rollup of the first day opens the gate at its end, and the
second day is a gap. -/
theorem retention_sound_twoDays :
    letI := Jiff.withoutZones
    ∃ s history gate, Run s history ∧ s.retentionGates 86400000010 = .ok [gate] ∧
      gate.eligible = true ∧ gate.rawBefore = 86400000000 ∧ s.GateSound gate ∧
      PlanSound (s.currentRollups 7 (.fixedMicros 1000000)) 0 86402000000
        (coveragePlan (s.currentRollups 7 (.fixedMicros 1000000)) 0 86402000000) := by
  let _ := Jiff.withoutZones
  have hcomputed : (do
      let s ← (openWith {} ⟨.empty, {}⟩ {}).1
      let _ ← (s.commit twoDays {}).1
      let _ ← ((s.commit twoDays {}).2.maintain 86400000010 {}).1
      let kept := ((s.commit twoDays {}).2.maintain 86400000010 {}).2
      let gates ← kept.retentionGates 86400000010
      .ok (gates.map fun (gate : RetentionGate) => (gate.eligible, gate.rawBefore),
        decide (∀ c ∈ kept.currentRollups 7 (.fixedMicros 1000000), c.start < c.stop))) =
      .ok ([(true, 86400000000)], true) := by
    decide +kernel
  obtain ⟨s, hcreated, hcomputed⟩ := bind_eq_ok.mp hcomputed
  obtain ⟨_, hcommit, hcomputed⟩ := bind_eq_ok.mp hcomputed
  obtain ⟨_, hmaintain, hcomputed⟩ := bind_eq_ok.mp hcomputed
  obtain ⟨gates, hgates, hfacts⟩ := bind_eq_ok.mp hcomputed
  simp only [Except.ok.injEq, Prod.mk.injEq, decide_eq_true_eq] at hfacts
  obtain ⟨gate, rfl, hgate⟩ := map_eq_singleton_iff.mp hfacts.1
  have hrun := ((Run.created (Prod.ext hcreated rfl)).commit (Prod.ext hcommit rfl)).maintain
    (Prod.ext hmaintain rfl)
  obtain ⟨hplans, hsound, horder⟩ := retention_sound
  exact ⟨_, _, gate, hrun, hgates, (Prod.mk.inj hgate).1, (Prod.mk.inj hgate).2,
    hsound _ _ _ (horder _ _ hrun) hgates gate mem_cons_self,
    (hplans _ _ _ hfacts.2 (by decide)).1⟩

end Store

end Ftwdb
