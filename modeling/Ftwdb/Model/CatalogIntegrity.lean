import Mathlib.Logic.Relation
import Ftwdb.Lib.CycleSearch
import Ftwdb.Model.CatalogLaws

/-!
# Integrity and history of a catalog

`Catalog.Integral` says in plain words what the reference checks establish: every
reference resolves, plans belong to optimization runs, and parents, provenance
and supersession have no cycles.  The checks for cycles are exact: on links that
resolve they fail only where there is one (`Catalog.cycle_checks_exact`).
`Catalog.Evolves` says how a catalog may change: nothing disappears, a finished
run stays as it is, the identity fields of runs and plans stay, and a plan's
status moves along the allowed changes.  Every accepted transaction is such a
change (`Catalog.Valid.evolves`).
-/

namespace Ftwdb

open Check KeyedMap List

/-! ## Comparison of records -/

namespace F64

theorem eq_self {x : F64} (h : x.isFinite = true) : x.eq x = true := by
  have hexp : x.exponent ≠ 2047 := of_decide_eq_true h
  have hnan : x.isNan = false := decide_eq_false fun hn => hexp hn.1
  simp [F64.eq, hnan]

theorem eq_trans {x y z : F64} (hxy : x.eq y = true) (hyz : y.eq z = true) : x.eq z = true := by
  simp only [F64.eq, Bool.and_eq_true, Bool.or_eq_true, decide_eq_true_eq, Bool.not_eq_true'] at *
  obtain ⟨⟨hx, hy⟩, hxy⟩ := hxy
  obtain ⟨⟨-, hz⟩, hyz⟩ := hyz
  refine ⟨⟨hx, hz⟩, ?_⟩
  rcases hxy with ⟨hx0, hy0⟩ | rfl
  · rcases hyz with ⟨-, hz0⟩ | rfl
    · exact .inl ⟨hx0, hz0⟩
    · exact .inl ⟨hx0, hy0⟩
  · exact hyz

end F64

namespace PropertyValue

theorem eq_self {v : PropertyValue} (h : v.isBadFloat = false) : v.eq v = true := by
  cases v with
  | float x => exact F64.eq_self (by simpa [isBadFloat] using h)
  | _ => simp [PropertyValue.eq]

theorem eq_trans {u v w : PropertyValue} (huv : u.eq v = true) (hvw : v.eq w = true) :
    u.eq w = true := by
  cases u <;> cases v <;> simp only [PropertyValue.eq, decide_eq_true_eq, Bool.false_eq_true] at huv
  case float.float x y =>
    cases w with
    | float z => exact F64.eq_trans huv hvw
    | _ => simp [PropertyValue.eq] at hvw
  case null.null => exact hvw
  all_goals
    subst huv
    exact hvw

end PropertyValue

namespace Properties

/-- Equal maps have their entries in the same places. -/
theorem eq_iff {a b : Properties} : a.eq b = true ↔
    List.Forall₂ (fun p q => p.1 = q.1 ∧ p.2.eq q.2 = true) a.toList b.toList := by
  simp only [Properties.eq, Bool.and_eq_true, decide_eq_true_eq]
  rw [forall₂_iff_zip]
  simp only [all_eq_true, Bool.and_eq_true, decide_eq_true_eq]
  constructor
  · rintro ⟨hlength, hall⟩
    exact ⟨hlength, fun hmem => hall _ hmem⟩
  · rintro ⟨hlength, hall⟩
    exact ⟨hlength, fun p hmem => hall hmem⟩

theorem eq_self {a : Properties} (h : ∀ p ∈ a.toList, p.2.isBadFloat = false) : a.eq a = true := by
  refine eq_iff.mpr (forall₂_same.mpr fun p hp => ⟨rfl, PropertyValue.eq_self (h p hp)⟩)

theorem eq_trans {a b c : Properties} (hab : a.eq b = true) (hbc : b.eq c = true) :
    a.eq c = true := by
  have trans : ∀ {l₁ l₂ l₃ : List (String × PropertyValue)},
      List.Forall₂ (fun p q => p.1 = q.1 ∧ p.2.eq q.2 = true) l₁ l₂ →
      List.Forall₂ (fun p q => p.1 = q.1 ∧ p.2.eq q.2 = true) l₂ l₃ →
      List.Forall₂ (fun p q => p.1 = q.1 ∧ p.2.eq q.2 = true) l₁ l₃ := by
    intro l₁ l₂ l₃ h₁₂
    induction h₁₂ generalizing l₃ with
    | nil => exact id
    | cons hpq _ ih =>
      intro h₂₃
      cases h₂₃ with
      | cons hqr hrest =>
        exact .cons ⟨hpq.1.trans hqr.1, PropertyValue.eq_trans hpq.2 hqr.2⟩ (ih hrest)
  exact eq_iff.mpr (trans (eq_iff.mp hab) (eq_iff.mp hbc))

end Properties

namespace Run

theorem eq_self {r : Run} (h : validateRun r = .ok ()) : r.eq r = true := by
  simp only [validateRun, validateProperties, bind_eq_ok, failIf_eq_ok] at h
  obtain ⟨_, -, _, -, hproperties⟩ := h
  have hgood : ∀ p ∈ r.attributes.toList, p.2.isBadFloat = false := by
    intro p hp
    by_contra hbad
    exact hproperties (any_eq_true.mpr ⟨p, hp, by simp [Bool.eq_true_of_not_eq_false hbad]⟩)
  simp [Run.eq, Properties.eq_self hgood]

theorem eq_iff {a b : Run} : a.eq b = true ↔ (a.id = b.id ∧ a.kind = b.kind ∧
    a.status = b.status ∧ a.createdAt = b.createdAt ∧ a.knowledgeTime = b.knowledgeTime ∧
    a.workflow = b.workflow ∧ a.model = b.model ∧ a.modelVersion = b.modelVersion ∧
    a.parentRun = b.parentRun ∧ a.inputSnapshot = b.inputSnapshot) ∧
    a.attributes.eq b.attributes = true := by
  rw [Run.eq, Bool.and_eq_true, decide_eq_true_eq]

theorem eq_trans {a b c : Run} (hab : a.eq b = true) (hbc : b.eq c = true) : a.eq c = true := by
  obtain ⟨⟨h₁, h₂, h₃, h₄, h₅, h₆, h₇, h₈, h₉, h₁₀⟩, hattributes⟩ := eq_iff.mp hab
  rw [eq_iff] at hbc ⊢
  rw [h₁, h₂, h₃, h₄, h₅, h₆, h₇, h₈, h₉, h₁₀]
  exact ⟨hbc.1, Properties.eq_trans hattributes hbc.2⟩

end Run

/-! ## Integrity -/

namespace Catalog

/-- The entity `b` is the parent of `a`. -/
def ParentLink (c : Catalog) (a b : EntityId) : Prop :=
  ∃ e, c.entities[a]? = some e ∧ b ∈ e.parent

/-- The run `a` was derived from `b`, as its parent or its input. -/
def RunLink (c : Catalog) (a b : RunId) : Prop := ∃ r, c.runs[a]? = some r ∧ b ∈ r.links

/-- The plan `a` supersedes `b`. -/
def PlanLink (c : Catalog) (a b : U128) : Prop := ∃ p, c.plans[a]? = some p ∧ b ∈ p.supersedes

/-- Every reference resolves and there are no cycles. -/
structure Integral (c : Catalog) : Prop where
  parent : ∀ a b, c.ParentLink a b → b ∈ c.entities
  endpoints : ∀ (id : RelationId) (r : Ftwdb.Relation), c.relations[id]? = some r →
    r.source ∈ c.entities ∧ r.target ∈ c.entities
  owner : ∀ (id : UInt64) (s : SeriesDefinition), c.series[id]? = some s →
    (∀ o ∈ s.ownerEntity, o ∈ c.entities) ∧ ∀ o ∈ s.ownerRelation, o ∈ c.relations
  provenance : ∀ a b, c.RunLink a b → b ∈ c.runs
  planRun : ∀ (id : U128) (p : Plan), c.plans[id]? = some p →
    ∃ r : Run, c.runs[p.runId]? = some r ∧ r.kind = .optimization
  supersedes : ∀ a b, c.PlanLink a b → b ∈ c.plans
  parents_acyclic : ∀ id, ¬ Relation.TransGen c.ParentLink id id
  provenance_acyclic : ∀ id, ¬ Relation.TransGen c.RunLink id id
  supersession_acyclic : ∀ id, ¬ Relation.TransGen c.PlanLink id id

/-- Runs that pass their reference check have their links resolved. -/
theorem runLink_resolves {c : Catalog}
    (h : each (fun p => c.validateRunReferences p.2) c.runs.toList = .ok ()) (a b : RunId)
    (hab : c.RunLink a b) : b ∈ c.runs := by
  obtain ⟨r, hr, hb⟩ := hab
  have hcheck := each_eq_ok.mp h _ (Std.ExtTreeMap.mem_toList_iff_getElem?_eq_some.mpr hr)
  exact validateRunReferences_eq_ok.mp hcheck b hb

theorem Valid.integral [Jiff] {c : Catalog} (hc : c.Valid) : c.Integral := by
  have h := hc.referenced
  obtain ⟨entityRank, hentityRank⟩ := hc.entity_rank
  obtain ⟨runRank, hrunRank⟩ := hc.run_rank
  obtain ⟨planRank, hplanRank⟩ := hc.plan_rank
  refine ⟨?_, h.relations, h.series, ?_, fun id p hp => (h.plans id p hp).1, ?_,
    DependencyOrder.not_transGen_of_rank entityRank ?_,
    DependencyOrder.not_transGen_of_rank runRank ?_,
    DependencyOrder.not_transGen_of_rank planRank ?_⟩
  · rintro a b ⟨e, he, hb⟩
    exact (h.entities a e he).1 b hb
  · rintro a b ⟨r, hr, hb⟩
    exact h.runs a r hr b hb
  · rintro a b ⟨p, hp, hb⟩
    exact (h.plans a p hp).2 b hb
  · rintro a b ⟨e, he, hb⟩
    exact hentityRank a e he b (Option.mem_toList.mpr hb)
  · rintro a b ⟨r, hr, hb⟩
    exact hrunRank a r hr b hb
  · rintro a b ⟨p, hp, hb⟩
    exact hplanRank a p hp b (Option.mem_toList.mpr hb)

/-! ## The cycle checks -/

section CycleChecks

open DependencyOrder

variable {entities : Std.ExtTreeMap EntityId Entity} {links : U128 → List U128}

/-- The links of the entities, as the parent check follows them. -/
theorem link_parents_iff {a b : EntityId} :
    Link (fun n => (entities[n]?.bind Entity.parent).toList) a b ↔
      ParentLink { entities := entities } a b := by
  rw [Link, Option.mem_toList, Option.bind_eq_some_iff]
  rfl

theorem link_runs_iff {runs : Std.ExtTreeMap RunId Run} {a b : RunId} :
    Link (fun n => (runs[n]?.map Run.links).getD []) a b ↔ RunLink { runs := runs } a b := by
  rw [Link, RunLink]
  cases runs[a]? <;> simp

theorem link_plans_iff {plans : Std.ExtTreeMap U128 Plan} {a b : U128} :
    Link (fun n => (plans[n]?.bind Plan.supersedes).toList) a b ↔
      PlanLink { plans := plans } a b := by
  rw [Link, Option.mem_toList, Option.bind_eq_some_iff]
  rfl

/-- A graph is cyclic if some node leads back to itself along its links. -/
theorem cyclic_iff {link : U128 → U128 → Prop}
    (h : ∀ a b, Link links a b ↔ link a b) :
    Cyclic links ↔ ∃ id, Relation.TransGen link id id := by
  obtain rfl : Link links = link := funext fun a => funext fun b => propext (h a b)
  rfl

theorem length_links_le (r : Run) : r.links.length ≤ 2 := by
  rw [Run.links, length_append]
  have hparent : r.parentRun.toList.length ≤ 1 := Option.length_toList_le
  have hinput : r.inputSnapshot.toList.length ≤ 1 := Option.length_toList_le
  omega

/-- One step to close each node and one for each of its links. -/
theorem fuel_suffices {α : Type} {m : Std.ExtTreeMap U128 α}
    (h : ∀ n, (links n).length ≤ 3) :
    1 + (m.keys.map fun n => (links n).length + 1).sum ≤ 4 * m.size + 1 := by
  have hle := sum_le_card_nsmul (m.keys.map fun n => (links n).length + 1) 4 (by
    simp only [mem_map, forall_exists_index, and_imp, forall_apply_eq_imp_iff₂]
    intro n _
    have := h n
    omega)
  rw [length_map, Std.ExtTreeMap.length_keys, Nat.nsmul_eq_mul] at hle
  omega

/-- Only entities of the map have a parent. -/
theorem mem_keys_of_parent (n m : EntityId)
    (h : entities[n]?.bind Entity.parent = some m) : n ∈ entities.keys := by
  obtain ⟨e, he, -⟩ := Option.bind_eq_some_iff.mp h
  exact Std.ExtTreeMap.mem_keys.mpr (mem_of_getElem? he)

theorem parentCheck_settled (id : EntityId) (entities : Std.ExtTreeMap EntityId Entity) :
    Settled (fun fuel => chain (fun n => entities[n]?.bind Entity.parent) fuel [] (some id))
      (entities.size + 2) := by
  have hinv : ChainInv (fun n => entities[n]?.bind Entity.parent) [] (some id) :=
    ⟨nodup_nil, by simp⟩
  exact (chain_spec mem_keys_of_parent hinv (by simp [Std.ExtTreeMap.length_keys])).2

/-- Without a cycle the parent check goes through from every entity. -/
theorem validateNoParentCycle_of_acyclic
    (h : ∀ id, ¬ Relation.TransGen (ParentLink { entities := entities }) id id) (id : EntityId) :
    validateNoParentCycle id entities = .ok () := by
  have hinv : ChainInv (fun n => entities[n]?.bind Entity.parent) [] (some id) :=
    ⟨nodup_nil, by simp⟩
  have hfuel : entities.keys.length + 1 ≤ entities.size + 2 + ([] : List EntityId).length := by
    simp [Std.ExtTreeMap.length_keys]
  have hend := (chain_spec mem_keys_of_parent hinv hfuel).1
  rw [validateNoParentCycle, mapError_eq_ok]
  cases hchain : chain (fun n => entities[n]?.bind Entity.parent) (entities.size + 2) []
      (some id) with
  | ok u => rfl
  | error n =>
    rw [hchain] at hend
    obtain ⟨id, hid⟩ := (cyclic_iff fun _ _ => link_parents_iff).mp ⟨n, hend⟩
    exact absurd hid (h id)

theorem validateNoParentCycle_iff :
    each (fun id => validateNoParentCycle id entities) entities.keys = .ok () ↔
      ∀ id, ¬ Relation.TransGen (ParentLink { entities := entities }) id id := by
  rw [each_eq_ok]
  constructor
  · intro hok
    have hfuel : entities.keys.length + 1 ≤ entities.size + 2 := by
      simp [Std.ExtTreeMap.length_keys]
    have hacyclic := (chain_ok_iff mem_keys_of_parent hfuel).mp fun id hid =>
      mapError_eq_ok.mp (hok id hid)
    rw [cyclic_iff fun _ _ => link_parents_iff] at hacyclic
    exact not_exists.mp hacyclic
  · intro hacyclic id _
    exact validateNoParentCycle_of_acyclic hacyclic id

/-- What a search over a map of linked values decides, once its links resolve. -/
theorem visitAll_keys_spec {α : Type} {m : Std.ExtTreeMap U128 α}
    {link : U128 → U128 → Prop} (hlink : ∀ a b, Link links a b ↔ link a b)
    (hfew : ∀ n, (links n).length ≤ 3) (hfrom : ∀ a b, link a b → a ∈ m)
    (hresolve : ∀ a b, link a b → b ∈ m) :
    ((∃ states, visitAll links (4 * m.size + 1) ∅ m.keys = .ok states) ↔
      ∀ id, ¬ Relation.TransGen link id id) ∧
    Settled (fun fuel => visitAll links fuel ∅ m.keys) (4 * m.size + 1) := by
  have hclosed : ∀ n, ∀ k ∈ links n, k ∈ m.keys := fun n k hk =>
    Std.ExtTreeMap.mem_keys.mpr (hresolve n k ((hlink n k).mp hk))
  have hnodes : ∀ n k, k ∈ links n → n ∈ m.keys := fun n k hk =>
    Std.ExtTreeMap.mem_keys.mpr (hfrom n k ((hlink n k).mp hk))
  constructor
  · rw [visitAll_ok_iff hclosed hnodes (fuel_suffices hfew), cyclic_iff hlink, not_exists]
  · exact (visitAll_spec hclosed (fuel_suffices hfew) (fun _ hn => hn) .empty).2

section Runs

variable {runs : Std.ExtTreeMap RunId Run}
  (hresolve : ∀ a b, RunLink { runs := runs } a b → b ∈ runs)

include hresolve

theorem runCheck_spec :
    ((∃ states, visitAll (fun n => (runs[n]?.map Run.links).getD []) (4 * runs.size + 1) ∅
        runs.keys = .ok states) ↔
      ∀ id, ¬ Relation.TransGen (RunLink { runs := runs }) id id) ∧
    Settled (fun fuel => visitAll (fun n => (runs[n]?.map Run.links).getD []) fuel ∅ runs.keys)
      (4 * runs.size + 1) := by
  refine visitAll_keys_spec (fun _ _ => link_runs_iff) (fun n => ?_) (fun a b hab => ?_) hresolve
  · cases runs[n]? with
    | none => exact Nat.zero_le _
    | some r => exact Nat.le_succ_of_le (length_links_le r)
  · obtain ⟨r, hr, -⟩ := hab
    exact mem_of_getElem? hr

theorem validateNoRunCycles_iff : validateNoRunCycles runs = .ok () ↔
    ∀ id, ¬ Relation.TransGen (RunLink { runs := runs }) id id := by
  rw [← (runCheck_spec hresolve).1, validateNoRunCycles, map_eq_ok]
  simp only [mapError_eq_ok, and_true]

end Runs

section Plans

variable {plans : Std.ExtTreeMap U128 Plan}
  (hresolve : ∀ a b, PlanLink { plans := plans } a b → b ∈ plans)

include hresolve

theorem planCheck_spec :
    ((∃ states, visitAll (fun n => (plans[n]?.bind Plan.supersedes).toList) (4 * plans.size + 1) ∅
        plans.keys = .ok states) ↔
      ∀ id, ¬ Relation.TransGen (PlanLink { plans := plans }) id id) ∧
    Settled (fun fuel => visitAll (fun n => (plans[n]?.bind Plan.supersedes).toList) fuel ∅
      plans.keys) (4 * plans.size + 1) := by
  refine visitAll_keys_spec (fun _ _ => link_plans_iff) (fun n => ?_) (fun a b hab => ?_) hresolve
  · exact Nat.le_trans Option.length_toList_le (by decide)
  · obtain ⟨p, hp, -⟩ := hab
    exact mem_of_getElem? hp

theorem validateNoPlanCycles_iff : validateNoPlanCycles plans = .ok () ↔
    ∀ id, ¬ Relation.TransGen (PlanLink { plans := plans }) id id := by
  rw [← (planCheck_spec hresolve).1, validateNoPlanCycles, map_eq_ok]
  simp only [mapError_eq_ok, and_true]

end Plans

/-- The reference checks ask for nothing else than integrity. -/
theorem Integral.validateReferences {c : Catalog} (h : c.Integral) :
    c.validateReferences = .ok () := by
  refine validateReferences_iff.mpr ⟨fun id e he => ⟨?_, ?_⟩, h.endpoints, h.owner, ?_, ?_,
    fun id p hp => ⟨h.planRun id p hp, ?_⟩, ?_⟩
  · exact fun parent hparent => h.parent id parent ⟨e, he, hparent⟩
  · exact validateNoParentCycle_of_acyclic h.parents_acyclic e.id
  · exact fun id r hr b hb => h.provenance id b ⟨r, hr, hb⟩
  · exact (validateNoRunCycles_iff h.provenance).mpr h.provenance_acyclic
  · exact fun o ho => h.supersedes id o ⟨p, hp, ho⟩
  · exact (validateNoPlanCycles_iff h.supersedes).mpr h.supersession_acyclic

theorem exists_error_iff {ε : Type} {x : Except ε Unit} {p : Prop} (h : x = .ok () ↔ ¬ p) :
    (∃ e, x = .error e) ↔ p := by
  cases x with
  | ok u => simpa using h
  | error e => simpa using h

/-- The three cycle checks are exact, and their loops end. -/
theorem cycle_checks_exact {runs : Std.ExtTreeMap RunId Run} {plans : Std.ExtTreeMap U128 Plan}
    (entities : Std.ExtTreeMap EntityId Entity)
    (hruns : ∀ a b, RunLink { runs := runs } a b → b ∈ runs)
    (hplans : ∀ a b, PlanLink { plans := plans } a b → b ∈ plans) :
    ((∃ e, validateNoRunCycles runs = .error e) ↔
        ∃ id, Relation.TransGen (RunLink { runs := runs }) id id) ∧
      ((∃ e, validateNoPlanCycles plans = .error e) ↔
        ∃ id, Relation.TransGen (PlanLink { plans := plans }) id id) ∧
      ((∃ e, each (fun id => validateNoParentCycle id entities) entities.keys = .error e) ↔
        ∃ id, Relation.TransGen (ParentLink { entities := entities }) id id) ∧
      Settled (fun fuel => visitAll (fun n => (runs[n]?.map Run.links).getD []) fuel ∅ runs.keys)
        (4 * runs.size + 1) ∧
      Settled (fun fuel => visitAll (fun n => (plans[n]?.bind Plan.supersedes).toList) fuel ∅
        plans.keys) (4 * plans.size + 1) ∧
      ∀ id, Settled (fun fuel => chain (fun n => entities[n]?.bind Entity.parent) fuel []
        (some id)) (entities.size + 2) := by
  refine ⟨exists_error_iff ?_, exists_error_iff ?_, exists_error_iff ?_, (runCheck_spec hruns).2,
    (planCheck_spec hplans).2, fun id => parentCheck_settled id entities⟩
  · rw [validateNoRunCycles_iff hruns, not_exists]
  · rw [validateNoPlanCycles_iff hplans, not_exists]
  · rw [validateNoParentCycle_iff, not_exists]

/-- A run of which only the links matter. -/
def linkedRun (id : RunId) (parentRun inputSnapshot : Option RunId) : Run :=
  ⟨id, .control, .running, 0, 0, "w", "", "", parentRun, inputSnapshot, ∅⟩

/-- A run with two ways to its ancestor, and one that names its parent twice. -/
def diamondRuns : Std.ExtTreeMap RunId Run :=
  ((((∅ : Std.ExtTreeMap RunId Run).insert 1 (linkedRun 1 none none)).insert 2
    (linkedRun 2 (some 1) (some 1))).insert 3 (linkedRun 3 (some 1) none)).insert 4
    (linkedRun 4 (some 2) (some 3))

/-- Two runs that are each other's parents. -/
def mutualRuns : Std.ExtTreeMap RunId Run :=
  ((∅ : Std.ExtTreeMap RunId Run).insert 1 (linkedRun 1 (some 2) none)).insert 2
    (linkedRun 2 (some 1) none)

theorem cycle_checks_exact_runs :
    (¬ ∃ id, Relation.TransGen (RunLink { runs := diamondRuns }) id id) ∧
      ∃ id, Relation.TransGen (RunLink { runs := mutualRuns }) id id := by
  have hplans : ∀ a b, PlanLink {} a b → b ∈ (∅ : Std.ExtTreeMap U128 Plan) := by
    rintro a b ⟨p, hp, -⟩
    simp at hp
  have hdiamond := cycle_checks_exact ∅
    (@runLink_resolves { runs := diamondRuns } (by decide +kernel)) hplans
  have hmutual := cycle_checks_exact ∅
    (@runLink_resolves { runs := mutualRuns } (by decide +kernel)) hplans
  constructor
  · rw [← hdiamond.1]
    rintro ⟨e, he⟩
    have hok : validateNoRunCycles diamondRuns = .ok () := by decide +kernel
    rw [hok] at he
    cases he
  · rw [← hmutual.1]
    exact ⟨.invalidModel "run provenance cycle contains 1", by decide +kernel⟩

end CycleChecks

/-! ## History -/

/-- A run at two moments. -/
structure RunKept (r r' : Run) : Prop where
  kind : r'.kind = r.kind
  createdAt : r'.createdAt = r.createdAt
  finished : r.status.isTerminal = true → r.eq r' = true

/-- A plan at two moments. -/
structure PlanKept (p p' : Plan) : Prop where
  runId : p'.runId = p.runId
  horizonStart : p'.horizonStart = p.horizonStart
  horizonEnd : p'.horizonEnd = p.horizonEnd
  resolutionMicros : p'.resolutionMicros = p.resolutionMicros
  status : Relation.ReflTransGen (fun a b : PlanStatus => a.mayBecome b = true) p.status p'.status

/-- A catalog at two moments. -/
structure Evolves (c c' : Catalog) : Prop where
  entities : ∀ id ∈ c.entities, id ∈ c'.entities
  relations : ∀ id ∈ c.relations, id ∈ c'.relations
  series : ∀ id ∈ c.series, id ∈ c'.series
  runs : ∀ (id : RunId) (r : Run), c.runs[id]? = some r →
    ∃ r', c'.runs[id]? = some r' ∧ RunKept r r'
  plans : ∀ (id : U128) (p : Plan), c.plans[id]? = some p →
    ∃ p', c'.plans[id]? = some p' ∧ PlanKept p p'

theorem Evolves.mem_runs {c c' : Catalog} (h : c.Evolves c') {id : RunId} (hid : id ∈ c.runs) :
    id ∈ c'.runs := by
  obtain ⟨r, hr⟩ := KeyedMap.exists_getElem?_of_mem hid
  obtain ⟨r', hr', -⟩ := h.runs id r hr
  exact KeyedMap.mem_of_getElem? hr'

theorem RunKept.refl {r : Run} (h : validateRun r = .ok ()) : RunKept r r :=
  ⟨rfl, rfl, fun _ => Run.eq_self h⟩

theorem RunKept.trans {r r' r'' : Run} (h : RunKept r r') (h' : RunKept r' r'') :
    RunKept r r'' where
  kind := h'.kind.trans h.kind
  createdAt := h'.createdAt.trans h.createdAt
  finished hterminal := by
    have heq := h.finished hterminal
    have hstatus : r.status = r'.status := (Run.eq_iff.mp heq).1.2.2.1
    exact Run.eq_trans heq (h'.finished (hstatus ▸ hterminal))

theorem PlanKept.refl (p : Plan) : PlanKept p p := ⟨rfl, rfl, rfl, rfl, .refl⟩

theorem PlanKept.trans {p p' p'' : Plan} (h : PlanKept p p') (h' : PlanKept p' p'') :
    PlanKept p p'' where
  runId := h'.runId.trans h.runId
  horizonStart := h'.horizonStart.trans h.horizonStart
  horizonEnd := h'.horizonEnd.trans h.horizonEnd
  resolutionMicros := h'.resolutionMicros.trans h.resolutionMicros
  status := h.status.trans h'.status

theorem Evolves.trans {c c' c'' : Catalog} (h : c.Evolves c') (h' : c'.Evolves c'') :
    c.Evolves c'' where
  entities id hid := h'.entities id (h.entities id hid)
  relations id hid := h'.relations id (h.relations id hid)
  series id hid := h'.series id (h.series id hid)
  runs id r hr := by
    obtain ⟨r', hr', hkept⟩ := h.runs id r hr
    obtain ⟨r'', hr'', hkept'⟩ := h'.runs id r' hr'
    exact ⟨r'', hr'', hkept.trans hkept'⟩
  plans id p hp := by
    obtain ⟨p', hp', hkept⟩ := h.plans id p hp
    obtain ⟨p'', hp'', hkept'⟩ := h'.plans id p' hp'
    exact ⟨p'', hp'', hkept.trans hkept'⟩

/-- An insertion changes the value of its own key only. -/
theorem exists_insert_of_kept {κ α : Type} [Ord κ] [Std.TransOrd κ] [Std.LawfulEqOrd κ]
    {m : Std.ExtTreeMap κ α} {kept : α → α → Prop} {k id : κ} {a b : α} (ha : m[id]? = some a)
    (hself : kept a a) (hnew : ∀ previous, m[k]? = some previous → kept previous b) :
    ∃ a', (m.insert k b)[id]? = some a' ∧ kept a a' := by
  rw [Std.ExtTreeMap.getElem?_insert]
  split
  · next heq =>
    obtain rfl := Std.LawfulEqOrd.eq_of_compare heq
    exact ⟨b, rfl, hnew a ha⟩
  · exact ⟨a, ha, hself⟩

variable [Jiff]

theorem RecordsValid.evolves_self {c : Catalog} (hc : c.RecordsValid) : c.Evolves c where
  entities _ hid := hid
  relations _ hid := hid
  series _ hid := hid
  runs id r hr := ⟨r, hr, .refl (hc.runs id r hr).2⟩
  plans _ p hp := ⟨p, hp, .refl p⟩

theorem RecordsValid.evolves_apply {c c' : Catalog} {record : Record} (hc : c.RecordsValid)
    (h : c.apply record = .ok c') : c.Evolves c' := by
  have hself := hc.evolves_self
  cases apply_eq_ok.mp h with
  | entity _ => exact { hself with entities := fun _ hid => mem_insert_iff.mpr (.inr hid) }
  | relation _ => exact { hself with relations := fun _ hid => mem_insert_iff.mpr (.inr hid) }
  | series _ => exact { hself with series := fun _ hid => mem_insert_iff.mpr (.inr hid) }
  | run _ htransition =>
    refine { hself with runs := fun id r₀ hr₀ => ?_ }
    refine exists_insert_of_kept hr₀ (.refl (hc.runs id r₀ hr₀).2) fun previous hprevious => ?_
    have hcheck := htransition previous hprevious
    simp only [validateRunTransition, bind_eq_ok, failIf_eq_ok, not_and, not_or, not_not, ne_eq,
      Bool.not_eq_false] at hcheck
    obtain ⟨_, hfinished, hkind, hcreated⟩ := hcheck
    exact ⟨hkind.symm, hcreated.symm, hfinished⟩
  | plan _ _ htransition =>
    refine { hself with plans := fun id p₀ hp₀ => ?_ }
    refine exists_insert_of_kept hp₀ (.refl p₀) fun previous hprevious => ?_
    have hcheck := htransition previous hprevious
    simp only [validatePlanTransition, bind_eq_ok, failIf_eq_ok, not_or, not_not, ne_eq,
      Bool.not_eq_false] at hcheck
    obtain ⟨_, ⟨hrun, hstart, hend, hresolution⟩, hstatus⟩ := hcheck
    exact ⟨hrun.symm, hstart.symm, hend.symm, hresolution.symm, .single hstatus⟩
  | points => exact hself

/-- An accepted transaction is a step of the history. -/
theorem Valid.evolves {c : Catalog} {records : List Record} {o : Option Catalog} (hc : c.Valid)
    (h : c.applyRecords records = .ok o) : c.Evolves (o.getD c) := by
  rw [Catalog.applyRecords] at h
  split at h
  · obtain ⟨_, -, rfl⟩ := map_eq_ok.mp h
    exact hc.evolves_self
  · obtain ⟨candidate, hcandidate, rfl⟩ := map_eq_ok.mp h
    simp only [Catalog.validateAndApply, bind_eq_ok] at hcandidate
    obtain ⟨c', hfold, _, -, _, -, hsame⟩ := hcandidate
    cases hsame
    exact (foldlM_invariant (fun b => b.RecordsValid ∧ c.Evolves b)
      (fun b r b' _ hb hstep => ⟨hb.1.apply hstep, hb.2.trans (hb.1.evolves_apply hstep)⟩)
      ⟨hc.toRecordsValid, hc.evolves_self⟩ hfold).2

/-- The points of an accepted transaction belong to series and runs that exist
behind it. -/
theorem resolves_of_applyRecords {c : Catalog} {records : List Record} {o : Option Catalog}
    (h : c.applyRecords records = .ok o) :
    ∀ r ∈ records, ∀ p ∈ r.pointList,
      p.seriesId ∈ (o.getD c).series ∧ (p.runId ≠ 0 → p.runId ∈ (o.getD c).runs) := by
  intro r hr p hp
  have hcheck := each_eq_ok.mp (validateRecordPoints_of_applyRecords h) r hr
  cases r with
  | points ps =>
    simp only [validatePoints, bind_eq_ok, each_eq_ok, failIf_eq_ok, not_not, not_and] at hcheck
    obtain ⟨_, -, hall⟩ := hcheck
    obtain ⟨_, hseries, hrun⟩ := hall p hp
    exact ⟨hseries, hrun⟩
  | _ => cases hp

end Catalog

end Ftwdb
