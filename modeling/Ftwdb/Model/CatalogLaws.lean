import Ftwdb.Lib.KeyedMap
import Ftwdb.Model.Catalog

/-!
# Laws of the catalog

`Catalog.Valid` is what every accepted transaction keeps: each record sits
under its own identifier and passes its check, and the references pass theirs.
`Catalog.Referenced` lists what the reference checks ask for, and `Catalog.Enters`
what an accepted record does.  The cycle checks leave a rank, with which the
ordering loop of a snapshot does not get stuck.
-/

namespace Ftwdb

open Check KeyedMap List

/-! ## Valid catalogs -/

namespace Catalog

/-- Without point records there is nothing to check against the catalog. -/
theorem validateRecordPoints_of_catalog {c : Catalog} {records : List Record}
    (h : ∀ r ∈ records, r.isPoints = false) : c.validateRecordPoints records = .ok () := by
  refine each_eq_ok.mpr fun r hr => ?_
  cases r with
  | points ps => exact absurd (h _ hr) (by simp [Record.isPoints])
  | _ => rfl

/-- What the reference checks ask for. -/
structure Referenced (c : Catalog) : Prop where
  entities : ∀ (id : EntityId) (e : Entity), c.entities[id]? = some e →
    (∀ p ∈ e.parent, p ∈ c.entities) ∧ validateNoParentCycle e.id c.entities = .ok ()
  relations : ∀ (id : RelationId) (r : Relation), c.relations[id]? = some r →
    r.source ∈ c.entities ∧ r.target ∈ c.entities
  series : ∀ (id : UInt64) (s : SeriesDefinition), c.series[id]? = some s →
    (∀ o ∈ s.ownerEntity, o ∈ c.entities) ∧ ∀ o ∈ s.ownerRelation, o ∈ c.relations
  runs : ∀ (id : RunId) (r : Run), c.runs[id]? = some r → ∀ b ∈ r.links, b ∈ c.runs
  runCycles : validateNoRunCycles c.runs = .ok ()
  plans : ∀ (id : U128) (p : Plan), c.plans[id]? = some p →
    (∃ r : Run, c.runs[p.runId]? = some r ∧ r.kind = .optimization) ∧
      ∀ o ∈ p.supersedes, o ∈ c.plans
  planCycles : validateNoPlanCycles c.plans = .ok ()

section References

variable {c : Catalog}

theorem validateRunReferences_eq_ok {r : Run} :
    c.validateRunReferences r = .ok () ↔ ∀ b ∈ r.links, b ∈ c.runs := by
  rw [validateRunReferences, failIf_eq_ok, Run.links]
  cases r.parentRun <;> cases r.inputSnapshot <;> simp

theorem validatePlanReferences_eq_ok {p : Plan} : c.validatePlanReferences p = .ok () ↔
    (∃ r : Run, c.runs[p.runId]? = some r ∧ r.kind = .optimization) ∧
      ∀ o ∈ p.supersedes, o ∈ c.plans := by
  simp only [validatePlanReferences, validatePlanRun, bind_eq_ok, failIf_eq_ok]
  cases c.runs[p.runId]? <;> cases p.supersedes <;> simp

/-- The check of all references, as a statement. -/
theorem validateReferences_iff : c.validateReferences = .ok () ↔ c.Referenced := by
  have hentity (e : Entity) : c.validateEntityReferences e = .ok () ↔
      (∀ p ∈ e.parent, p ∈ c.entities) ∧ validateNoParentCycle e.id c.entities = .ok () := by
    simp [validateEntityReferences]
  have hrelation (r : Relation) : c.validateRelationReferences r = .ok () ↔
      r.source ∈ c.entities ∧ r.target ∈ c.entities := by
    simp [validateRelationReferences]
  have hseries (s : SeriesDefinition) : c.validateSeriesReferences s = .ok () ↔
      (∀ o ∈ s.ownerEntity, o ∈ c.entities) ∧ ∀ o ∈ s.ownerRelation, o ∈ c.relations := by
    rw [validateSeriesReferences, failIf_eq_ok]
    cases s.ownerEntity <;> cases s.ownerRelation <;> simp
  simp only [validateReferences, bind_eq_ok, each_eq_ok, hentity, hrelation, hseries,
    validateRunReferences_eq_ok, validatePlanReferences_eq_ok]
  constructor
  · rintro ⟨_, h₁, _, h₂, _, h₃, _, h₄, _, h₅, _, h₆, h₇⟩
    exact ⟨forall_mem_toList.mp h₁, forall_mem_toList.mp h₂, forall_mem_toList.mp h₃,
      forall_mem_toList.mp h₄, h₅, forall_mem_toList.mp h₆, h₇⟩
  · rintro ⟨h₁, h₂, h₃, h₄, h₅, h₆, h₇⟩
    exact ⟨(), forall_mem_toList.mpr h₁, (), forall_mem_toList.mpr h₂, (),
      forall_mem_toList.mpr h₃, (), forall_mem_toList.mpr h₄, (), h₅, (),
      forall_mem_toList.mpr h₆, h₇⟩

end References

variable [Jiff]

/-- What an accepted record does to the catalog. -/
inductive Enters (c : Catalog) : Record → Catalog → Prop
  | entity {e : Entity} : validateEntity e = .ok () →
      Enters c (.entity e) { c with entities := c.entities.insert e.id e }
  | relation {r : Relation} : validateRelation r = .ok () →
      Enters c (.relation r) { c with relations := c.relations.insert r.id r }
  | series {s : SeriesDefinition} : s.validate = .ok () →
      Enters c (.series s) { c with series := c.series.insert s.id s }
  | run {r : Run} : validateRun r = .ok () →
      (∀ previous ∈ c.runs[r.id]?, validateRunTransition previous r = .ok ()) →
      Enters c (.run r) { c with runs := c.runs.insert r.id r }
  | plan {p : Plan} : p.validate = .ok () → validateProperties "plan" p.attributes = .ok () →
      (∀ previous ∈ c.plans[p.id]?, validatePlanTransition previous p = .ok ()) →
      Enters c (.plan p) { c with plans := c.plans.insert p.id p }
  | points {ps : List Point} : Enters c (.points ps) c

/-- What it takes to enter a record. -/
theorem apply_eq_ok {c c' : Catalog} {record : Record} :
    c.apply record = .ok c' ↔ c.Enters record c' := by
  constructor
  · intro h
    cases record with
    | points ps =>
      cases h
      exact .points
    | entity | relation | series =>
      simp only [apply, bind_eq_ok, mapError_eq_ok] at h
      obtain ⟨_, hok, h⟩ := h
      cases h
      constructor
      exact hok
    | run r =>
      simp only [apply, bind_eq_ok, ifSome_eq_ok] at h
      obtain ⟨_, hok, _, htransition, h⟩ := h
      cases h
      exact .run hok htransition
    | plan p =>
      simp only [apply, bind_eq_ok, mapError_eq_ok, ifSome_eq_ok] at h
      obtain ⟨_, hok, _, hattributes, _, htransition, h⟩ := h
      cases h
      exact .plan hok hattributes htransition
  · intro h
    cases h with
    | points => rfl
    | entity hok | relation hok | series hok => simp [apply, hok]
    | run hok htransition => simpa [apply, hok] using htransition
    | plan hok hattributes htransition => simpa [apply, hok, hattributes] using htransition

/-- Every record sits under its identifier and passes its own check. -/
structure RecordsValid (c : Catalog) : Prop where
  entities : EntriesOk Entity.id (fun e => validateEntity e = .ok ()) c.entities
  relations : EntriesOk Relation.id (fun r => validateRelation r = .ok ()) c.relations
  series : EntriesOk SeriesDefinition.id (fun s => s.validate = .ok ()) c.series
  runs : EntriesOk Run.id (fun r => validateRun r = .ok ()) c.runs
  plans : EntriesOk Plan.id
    (fun p => p.validate = .ok () ∧ validateProperties "plan" p.attributes = .ok ()) c.plans

/-- The records are valid and refer to one another correctly. -/
structure Valid (c : Catalog) : Prop extends RecordsValid c where
  references : c.validateReferences = .ok ()

theorem RecordsValid.empty : RecordsValid {} :=
  ⟨.empty _ _, .empty _ _, .empty _ _, .empty _ _, .empty _ _⟩

theorem Valid.empty : Valid {} := ⟨.empty, by decide +kernel⟩

variable {c c' : Catalog} {records : List Record}

/-- A record that is entered has been validated. -/
theorem RecordsValid.apply {record : Record} (hc : c.RecordsValid)
    (h : c.apply record = .ok c') : c'.RecordsValid := by
  cases apply_eq_ok.mp h with
  | entity hok => exact { hc with entities := hc.entities.insert hok }
  | relation hok => exact { hc with relations := hc.relations.insert hok }
  | series hok => exact { hc with series := hc.series.insert hok }
  | run hok _ => exact { hc with runs := hc.runs.insert hok }
  | plan hok hattributes _ => exact { hc with plans := hc.plans.insert ⟨hok, hattributes⟩ }
  | points => exact hc

theorem RecordsValid.foldlM (hc : c.RecordsValid)
    (h : records.foldlM Catalog.apply c = .ok c') : c'.RecordsValid :=
  foldlM_invariant RecordsValid (fun _ _ _ _ hb hstep => hb.apply hstep) hc h

theorem Valid.validateAndApply (hc : c.Valid)
    (h : c.validateAndApply records = .ok c') : c'.Valid := by
  simp only [Catalog.validateAndApply, bind_eq_ok] at h
  obtain ⟨candidate, hfold, _, hreferences, _, -, h⟩ := h
  cases h
  exact ⟨hc.toRecordsValid.foldlM hfold, hreferences⟩

/-- A transaction leaves the catalog valid. -/
theorem Valid.applyRecords (hc : c.Valid)
    (h : c.applyRecords records = .ok (some c')) : c'.Valid := by
  rw [Catalog.applyRecords] at h
  split at h
  · simp at h
  · obtain ⟨candidate, hcandidate, heq⟩ := map_eq_ok.mp h
    cases heq
    exact hc.validateAndApply hcandidate

theorem Valid.applyRecovered {offset : Nat}
    (hc : c.Valid) (h : c.applyRecovered records offset = .ok c') : c'.Valid := by
  rw [Catalog.applyRecovered] at h
  split at h
  · cases h
    exact hc
  · next hok =>
    cases h
    exact hc.applyRecords hok
  · simp at h

/-- The points of an accepted transaction were checked against the catalog behind it. -/
theorem validateRecordPoints_of_applyRecords {o : Option Catalog}
    (h : c.applyRecords records = .ok o) : (o.getD c).validateRecordPoints records = .ok () := by
  rw [Catalog.applyRecords] at h
  split at h
  · obtain ⟨_, hpoints, rfl⟩ := map_eq_ok.mp h
    exact hpoints
  · obtain ⟨candidate, hcandidate, rfl⟩ := map_eq_ok.mp h
    simp only [Catalog.validateAndApply, bind_eq_ok] at hcandidate
    obtain ⟨_, -, _, -, _, hpoints, hsame⟩ := hcandidate
    cases hsame
    exact hpoints

/-- They have passed their own checks. -/
theorem intervals_of_applyRecords {o : Option Catalog} (h : c.applyRecords records = .ok o) :
    ∀ r ∈ records, validatePointIntervals r.pointList = .ok () := by
  intro r hr
  have hcheck := each_eq_ok.mp (validateRecordPoints_of_applyRecords h) r hr
  cases r with
  | points ps =>
    simp only [validatePoints, bind_eq_ok] at hcheck
    exact hcheck.choose_spec.1
  | _ => rfl

theorem intervals_of_applyRecovered {offset : Nat}
    (h : c.applyRecovered records offset = .ok c') :
    ∀ r ∈ records, validatePointIntervals r.pointList = .ok () := by
  rw [Catalog.applyRecovered] at h
  split at h
  · next hok => exact intervals_of_applyRecords hok
  · next hok => exact intervals_of_applyRecords hok
  · cases h

/-! ## Ranks -/

namespace Valid

variable (hc : c.Valid)

include hc

theorem referenced : c.Referenced := validateReferences_iff.mp hc.references

/-- Parents form no cycle. -/
theorem entity_rank : ∃ rank : U128 → Nat, ∀ n e, c.entities[n]? = some e →
    ∀ d ∈ e.parent.toList, rank d < rank n := by
  obtain ⟨rank, hrank⟩ :=
    DependencyOrder.exists_rank_of_ends fun n => c.entities[n]?.bind Entity.parent
  refine ⟨rank, fun n e he d hd => hrank n d ?_ ?_⟩
  · rw [he, Option.bind_some]
    exact Option.mem_toList.mp hd
  · have hchain := (hc.referenced.entities n e he).2
    rw [validateNoParentCycle, mapError_eq_ok, (hc.entities n e he).1] at hchain
    exact DependencyOrder.chain_ok_ends hchain

/-- Neither do the links of runs. -/
theorem run_rank : ∃ rank : U128 → Nat, ∀ n r, c.runs[n]? = some r →
    ∀ d ∈ r.links, rank d < rank n := by
  have hcycles := hc.referenced.runCycles
  simp only [validateNoRunCycles, map_eq_ok, mapError_eq_ok] at hcycles
  obtain ⟨_, hvisit, -⟩ := hcycles
  obtain ⟨rank, hrank⟩ := DependencyOrder.exists_rank_of_visitAll hvisit
  refine ⟨rank, fun n r hr d hd => hrank n ?_ d ?_⟩
  · exact Std.ExtTreeMap.mem_keys.mpr (mem_of_getElem? hr)
  · simpa [hr] using hd

/-- Nor the plans that supersede each other. -/
theorem plan_rank : ∃ rank : U128 → Nat, ∀ n p, c.plans[n]? = some p →
    ∀ d ∈ p.supersedes.toList, rank d < rank n := by
  have hcycles := hc.referenced.planCycles
  simp only [validateNoPlanCycles, map_eq_ok, mapError_eq_ok] at hcycles
  obtain ⟨_, hvisit, -⟩ := hcycles
  obtain ⟨rank, hrank⟩ := DependencyOrder.exists_rank_of_visitAll hvisit
  refine ⟨rank, fun n p hp d hd => hrank n ?_ d ?_⟩
  · exact Std.ExtTreeMap.mem_keys.mpr (mem_of_getElem? hp)
  · rw [hp, Option.bind_some]
    exact hd

end Valid

end Catalog

end Ftwdb
