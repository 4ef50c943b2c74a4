import Ftwdb.Lib.Check
import Ftwdb.Lib.DependencyOrder
import Ftwdb.Model.Types

/-!
# The catalog

`catalog.rs` and the validation of `model.rs`: the checks on single records,
the checks on references between them, the application of a transaction to a
catalog, and the snapshot a compact log starts with.

Every check reports the source's own text.  Loops over ordered maps run in key
order, so that the first failing record is the source's.
-/

namespace Ftwdb

open Check

/-! ## Records on their own -/

/-- `char::is_whitespace`: the characters with the Unicode property `White_Space`. -/
def isWhitespace (c : Char) : Bool :=
  let n := c.toNat
  decide ((9 ≤ n ∧ n ≤ 13) ∨ n = 0x20 ∨ n = 0x85 ∨ n = 0xA0 ∨ n = 0x1680 ∨
    (0x2000 ≤ n ∧ n ≤ 0x200A) ∨ n = 0x2028 ∨ n = 0x2029 ∨ n = 0x202F ∨ n = 0x205F ∨ n = 0x3000)

/-- `trim().is_empty()`. -/
def isBlank (s : String) : Bool := s.toList.all isWhitespace

section Validation

variable [Jiff]

/-- `RollupResolution::validate`. -/
def RollupResolution.validate : RollupResolution → Except String Unit
  | .fixedMicros value => failIf (value ≤ 0) "fixed rollup resolution must be positive"
  | .calendar _ ianaTimezone => do
      failIf (isBlank ianaTimezone) "calendar rollups require an IANA timezone"
      failIf (Jiff.zoneExists ianaTimezone = false) "calendar rollups require a valid IANA timezone"

/-- `RollupTier::validate`. -/
def RollupTier.validate (tier : RollupTier) : Except String Unit := do
  tier.resolution.validate
  failIf (tier.retainForMicros.any (· ≤ 0))
    "rollup retention must be positive or forever"

/-- `SeriesDefinition::validate`. -/
def SeriesDefinition.validate (series : SeriesDefinition) : Except String Unit := do
  failIf (series.id = 0) "series id zero is reserved"
  failIf (isBlank series.name) "series name must not be empty"
  failIf (isBlank series.physicalQuantity ∨ isBlank series.canonicalUnit)
    "physical quantity and canonical unit are required"
  failIf (series.ownerEntity.isSome = series.ownerRelation.isSome)
    "series must belong to exactly one entity or relation"
  failIf (series.maximumGapMicros.any (· < 0)) "maximum gap must not be negative"
  failIf (series.rollupPolicy.rawRetainForMicros.any (· ≤ 0))
    "raw retention must be positive or forever"
  each RollupTier.validate series.rollupPolicy.tiers

end Validation

/-- `Plan::validate`. -/
def Plan.validate (plan : Plan) : Except String Unit := do
  failIf (plan.id = 0 ∨ plan.runId = 0) "plan and run ids must be non-zero"
  failIf (plan.horizonEnd ≤ plan.horizonStart) "plan horizon must have positive duration"
  failIf (plan.resolutionMicros ≤ 0) "plan resolution must be positive"
  failIf (isBlank plan.scenario) "plan scenario must not be empty"
  failIf (plan.supersedes = some plan.id) "plan cannot supersede itself"
  failIf ((plan.objectiveTerms.toList.any fun p => isBlank p.1 || !p.2.isFinite) ∨
    plan.objectiveValue.any fun value => !value.isFinite)
    "plan objectives require names and finite values"

/-- The catalog-independent point invariants. -/
def validatePointIntervals (points : List Point) : Except Error Unit :=
  each (fun point => do
    failIf (point.validTimeEnd < point.validTime)
      (Error.invalidModel "point interval ends before it starts")
    failIf (point.value.isFinite = false) (Error.invalidModel "point value must be finite")) points

/-- A float property that is not finite. -/
def PropertyValue.isBadFloat : PropertyValue → Bool
  | .float number => !number.isFinite
  | _ => false

/-- `validate_properties`. -/
def validateProperties (label : String) (properties : Properties) : Except Error Unit :=
  failIf (properties.toList.any fun p => isBlank p.1 || p.2.isBadFloat)
    (.invalidModel s!"{label} properties require names and finite float values")

/-- `validate_entity`. -/
def validateEntity (entity : Entity) : Except Error Unit := do
  failIf (entity.id = 0) (Error.invalidModel "entity id zero is reserved")
  failIf (isBlank entity.kind ∨ isBlank entity.name)
    (Error.invalidModel "entity kind and name are required")
  failIf (entity.parent = some entity.id) (Error.invalidModel "entity cannot be its own parent")
  failIf (entity.validTo.any (· ≤ entity.validFrom))
    (Error.invalidModel "entity validity interval must be positive")
  validateProperties "entity" entity.properties

/-- `validate_relation`. -/
def validateRelation (relation : Relation) : Except Error Unit := do
  failIf (relation.id = 0 ∨ isBlank relation.kind)
    (Error.invalidModel "relation id and kind are required")
  failIf (relation.validTo.any (· ≤ relation.validFrom))
    (Error.invalidModel "relation validity interval must be positive")
  validateProperties "relation" relation.properties

/-- `validate_run`. -/
def validateRun (run : Run) : Except Error Unit := do
  failIf (run.id = 0 ∨ isBlank run.workflow) (Error.invalidModel "run id and workflow are required")
  failIf (run.parentRun = some run.id ∨ run.inputSnapshot = some run.id)
    (Error.invalidModel "run cannot refer to itself")
  validateProperties "run" run.attributes

/-- A run that has ended. -/
def RunStatus.isTerminal : RunStatus → Bool
  | .succeeded | .failed | .cancelled => true
  | _ => false

/-- `validate_run_transition`. -/
def validateRunTransition (previous next : Run) : Except Error Unit := do
  failIf (previous.status.isTerminal ∧ previous.eq next = false)
    (Error.invalidModel s!"completed run {previous.id.toNat} is immutable")
  failIf (previous.kind ≠ next.kind ∨ previous.createdAt ≠ next.createdAt)
    (Error.invalidModel s!"run {previous.id.toNat} identity fields are immutable")

/-- The status changes a plan may make. -/
def PlanStatus.mayBecome : PlanStatus → PlanStatus → Bool
  | .candidate, .approved | .candidate, .cancelled | .candidate, .superseded
  | .approved, .deployed | .approved, .cancelled | .approved, .superseded
  | .deployed, .superseded => true
  | previous, next => decide (previous = next)

/-- `validate_plan_transition`. -/
def validatePlanTransition (previous next : Plan) : Except Error Unit := do
  failIf (previous.runId ≠ next.runId ∨ previous.horizonStart ≠ next.horizonStart ∨
    previous.horizonEnd ≠ next.horizonEnd ∨ previous.resolutionMicros ≠ next.resolutionMicros)
    (Error.invalidModel s!"plan {previous.id.toNat} schedule identity fields are immutable")
  failIf (previous.status.mayBecome next.status = false)
    (Error.invalidModel s!"invalid plan {previous.id.toNat} status transition")

/-! ## The catalog and its references -/

/-- `Catalog`: the records by their ids. -/
structure Catalog where
  entities : Std.ExtTreeMap EntityId Entity := ∅
  relations : Std.ExtTreeMap RelationId Relation := ∅
  series : Std.ExtTreeMap UInt64 SeriesDefinition := ∅
  runs : Std.ExtTreeMap RunId Run := ∅
  plans : Std.ExtTreeMap U128 Plan := ∅
deriving DecidableEq

/-- Follows parents from `id`; at most one node beyond the known entities is met. -/
def validateNoParentCycle (id : EntityId) (entities : Std.ExtTreeMap EntityId Entity) :
    Except Error Unit :=
  (DependencyOrder.chain (fun n => entities[n]?.bind Entity.parent) (entities.size + 2) []
    (some id)).mapError fun n => .invalidModel s!"entity parent cycle contains {n.toNat}"

/-- A run's links in the order they are visited. -/
def Run.links (run : Run) : List RunId := run.parentRun.toList ++ run.inputSnapshot.toList

/-- Every node is opened and closed once and pushed once for each link to it. -/
def validateNoRunCycles (runs : Std.ExtTreeMap RunId Run) : Except Error Unit :=
  ((DependencyOrder.visitAll (fun n => (runs[n]?.map Run.links).getD []) (4 * runs.size + 1) ∅
    runs.keys).mapError fun n =>
      .invalidModel s!"run provenance cycle contains {n.toNat}").map fun _ => ()

/-- `validate_no_plan_cycles`. -/
def validateNoPlanCycles (plans : Std.ExtTreeMap U128 Plan) : Except Error Unit :=
  ((DependencyOrder.visitAll (fun n => (plans[n]?.bind Plan.supersedes).toList)
    (4 * plans.size + 1) ∅ plans.keys).mapError fun n =>
      .invalidModel s!"plan supersession cycle contains {n.toNat}").map fun _ => ()

namespace Catalog

/-- The parent of an entity exists and does not lead back. -/
def validateEntityReferences (c : Catalog) (entity : Entity) : Except Error Unit := do
  ifSome entity.parent fun parent =>
    failIf (parent ∉ c.entities) (Error.invalidModel
      s!"entity {entity.id.toNat} refers to missing parent {parent.toNat}")
  validateNoParentCycle entity.id c.entities

/-- The ends of a relation exist. -/
def validateRelationReferences (c : Catalog) (relation : Relation) : Except Error Unit :=
  failIf (relation.source ∉ c.entities ∨ relation.target ∉ c.entities)
    (Error.invalidModel s!"relation {relation.id.toNat} has a missing endpoint")

/-- The owners of a series exist. -/
def validateSeriesReferences (c : Catalog) (series : SeriesDefinition) : Except Error Unit :=
  failIf ((series.ownerEntity.any fun owner => !c.entities.contains owner) ∨
    series.ownerRelation.any fun owner => !c.relations.contains owner)
    (Error.invalidModel s!"series {series.id.toNat} has a missing owner")

/-- The provenance of a run exists. -/
def validateRunReferences (c : Catalog) (run : Run) : Except Error Unit :=
  failIf ((run.parentRun.any fun parent => !c.runs.contains parent) ∨
    run.inputSnapshot.any fun input => !c.runs.contains input)
    (Error.invalidModel s!"run {run.id.toNat} has missing provenance")

/-- The run of a plan exists and is an optimization. -/
def validatePlanRun (c : Catalog) (plan : Plan) : Except Error Unit :=
  match c.runs[plan.runId]? with
  | none => .error (Error.invalidModel s!"plan {plan.id.toNat} refers to a missing run")
  | some run =>
    failIf (run.kind ≠ .optimization)
      (Error.invalidModel s!"plan {plan.id.toNat} must refer to an optimization run")

/-- The run of a plan and the plan it supersedes exist. -/
def validatePlanReferences (c : Catalog) (plan : Plan) : Except Error Unit := do
  c.validatePlanRun plan
  failIf (plan.supersedes.any fun previous => !c.plans.contains previous)
    (Error.invalidModel s!"plan {plan.id.toNat} supersedes a missing plan")

/-- `validate_references`, over all records. -/
def validateReferences (c : Catalog) : Except Error Unit := do
  each (fun p => c.validateEntityReferences p.2) c.entities.toList
  each (fun p => c.validateRelationReferences p.2) c.relations.toList
  each (fun p => c.validateSeriesReferences p.2) c.series.toList
  each (fun p => c.validateRunReferences p.2) c.runs.toList
  validateNoRunCycles c.runs
  each (fun p => c.validatePlanReferences p.2) c.plans.toList
  validateNoPlanCycles c.plans

/-- `validate_points`: series are defined and runs exist. -/
def validatePoints (c : Catalog) (points : List Point) : Except Error Unit := do
  validatePointIntervals points
  each (fun point => do
    failIf (point.seriesId ∉ c.series)
      (Error.invalidModel s!"point refers to undefined series {point.seriesId.toNat}")
    failIf (point.runId ≠ 0 ∧ point.runId ∉ c.runs)
      (Error.invalidModel s!"point refers to missing run {point.runId.toNat}")) points

/-! ## Applying transactions -/

section Apply

variable [Jiff]

/-- `apply`: one record is checked and entered. -/
def apply (c : Catalog) : Record → Except Error Catalog
  | .entity entity => do
      validateEntity entity
      .ok { c with entities := c.entities.insert entity.id entity }
  | .relation relation => do
      validateRelation relation
      .ok { c with relations := c.relations.insert relation.id relation }
  | .series series => do
      series.validate.mapError Error.invalidModel
      .ok { c with series := c.series.insert series.id series }
  | .run run => do
      validateRun run
      ifSome c.runs[run.id]? fun previous => validateRunTransition previous run
      .ok { c with runs := c.runs.insert run.id run }
  | .plan plan => do
      plan.validate.mapError Error.invalidModel
      validateProperties "plan" plan.attributes
      ifSome c.plans[plan.id]? fun previous => validatePlanTransition previous plan
      .ok { c with plans := c.plans.insert plan.id plan }
  | .points _ => .ok c

/-- The point records of a transaction against the catalog it leads to. -/
def validateRecordPoints (c : Catalog) (records : List Record) : Except Error Unit :=
  each (fun record => match record with
    | .points points => c.validatePoints points
    | _ => .ok ()) records

/-- `validate_and_apply`: all records of a transaction or none. -/
def validateAndApply (c : Catalog) (records : List Record) : Except Error Catalog := do
  let candidate ← records.foldlM apply c
  candidate.validateReferences
  candidate.validateRecordPoints records
  .ok candidate

/-- `none` for a transaction of points only, which leaves the catalog as it is. -/
def applyRecords (c : Catalog) (records : List Record) : Except Error (Option Catalog) :=
  if records.all Record.isPoints then (c.validateRecordPoints records).map fun _ => none
  else (c.validateAndApply records).map some

/-- A recovered transaction that the catalog refuses is corruption of the log.
The text of the inner error is left out. -/
def applyRecovered (c : Catalog) (records : List Record) (offset : Nat) : Except Error Catalog :=
  match c.applyRecords records with
  | .ok none => .ok c
  | .ok (some candidate) => .ok candidate
  | .error _ => .error (.corruption offset "invalid recovered transaction")

end Apply

/-! ## Snapshots -/

/-- The values of one map, each behind the values it depends on. -/
def snapshotOrder {α : Type} (m : Std.ExtTreeMap U128 α) (deps : α → List U128) (reason : String) :
    Except Error (List α) :=
  match DependencyOrder.layers (fun n => (m[n]?.map deps).getD []) m.size m.keys with
  | none => .error (.invalidModel reason)
  | some ids => .ok (ids.filterMap fun n => m[n]?)

/-- Catalog records in an order in which they can be applied again. -/
def snapshotRecords (c : Catalog) : Except Error (List Record) := do
  c.validateReferences
  let entities ← snapshotOrder c.entities (fun e => e.parent.toList)
    "entity dependency graph cannot be snapshotted"
  let runs ← snapshotOrder c.runs Run.links "run dependency graph cannot be snapshotted"
  let plans ← snapshotOrder c.plans (fun p => p.supersedes.toList)
    "plan dependency graph cannot be snapshotted"
  .ok (entities.map .entity ++ c.relations.toList.map (fun p => .relation p.2) ++
    c.series.toList.map (fun p => .series p.2) ++ runs.map .run ++ plans.map .plan)

end Catalog

end Ftwdb
