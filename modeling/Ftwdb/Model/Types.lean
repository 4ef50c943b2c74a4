import Ftwdb.Lib.Postcard
import Mathlib.Data.Rat.Defs

/-!
# The data model

Points, catalog records, transactions and errors, as `model.rs`, `storage.rs`,
`transaction.rs` and `error.rs` define them.  Identifiers keep their width.  A
floating-point number is its bit pattern: the database stores bits, tests them
for finiteness and compares them in one place, and only rollups compute with
the number they stand for.

Time zones come from the jiff crate.  `Jiff` lists the calls the code makes;
everything that reaches a calendar is stated over an arbitrary instance.
-/

namespace Ftwdb

open ByteCodec

/-- A 128-bit identifier. -/
abbrev U128 := BitVec 128

instance : Std.TransOrd U128 := inferInstance

instance : Std.LawfulEqOrd U128 := inferInstance

/-! ## Floating point -/

/-- An IEEE 754 double, by its bits. -/
structure F64 where
  bits : UInt64
deriving DecidableEq, Repr

namespace F64

/-- The eleven exponent bits. -/
def exponent (x : F64) : Nat := x.bits.toNat / 2 ^ 52 % 2 ^ 11

/-- The fifty-two fraction bits. -/
def fraction (x : F64) : Nat := x.bits.toNat % 2 ^ 52

/-- The sign bit is set. -/
def isNegative (x : F64) : Bool := decide (2 ^ 63 ≤ x.bits.toNat)

/-- `is_finite`. -/
def isFinite (x : F64) : Bool := decide (x.exponent ≠ 2047)

/-- Not a number. -/
def isNan (x : F64) : Bool := decide (x.exponent = 2047 ∧ x.fraction ≠ 0)

/-- Either zero. -/
def isZero (x : F64) : Bool := decide (x.exponent = 0 ∧ x.fraction = 0)

/-- The comparison `==` of the source: no value equals a NaN and both zeros are equal. -/
def eq (x y : F64) : Bool :=
  !x.isNan && !y.isNan && ((x.isZero && y.isZero) || decide (x = y))

/-- The number a finite double stands for. -/
def toRat (x : F64) : ℚ :=
  let magnitude : ℚ :=
    if x.exponent = 0 then (x.fraction : ℚ) / 2 ^ 1074
    else if x.exponent < 1075 then ((2 ^ 52 + x.fraction : Nat) : ℚ) / 2 ^ (1075 - x.exponent)
    else ((2 ^ 52 + x.fraction : Nat) : ℚ) * 2 ^ (x.exponent - 1075)
  if x.isNegative then -magnitude else magnitude

end F64

/-! ## Points -/

/-- A value in three-dimensional time plus provenance. -/
structure Point where
  seriesId : UInt64
  validTime : Int64
  validTimeEnd : Int64
  knowledgeTime : Int64
  changeTime : Int64
  runId : U128
  value : F64
  quality : UInt32
  flags : UInt32
deriving DecidableEq

namespace Point

/-- A point observed, known and recorded at one instant. -/
def actual (seriesId : UInt64) (timestamp : Int64) (value : F64) : Point where
  seriesId := seriesId
  validTime := timestamp
  validTimeEnd := timestamp
  knowledgeTime := timestamp
  changeTime := timestamp
  runId := 0
  value := value
  quality := 0
  flags := 0

end Point

/-! ## Catalog records -/

/-- `EntityId`. -/
abbrev EntityId := U128

/-- `RelationId`. -/
abbrev RelationId := U128

/-- `RunId`. -/
abbrev RunId := U128

/-- `PropertyValue`. -/
inductive PropertyValue where
  | null
  | bool (value : Bool)
  | integer (value : Int64)
  | float (value : F64)
  | text (value : String)
deriving DecidableEq

namespace PropertyValue

/-- The derived `==`. -/
def eq : PropertyValue → PropertyValue → Bool
  | null, null => true
  | bool a, bool b => decide (a = b)
  | integer a, integer b => decide (a = b)
  | float a, float b => a.eq b
  | text a, text b => decide (a = b)
  | _, _ => false

end PropertyValue

/-- `Properties`. -/
abbrev Properties := Std.ExtTreeMap String PropertyValue

namespace Properties

/-- The `==` of ordered maps: the same keys with equal values. -/
def eq (a b : Properties) : Bool :=
  decide (a.toList.length = b.toList.length) &&
    (a.toList.zip b.toList).all fun p => decide (p.1.1 = p.2.1) && p.1.2.eq p.2.2

end Properties

/-- `Entity`. -/
structure Entity where
  id : EntityId
  kind : String
  name : String
  parent : Option EntityId
  validFrom : Int64
  validTo : Option Int64
  properties : Properties
deriving DecidableEq

/-- `Relation`. -/
structure Relation where
  id : RelationId
  kind : String
  source : EntityId
  target : EntityId
  validFrom : Int64
  validTo : Option Int64
  properties : Properties
deriving DecidableEq

/-- `SeriesSemantics`. -/
inductive SeriesSemantics where
  | gauge
  | intervalTotal
  | counter
  | state
  | event
deriving DecidableEq

/-- `CalendarUnit`. -/
inductive CalendarUnit where
  | day
  | month
  | year
deriving DecidableEq

/-- `RollupResolution`. -/
inductive RollupResolution where
  | fixedMicros (value : Int64)
  | calendar (unit : CalendarUnit) (ianaTimezone : String)
deriving DecidableEq

/-- `RollupTier`. -/
structure RollupTier where
  resolution : RollupResolution
  /-- `none` keeps this tier forever. -/
  retainForMicros : Option Int64
deriving DecidableEq

/-- `RollupPolicy`. -/
structure RollupPolicy where
  rawRetainForMicros : Option Int64
  tiers : List RollupTier
deriving DecidableEq

/-- `SeriesDefinition`. -/
structure SeriesDefinition where
  id : UInt64
  ownerEntity : Option EntityId
  ownerRelation : Option RelationId
  name : String
  physicalQuantity : String
  canonicalUnit : String
  semantics : SeriesSemantics
  maximumGapMicros : Option Int64
  rollupPolicy : RollupPolicy
deriving DecidableEq

/-- `RunKind`; `import` is a keyword here. -/
inductive RunKind where
  | forecast
  | optimization
  | dataImport
  | control
  | reconciliation
deriving DecidableEq

/-- `RunStatus`. -/
inductive RunStatus where
  | pending
  | running
  | succeeded
  | failed
  | cancelled
deriving DecidableEq

/-- `Run`. -/
structure Run where
  id : RunId
  kind : RunKind
  status : RunStatus
  createdAt : Int64
  knowledgeTime : Int64
  workflow : String
  model : String
  modelVersion : String
  parentRun : Option RunId
  inputSnapshot : Option RunId
  attributes : Properties
deriving DecidableEq

namespace Run

/-- The derived `==`. -/
def eq (a b : Run) : Bool :=
  decide (a.id = b.id ∧ a.kind = b.kind ∧ a.status = b.status ∧ a.createdAt = b.createdAt ∧
    a.knowledgeTime = b.knowledgeTime ∧ a.workflow = b.workflow ∧ a.model = b.model ∧
    a.modelVersion = b.modelVersion ∧ a.parentRun = b.parentRun ∧
    a.inputSnapshot = b.inputSnapshot) && a.attributes.eq b.attributes

end Run

/-- `PlanStatus`. -/
inductive PlanStatus where
  | candidate
  | approved
  | deployed
  | superseded
  | cancelled
deriving DecidableEq

/-- `Plan`. -/
structure Plan where
  id : U128
  runId : RunId
  status : PlanStatus
  horizonStart : Int64
  horizonEnd : Int64
  resolutionMicros : Int64
  scenario : String
  objectiveTerms : Std.ExtTreeMap String F64
  objectiveValue : Option F64
  supersedes : Option U128
  attributes : Properties
deriving DecidableEq

/-! ## Transactions -/

/-- Identity of one ordered ingress transaction. -/
@[ext] structure IngressIdentity where
  sourceId : U128
  sequence : UInt64
  commitId : U128
deriving DecidableEq

/-- `Record`: what a transaction may hold. -/
inductive Record where
  | entity (value : Entity)
  | relation (value : Relation)
  | series (value : SeriesDefinition)
  | run (value : Run)
  | plan (value : Plan)
  | points (value : List Point)
deriving DecidableEq

namespace Record

/-- The points of a point record, nothing for a catalog record. -/
def pointList : Record → List Point
  | points ps => ps
  | _ => []

/-- A record of points. -/
def isPoints : Record → Bool
  | points _ => true
  | _ => false

end Record

/-- One atomic catalog-and-data commit. -/
structure Transaction where
  records : List Record := []
  commitId : Option U128 := none
  ingressIdentity : Option IngressIdentity := none
deriving DecidableEq

namespace Transaction

/-- `with_ingress_identity`. -/
def withIngressIdentity (t : Transaction) (identity : IngressIdentity) : Transaction :=
  { t with commitId := some identity.commitId, ingressIdentity := some identity }

/-- `is_empty`. -/
def isEmpty (t : Transaction) : Bool := t.records.isEmpty

/-- `record_count`. -/
def recordCount (t : Transaction) : Nat := t.records.length

/-- `point_count`. -/
def pointCount (t : Transaction) : Nat := (t.records.map fun r => r.pointList.length).sum

/-- The points of the transaction in the order they are indexed. -/
def pointList (t : Transaction) : List Point := t.records.flatMap Record.pointList

end Transaction

/-! ## Errors -/

/-- The errors of the modelled calls.  An operating-system error keeps no
detail, and neither does the path of a locked file. -/
inductive Error where
  | io
  | invalidHeader
  | unsupportedVersion (version : UInt16)
  | corruption (offset : Nat) (reason : String)
  | batchTooLarge (points maximum : Nat)
  | invalidConfig (reason : String)
  | resourceLimit (reason : String)
  | invalidArgument (reason : String)
  | invalidModel (reason : String)
  | serialization (reason : String)
  | poisoned
  | locked
  | readOnly
  | snapshotPublication (path reason : String)
  | ingressSourceSequenceConflict (sourceId : U128) (sequence : UInt64)
  | ingressCommitIdConflict (commitId : U128)
  | ingressSequenceNotIncreasing (sourceId : U128) (previous actual : UInt64)
deriving DecidableEq

/-! ## Time zones -/

/-- The calls into the jiff crate.  `none` is an error of the library. -/
class Jiff where
  /-- An instant in a time zone. -/
  Zoned : Type
  /-- `TimeZone::get` finds the zone. -/
  zoneExists : String → Bool
  /-- `Timestamp::from_microsecond` followed by `in_tz`. -/
  inTz : Int64 → String → Option Zoned
  startOfDay : Zoned → Option Zoned
  firstOfMonth : Zoned → Option Zoned
  firstOfYear : Zoned → Option Zoned
  /-- `checked_add` of one day, month or year. -/
  addUnit : CalendarUnit → Zoned → Option Zoned
  /-- `timestamp().as_microsecond()`. -/
  asMicrosecond : Zoned → Int64

/-- A library that knows no time zone, for runs without calendar tiers. -/
@[reducible] def Jiff.withoutZones : Jiff where
  Zoned := Unit
  zoneExists := fun _ => false
  inTz := fun _ _ => none
  startOfDay := fun _ => none
  firstOfMonth := fun _ => none
  firstOfYear := fun _ => none
  addUnit := fun _ _ => none
  asMicrosecond := fun _ => 0

end Ftwdb
