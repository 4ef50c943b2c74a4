import Ftwdb.Lib.Crc32
import Ftwdb.Lib.Cursor
import Ftwdb.Model.Catalog

/-!
# The shadow wire protocol

`shadow_protocol.rs`: the messages, `encode`, `decode` and `read_from`.  Writers
and readers are named and ordered as in the source.  Where the source slices,
converts a slice to an array or marks a branch unreachable, the model panics if
it gets there; that it never does is proved with the rest of the codec.

A `Source` is what `read_from` reads from: the bytes to come and how the next
calls of `read` behave.
-/

namespace Ftwdb.Shadow

open ByteCodec Check

/-! ## Messages -/

/-- A client names itself and its source. -/
structure HelloRequest where
  sourceId : U128
  nodeId : String
  clientVersion : String
  capabilities : UInt64
deriving DecidableEq

/-- The sixteen bytes of a session. -/
structure SessionId where
  bytes : Bytes
  length : bytes.length = 16
deriving DecidableEq

/-- The server's version, session and clock. -/
structure HelloResponse where
  selectedVersion : UInt16
  sessionId : SessionId
  serverTimeMicros : Int64
deriving DecidableEq

/-- One transaction of a source, at its place in the sequence. -/
structure CommitBatchRequest where
  sourceId : U128
  sequence : UInt64
  commitId : U128
  entities : List Entity
  relations : List Relation
  series : List SeriesDefinition
  runs : List Run
  plans : List Plan
  points : List Point
deriving DecidableEq

/-- Make everything up to a sequence durable. -/
structure FlushRequest where
  sourceId : U128
  throughSequence : UInt64
deriving DecidableEq

/-- The nonce comes back in the answer. -/
structure HealthRequest where
  nonce : UInt64
deriving DecidableEq

/-- What an acknowledgement is for. -/
inductive AckKind where
  | commitBatch
  | flush
deriving DecidableEq

/-- What was stored for a batch, or how far a flush got. -/
structure Ack where
  kind : AckKind
  sourceId : U128
  sequence : UInt64
  commitId : U128
  acceptedThroughSequence : Option UInt64
  durableThroughSequence : Option UInt64
  durable : Bool
  deduplicated : Bool
  frameOffset : UInt64
  records : UInt32
  points : UInt32
  bytesWritten : UInt64
deriving DecidableEq

/-- How the server is. -/
inductive HealthStatus where
  | healthy
  | degraded
  | unavailable
deriving DecidableEq

/-- When the log is synced, as a health answer reports it. -/
inductive SyncPolicy where
  | always
  | manual
  | everyBytes (bytes : UInt64)
deriving DecidableEq

/-- The state of the server and the watermarks of the source. -/
structure HealthResponse where
  nonce : UInt64
  sourceId : U128
  status : HealthStatus
  queueEntries : UInt32
  acceptedThroughSequence : Option UInt64
  durableThroughSequence : Option UInt64
  overloadCount : UInt64
  protocolErrorCount : UInt64
  databaseBytes : UInt64
  databasePoints : UInt64
  databaseCommits : UInt64
  recoveredTailBytes : UInt64
  syncPolicy : SyncPolicy
  lastAckDurable : Bool
deriving DecidableEq

/-- Why a request failed. -/
inductive ErrorCode where
  | invalidRequest
  | overloaded
  | internal
  | unsupported
  | idempotencyConflict
deriving DecidableEq

/-- A failure, and whether the client may try again. -/
structure ErrorResponse where
  code : ErrorCode
  retryable : Bool
  message : String
deriving DecidableEq

/-- What a client sends. -/
inductive Request where
  | hello (v : HelloRequest)
  | commitBatch (v : CommitBatchRequest)
  | flush (v : FlushRequest)
  | health (v : HealthRequest)
deriving DecidableEq

/-- What the server sends. -/
inductive Response where
  | hello (v : HelloResponse)
  | ack (v : Ack)
  | health (v : HealthResponse)
  | error (v : ErrorResponse)
deriving DecidableEq

/-- What one frame carries. -/
inductive WireMessage where
  | request (r : Request)
  | response (r : Response)
deriving DecidableEq

/-- An I/O error keeps no detail. -/
inductive ProtocolError where
  | io
  | truncated (expected actual : Nat)
  | trailingBytes (count : Nat)
  | invalidMagic
  | unsupportedVersion (version : UInt16)
  | unknownMessageType (kind : UInt8)
  | reservedBitsSet (bits : UInt8)
  | frameTooLarge (declared maximum : Nat)
  | checksumMismatch (expected actual : UInt32)
  | invalidField (field : String)
  | invalidEnumValue (field : String) (value : UInt8)
deriving DecidableEq

/-- A step of an encoder. -/
abbrev Put := ByteCodec.Writer ProtocolError

/-- A step of a decoder on an `Input`. -/
abbrev Get := Reader ProtocolError

/-! ## Limits and kinds -/

/-- `PROTOCOL_VERSION` -/
def protocolVersion : UInt16 := 1

/-- `FTWS` -/
def frameMagic : Bytes := [0x46, 0x54, 0x57, 0x53]

/-- A frame with header and checksum. -/
def maxFrameBytes : Nat := 4 * 1024 * 1024

/-- The points of one batch. -/
def maxBatchPoints : Nat := 16384

/-- The records of one batch that are not points. -/
def maxMetadataRecords : Nat := 16384

/-- The queue length a health answer may report. -/
def maxQueueEntries : UInt32 := 65536

/-- The entries of one property map. -/
def maxProperties : Nat := 1024

/-- The tiers of one policy. -/
def maxRollupTiers : Nat := 64

/-- A name or another free text. -/
def maxTextBytes : Nat := 4096

/-- Magic, version, kind, reserved byte and payload length. -/
def headerBytes : Nat := 12

/-- The CRC-32 behind the payload. -/
def checksumBytes : Nat := 4

/-- What header and checksum leave of a frame. -/
def maxPayloadBytes : Nat := maxFrameBytes - headerBytes - checksumBytes

/-- A key, kind, unit or time zone. -/
def maxKeyBytes : Nat := 256

/-- The message of an error. -/
def maxErrorTextBytes : Nat := 512

/-- The kind of a hello. -/
def helloRequest : UInt8 := 1

/-- The kind of a batch. -/
def commitBatchRequest : UInt8 := 2

/-- The kind of a flush. -/
def flushRequest : UInt8 := 3

/-- The kind of a health request. -/
def healthRequest : UInt8 := 4

/-- The kind of the answer to a hello. -/
def helloResponse : UInt8 := 128

/-- The kind of an acknowledgement. -/
def ackResponse : UInt8 := 129

/-- The kind of the answer to a health request. -/
def healthResponse : UInt8 := 130

/-- The kind of an error. -/
def errorResponse : UInt8 := 131

/-- A byte that stands for no value of its field. -/
def enumError (field : String) (value : UInt8) : ProtocolError := .invalidEnumValue field value

/-! ## Words, texts and options -/

namespace Put

/-- One byte. -/
def u8 (v : UInt8) : Put := .put [v]

/-- Two bytes, big end first, as all words here. -/
def u16 (v : UInt16) : Put := .put (beU16 v)

/-- Four bytes. -/
def u32 (v : UInt32) : Put := .put (beU32 v)

/-- Eight bytes. -/
def u64 (v : UInt64) : Put := .put (beU64 v)

/-- Sixteen bytes. -/
def u128 (v : U128) : Put := .put (beU128 v)

/-- Eight bytes in two's complement. -/
def i64 (v : Int64) : Put := .put (beI64 v)

/-- One byte, 0 or 1. -/
def boolean (v : Bool) : Put := u8 (if v then 1 else 0)

/-- The bits of a finite float. -/
def f64 (field : String) (v : F64) : Put :=
  .check (failIf (v.isFinite = false) (.invalidField field)) ++ u64 v.bits

/-- A presence byte, then the value; `put_option_u128` and its like, and `put_watermark`. -/
def option {α : Type} (put : α → Put) : Option α → Put
  | some v => u8 1 ++ put v
  | none => u8 0

/-- A list behind its length. -/
def counted {α : Type} (put : α → Put) (values : List α) : Put :=
  u32 (UInt32.ofNat values.length) ++ .each put values

/-- A text behind its length; it may be empty. -/
def text (max : Nat) (field : String) (v : String) : Put :=
  .check (failIf (max < v.utf8ByteSize ∨ 65535 < v.utf8ByteSize) (.invalidField field)) ++
    (u16 (UInt16.ofNat v.utf8ByteSize) ++ .put v.toUTF8.data.toList)

/-- A text that is not empty. -/
def string (max : Nat) (field : String) (v : String) : Put :=
  .check (failIf (v = "" ∨ max < v.utf8ByteSize) (.invalidField field)) ++ text max field v

end Put

namespace Get

/-- The next bytes, or how many are missing. -/
def take (n : Nat) : Get Bytes := takeBytes .truncated n

/-- One byte. -/
def u8 : Get UInt8 := fixed .truncated 1 fun bs => bs.headD 0

/-- Two bytes. -/
def u16 : Get UInt16 := fixed .truncated 2 readBeU16

/-- Four bytes. -/
def u32 : Get UInt32 := fixed .truncated 4 readBeU32

/-- Eight bytes. -/
def u64 : Get UInt64 := fixed .truncated 8 readBeU64

/-- Sixteen bytes. -/
def u128 : Get U128 := fixed .truncated 16 readBeU128

/-- Eight bytes in two's complement. -/
def i64 : Get Int64 := fixed .truncated 8 readBeI64

/-- Any byte but 0 and 1 is an error. -/
def boolean (field : String) : Get Bool := do
  match ← u8 with
  | 0 => return false
  | 1 => return true
  | value => fail (enumError field value)

/-- A float that is not finite is an error. -/
def f64 (field : String) : Get F64 := do
  let value : F64 := ⟨← u64⟩
  ensure (failIf (value.isFinite = false) (.invalidField field))
  return value

/-- `option_u128` and its like, and `watermark`. -/
def option {α : Type} (get : Get α) (field : String) : Get (Option α) := do
  match ← u8 with
  | 0 => return none
  | 1 => return some (← get)
  | value => fail (enumError field value)

/-- The bytes of a text, which must be UTF-8. -/
def textBytes (n : Nat) (field : String) : Get String := do
  let raw ← take n
  ensure ((Codec.readString raw).elim (.error (.invalidField field)) .ok)

/-- The length is tested before the bytes are taken. -/
def text (max : Nat) (field : String) : Get String := do
  let n ← u16
  ensure (failIf (max < n.toNat) (.invalidField field))
  textBytes n.toNat field

/-- A text that is not empty. -/
def string (max : Nat) (field : String) : Get String := do
  let n ← u16
  ensure (failIf (n.toNat = 0 ∨ max < n.toNat) (.invalidField field))
  textBytes n.toNat field

/-- The length of a list, tested against its limit. -/
def count (maximum : Nat) (field : String) : Get Nat := do
  let count ← u32
  ensure (failIf (maximum < count.toNat) (.invalidField field))
  return count.toNat

/-- A list behind its length. -/
def counted {α : Type} (maximum : Nat) (field : String) (get : Get α) : Get (List α) := do
  let n ← count maximum field
  times get n

/-- Nothing may be left. -/
def finish : Get Unit := do
  let left ← remaining
  ensure (failIf (left ≠ 0) (.trailingBytes left))

end Get

/-! ## Enumerations -/

/-- The frozen tag of a meaning. -/
def seriesSemanticsByte : SeriesSemantics → UInt8
  | .gauge => 1
  | .intervalTotal => 2
  | .counter => 3
  | .state => 4
  | .event => 5

/-- The meaning of a tag. -/
def seriesSemanticsFrom : UInt8 → Except ProtocolError SeriesSemantics
  | 1 => .ok .gauge
  | 2 => .ok .intervalTotal
  | 3 => .ok .counter
  | 4 => .ok .state
  | 5 => .ok .event
  | v => .error (enumError "series semantics" v)

/-- The frozen tag of a unit. -/
def calendarUnitByte : CalendarUnit → UInt8
  | .day => 1
  | .month => 2
  | .year => 3

/-- The unit of a tag. -/
def calendarUnitFrom : UInt8 → Except ProtocolError CalendarUnit
  | 1 => .ok .day
  | 2 => .ok .month
  | 3 => .ok .year
  | v => .error (enumError "calendar unit" v)

/-- The frozen tag of a kind of run. -/
def runKindByte : RunKind → UInt8
  | .forecast => 1
  | .optimization => 2
  | .dataImport => 3
  | .control => 4
  | .reconciliation => 5

/-- The kind of run of a tag. -/
def runKindFrom : UInt8 → Except ProtocolError RunKind
  | 1 => .ok .forecast
  | 2 => .ok .optimization
  | 3 => .ok .dataImport
  | 4 => .ok .control
  | 5 => .ok .reconciliation
  | v => .error (enumError "run kind" v)

/-- The frozen tag of a run's status. -/
def runStatusByte : RunStatus → UInt8
  | .pending => 1
  | .running => 2
  | .succeeded => 3
  | .failed => 4
  | .cancelled => 5

/-- The run's status of a tag. -/
def runStatusFrom : UInt8 → Except ProtocolError RunStatus
  | 1 => .ok .pending
  | 2 => .ok .running
  | 3 => .ok .succeeded
  | 4 => .ok .failed
  | 5 => .ok .cancelled
  | v => .error (enumError "run status" v)

/-- The frozen tag of a plan's status. -/
def planStatusByte : PlanStatus → UInt8
  | .candidate => 1
  | .approved => 2
  | .deployed => 3
  | .superseded => 4
  | .cancelled => 5

/-- The plan's status of a tag. -/
def planStatusFrom : UInt8 → Except ProtocolError PlanStatus
  | 1 => .ok .candidate
  | 2 => .ok .approved
  | 3 => .ok .deployed
  | 4 => .ok .superseded
  | 5 => .ok .cancelled
  | v => .error (enumError "plan status" v)

/-- The tag that `encode_payload` writes. -/
def ackKindByte : AckKind → UInt8
  | .commitBatch => 1
  | .flush => 2

/-- The kind of acknowledgement of a tag. -/
def ackKindFrom : UInt8 → Except ProtocolError AckKind
  | 1 => .ok .commitBatch
  | 2 => .ok .flush
  | v => .error (enumError "ack kind" v)

/-- The frozen tag of a health status. -/
def statusByte : HealthStatus → UInt8
  | .healthy => 1
  | .degraded => 2
  | .unavailable => 3

/-- The health status of a tag. -/
def statusFrom : UInt8 → Except ProtocolError HealthStatus
  | 1 => .ok .healthy
  | 2 => .ok .degraded
  | 3 => .ok .unavailable
  | v => .error (enumError "health status" v)

/-- The frozen tag of an error code. -/
def errorByte : ErrorCode → UInt8
  | .invalidRequest => 1
  | .overloaded => 2
  | .internal => 3
  | .unsupported => 4
  | .idempotencyConflict => 5

/-- The error code of a tag. -/
def errorFrom : UInt8 → Except ProtocolError ErrorCode
  | 1 => .ok .invalidRequest
  | 2 => .ok .overloaded
  | 3 => .ok .internal
  | 4 => .ok .unsupported
  | 5 => .ok .idempotencyConflict
  | v => .error (enumError "error code" v)

/-- The byte of an enumeration, converted by one of the functions above. -/
def Get.enum {α : Type} (convert : UInt8 → Except ProtocolError α) : Get α := do
  let v ← Get.u8
  ensure (convert v)

/-! ## Records -/

/-- A tag, and the value if there is one. -/
def encodePropertyValue : PropertyValue → Put
  | .null => Put.u8 0
  | .bool v => Put.u8 1 ++ Put.boolean v
  | .integer v => Put.u8 2 ++ Put.i64 v
  | .float v => Put.u8 3 ++ Put.f64 "property float" v
  | .text v => Put.u8 4 ++ Put.text maxTextBytes "property text" v

/-- The value of a tag. -/
def decodePropertyValue : Get PropertyValue := do
  match ← Get.u8 with
  | 0 => return .null
  | 1 => return .bool (← Get.boolean "property bool")
  | 2 => return .integer (← Get.i64)
  | 3 => return .float (← Get.f64 "property float")
  | 4 => return .text (← Get.text maxTextBytes "property text")
  | value => fail (enumError "property value" value)

/-- The entries in the order of their keys. -/
def encodeProperties (values : Properties) : Put :=
  .check (failIf (maxProperties < values.size) (.invalidField "too many properties")) ++
    (Put.u32 (UInt32.ofNat values.size) ++
      .each (fun p => Put.string maxKeyBytes "property key" p.1 ++ encodePropertyValue p.2)
        values.toList)

/-- The keys must ascend. -/
def decodeProperties : Get Properties := do
  let count ← Get.count maxProperties "property count"
  entries (Get.string maxKeyBytes "property key") decodePropertyValue
    (.invalidField "property keys") count none ∅

/-- The fields in their order. -/
def encodeEntity (v : Entity) : Put :=
  Put.u128 v.id ++ Put.string maxKeyBytes "entity kind" v.kind ++
    Put.string maxTextBytes "entity name" v.name ++ Put.option Put.u128 v.parent ++
    Put.i64 v.validFrom ++ Put.option Put.i64 v.validTo ++ encodeProperties v.properties

/-- The fields in the order they were written. -/
def decodeEntity : Get Entity := do
  return {
    id := ← Get.u128
    kind := ← Get.string maxKeyBytes "entity kind"
    name := ← Get.string maxTextBytes "entity name"
    parent := ← Get.option Get.u128 "entity parent"
    validFrom := ← Get.i64
    validTo := ← Get.option Get.i64 "entity valid_to"
    properties := ← decodeProperties }

/-- The fields in their order. -/
def encodeRelation (v : Relation) : Put :=
  Put.u128 v.id ++ Put.string maxKeyBytes "relation kind" v.kind ++ Put.u128 v.source ++
    Put.u128 v.target ++ Put.i64 v.validFrom ++ Put.option Put.i64 v.validTo ++
    encodeProperties v.properties

/-- The fields in the order they were written. -/
def decodeRelation : Get Relation := do
  return {
    id := ← Get.u128
    kind := ← Get.string maxKeyBytes "relation kind"
    source := ← Get.u128
    target := ← Get.u128
    validFrom := ← Get.i64
    validTo := ← Get.option Get.i64 "relation valid_to"
    properties := ← decodeProperties }

/-- A tag, and a width or a unit of a time zone. -/
def encodeRollupResolution : RollupResolution → Put
  | .fixedMicros value => Put.u8 1 ++ Put.i64 value
  | .calendar unit ianaTimezone =>
    Put.u8 2 ++ (Put.u8 (calendarUnitByte unit) ++
      Put.string maxKeyBytes "IANA timezone" ianaTimezone)

/-- The resolution of a tag. -/
def decodeRollupResolution : Get RollupResolution := do
  match ← Get.u8 with
  | 1 => return .fixedMicros (← Get.i64)
  | 2 =>
    let unit ← Get.enum calendarUnitFrom
    return .calendar unit (← Get.string maxKeyBytes "IANA timezone")
  | value => fail (enumError "rollup resolution" value)

/-- The body of the loop over the tiers. -/
def encodeRollupTier (tier : RollupTier) : Put :=
  encodeRollupResolution tier.resolution ++ Put.option Put.i64 tier.retainForMicros

/-- The body of the loop over the tiers. -/
def decodeRollupTier : Get RollupTier := do
  return {
    resolution := ← decodeRollupResolution
    retainForMicros := ← Get.option Get.i64 "tier retention" }

/-- The retention of raw points, and the tiers. -/
def encodeRollupPolicy (v : RollupPolicy) : Put :=
  .check (failIf (maxRollupTiers < v.tiers.length) (.invalidField "too many rollup tiers")) ++
    (Put.option Put.i64 v.rawRetainForMicros ++ Put.counted encodeRollupTier v.tiers)

/-- The tiers are counted behind the raw retention. -/
def decodeRollupPolicy : Get RollupPolicy := do
  return {
    rawRetainForMicros := ← Get.option Get.i64 "raw retention"
    tiers := ← Get.counted maxRollupTiers "rollup tier count" decodeRollupTier }

/-- An invalid definition is not written. -/
def encodeSeries [Jiff] (v : SeriesDefinition) : Put :=
  .check (v.validate.mapError .invalidField) ++
    (Put.u64 v.id ++ Put.option Put.u128 v.ownerEntity ++ Put.option Put.u128 v.ownerRelation ++
      Put.string maxKeyBytes "series name" v.name ++
      Put.string maxKeyBytes "physical quantity" v.physicalQuantity ++
      Put.string maxKeyBytes "canonical unit" v.canonicalUnit ++
      Put.u8 (seriesSemanticsByte v.semantics) ++ Put.option Put.i64 v.maximumGapMicros ++
      encodeRollupPolicy v.rollupPolicy)

/-- The fields of a definition. -/
def getSeries : Get SeriesDefinition := do
  return {
    id := ← Get.u64
    ownerEntity := ← Get.option Get.u128 "owner entity"
    ownerRelation := ← Get.option Get.u128 "owner relation"
    name := ← Get.string maxKeyBytes "series name"
    physicalQuantity := ← Get.string maxKeyBytes "physical quantity"
    canonicalUnit := ← Get.string maxKeyBytes "canonical unit"
    semantics := ← Get.enum seriesSemanticsFrom
    maximumGapMicros := ← Get.option Get.i64 "maximum gap"
    rollupPolicy := ← decodeRollupPolicy }

/-- An invalid definition is not read. -/
def decodeSeries [Jiff] : Get SeriesDefinition := do
  let v ← getSeries
  ensure (v.validate.mapError .invalidField)
  return v

/-- The fields in their order. -/
def encodeRun (v : Run) : Put :=
  Put.u128 v.id ++ Put.u8 (runKindByte v.kind) ++ Put.u8 (runStatusByte v.status) ++
    Put.i64 v.createdAt ++ Put.i64 v.knowledgeTime ++
    Put.string maxTextBytes "workflow" v.workflow ++ Put.text maxTextBytes "model" v.model ++
    Put.text maxTextBytes "model version" v.modelVersion ++ Put.option Put.u128 v.parentRun ++
    Put.option Put.u128 v.inputSnapshot ++ encodeProperties v.attributes

/-- The fields in the order they were written. -/
def decodeRun : Get Run := do
  return {
    id := ← Get.u128
    kind := ← Get.enum runKindFrom
    status := ← Get.enum runStatusFrom
    createdAt := ← Get.i64
    knowledgeTime := ← Get.i64
    workflow := ← Get.string maxTextBytes "workflow"
    model := ← Get.text maxTextBytes "model"
    modelVersion := ← Get.text maxTextBytes "model version"
    parentRun := ← Get.option Get.u128 "parent run"
    inputSnapshot := ← Get.option Get.u128 "input snapshot"
    attributes := ← decodeProperties }

/-- The terms in the order of their keys. -/
def encodeObjectiveTerms (values : Std.ExtTreeMap String F64) : Put :=
  .check (failIf (maxProperties < values.size) (.invalidField "too many objective terms")) ++
    (Put.u32 (UInt32.ofNat values.size) ++
      .each (fun p => Put.string maxKeyBytes "objective key" p.1 ++ Put.f64 "objective value" p.2)
        values.toList)

/-- The keys must ascend. -/
def decodeObjectiveTerms : Get (Std.ExtTreeMap String F64) := do
  let count ← Get.count maxProperties "objective term count"
  entries (Get.string maxKeyBytes "objective key") (Get.f64 "objective value")
    (.invalidField "objective keys") count none ∅

/-- An invalid plan is not written. -/
def encodePlan (v : Plan) : Put :=
  .check (v.validate.mapError .invalidField) ++
    (Put.u128 v.id ++ Put.u128 v.runId ++ Put.u8 (planStatusByte v.status) ++
      Put.i64 v.horizonStart ++ Put.i64 v.horizonEnd ++ Put.i64 v.resolutionMicros ++
      Put.string maxTextBytes "scenario" v.scenario ++ encodeObjectiveTerms v.objectiveTerms ++
      Put.option (Put.f64 "objective value") v.objectiveValue ++
      Put.option Put.u128 v.supersedes ++ encodeProperties v.attributes)

/-- The fields of a plan. -/
def getPlan : Get Plan := do
  return {
    id := ← Get.u128
    runId := ← Get.u128
    status := ← Get.enum planStatusFrom
    horizonStart := ← Get.i64
    horizonEnd := ← Get.i64
    resolutionMicros := ← Get.i64
    scenario := ← Get.string maxTextBytes "scenario"
    objectiveTerms := ← decodeObjectiveTerms
    objectiveValue := ← Get.option (Get.f64 "objective value") "objective value"
    supersedes := ← Get.option Get.u128 "supersedes"
    attributes := ← decodeProperties }

/-- An invalid plan is not read. -/
def decodePlan : Get Plan := do
  let v ← getPlan
  ensure (v.validate.mapError .invalidField)
  return v

/-- Seventy-two bytes. -/
def putPoint (p : Point) : Put :=
  Put.u64 p.seriesId ++ Put.i64 p.validTime ++ Put.i64 p.validTimeEnd ++ Put.i64 p.knowledgeTime ++
    Put.i64 p.changeTime ++ Put.u128 p.runId ++ Put.u64 p.value.bits ++ Put.u32 p.quality ++
    Put.u32 p.flags

/-- The body of the loop of `points`. -/
def getPoint : Get Point := do
  return {
    seriesId := ← Get.u64
    validTime := ← Get.i64
    validTimeEnd := ← Get.i64
    knowledgeTime := ← Get.i64
    changeTime := ← Get.i64
    runId := ← Get.u128
    value := ⟨← Get.u64⟩
    quality := ← Get.u32
    flags := ← Get.u32 }

/-- `Input::points`: the points take up all that is left. -/
def Get.points : Get (List Point) := do
  let n ← Get.u32
  ensure (failIf (maxBatchPoints < n.toNat) (.invalidField "too many points"))
  let left ← remaining
  ensure (failIf (left ≠ n.toNat * 72) (.invalidField "point payload length"))
  times getPoint n.toNat

/-- At most `remaining` records; the caller subtracts those that were read. -/
def decodeCollection {α : Type} (remaining : Nat) (decode : Get α) : Get (List α) :=
  Get.counted remaining "metadata record count" decode

/-! ## Payloads -/

/-- The number of records that are not points. -/
def CommitBatchRequest.metadata (v : CommitBatchRequest) : Nat :=
  v.entities.length + v.relations.length + v.series.length + v.runs.length + v.plans.length

/-- Made before a batch is written and after one is read. -/
def validateBatch [Jiff] (v : CommitBatchRequest) : Except ProtocolError Unit := do
  failIf (v.sourceId = 0) (ProtocolError.invalidField "source_id")
  failIf (maxMetadataRecords < v.metadata) (ProtocolError.invalidField "too many metadata records")
  failIf (maxBatchPoints < v.points.length) (ProtocolError.invalidField "too many points")
  failIf (v.metadata = 0 ∧ v.points = []) (ProtocolError.invalidField "empty transaction")
  each (fun s => s.validate.mapError .invalidField) v.series
  each (fun p => p.validate.mapError .invalidField) v.plans
  each (fun p => failIf (p.seriesId = 0 ∨ p.validTimeEnd < p.validTime ∨ p.value.isFinite = false)
    (ProtocolError.invalidField "invalid point")) v.points

/-- Every policy is nine bytes long. -/
def putSyncPolicy : SyncPolicy → Put
  | .always => Put.u8 1 ++ Put.u64 0
  | .manual => Put.u8 2 ++ Put.u64 0
  | .everyBytes bytes =>
    .check (failIf (bytes = 0) (.invalidField "sync every-bytes")) ++ (Put.u8 3 ++ Put.u64 bytes)

/-- Only the third policy has bytes. -/
def syncPolicyFrom : Get SyncPolicy := do
  match ← Get.u8 with
  | 1 =>
    let bytes ← Get.u64
    ensure (failIf (bytes ≠ 0) (.invalidField "sync every-bytes"))
    return .always
  | 2 =>
    let bytes ← Get.u64
    ensure (failIf (bytes ≠ 0) (.invalidField "sync every-bytes"))
    return .manual
  | 3 =>
    let bytes ← Get.u64
    ensure (failIf (bytes = 0) (.invalidField "sync every-bytes"))
    return .everyBytes bytes
  | value => fail (enumError "sync policy" value)

/-- A source must not be zero. -/
def checkSource (sourceId : U128) : Except ProtocolError Unit :=
  failIf (sourceId = 0) (.invalidField "source_id")

/-- The fields of a hello. -/
def putHello (v : HelloRequest) : Put :=
  Put.u128 v.sourceId ++ Put.string 128 "node_id" v.nodeId ++
    Put.string 64 "client_version" v.clientVersion ++ Put.u64 v.capabilities

/-- The `Hello` arm of `encode_payload`. -/
def encodeHello (v : HelloRequest) : Put := .check (checkSource v.sourceId) ++ putHello v

/-- The source is tested with the other messages'. -/
def decodeHello : Get HelloRequest := do
  return {
    sourceId := ← Get.u128
    nodeId := ← Get.string 128 "node_id"
    clientVersion := ← Get.string 64 "client_version"
    capabilities := ← Get.u64 }

/-- The `CommitBatch` arm of `encode_payload`. -/
def encodeCommitBatch [Jiff] (v : CommitBatchRequest) : Put :=
  .check (validateBatch v) ++
    (Put.u128 v.sourceId ++ Put.u64 v.sequence ++ Put.u128 v.commitId ++
      Put.counted encodeEntity v.entities ++ Put.counted encodeRelation v.relations ++
      Put.counted encodeSeries v.series ++ Put.counted encodeRun v.runs ++
      Put.counted encodePlan v.plans ++ Put.counted putPoint v.points)

/-- The collections share one limit. -/
def decodeCommitBatch [Jiff] : Get CommitBatchRequest := do
  let sourceId ← Get.u128
  let sequence ← Get.u64
  let commitId ← Get.u128
  let left := maxMetadataRecords
  let entities ← decodeCollection left decodeEntity
  let left := left - entities.length
  let relations ← decodeCollection left decodeRelation
  let left := left - relations.length
  let series ← decodeCollection left decodeSeries
  let left := left - series.length
  let runs ← decodeCollection left decodeRun
  let left := left - runs.length
  let plans ← decodeCollection left decodePlan
  let points ← Get.points
  let v : CommitBatchRequest :=
    { sourceId, sequence, commitId, entities, relations, series, runs, plans, points }
  ensure (validateBatch v)
  return v

/-- The fields of a flush. -/
def putFlush (v : FlushRequest) : Put := Put.u128 v.sourceId ++ Put.u64 v.throughSequence

/-- The `Flush` arm of `encode_payload`. -/
def encodeFlush (v : FlushRequest) : Put := .check (checkSource v.sourceId) ++ putFlush v

/-- The fields in the order they were written. -/
def decodeFlush : Get FlushRequest := do
  return { sourceId := ← Get.u128, throughSequence := ← Get.u64 }

/-- The `Health` arm of `encode_payload`. -/
def encodeHealthRequest (v : HealthRequest) : Put := Put.u64 v.nonce

/-- The nonce. -/
def decodeHealthRequest : Get HealthRequest := do
  return { nonce := ← Get.u64 }

/-- Only one version is spoken. -/
def checkVersion (version : UInt16) : Except ProtocolError Unit :=
  failIf (version ≠ protocolVersion) (.unsupportedVersion version)

/-- The session is written as it is. -/
def encodeHelloResponse (v : HelloResponse) : Put :=
  .check (checkVersion v.selectedVersion) ++
    (Put.u16 v.selectedVersion ++ .put v.sessionId.bytes ++ Put.i64 v.serverTimeMicros)

/-- `copy_from_slice` into sixteen bytes. -/
def toSessionId (raw : Bytes) : Get SessionId := fun c =>
  if h : raw.length = 16 then .ok (⟨raw, h⟩, c) else .error .panic

/-- The sixteen bytes of a session. -/
def getSessionId : Get SessionId := do
  let raw ← Get.take 16
  toSessionId raw

/-- The version is tested first. -/
def decodeHelloResponse : Get HelloResponse := do
  let selectedVersion ← Get.u16
  ensure (checkVersion selectedVersion)
  return { selectedVersion, sessionId := ← getSessionId, serverTimeMicros := ← Get.i64 }

/-- The fields of an acknowledgement. -/
def putAck (v : Ack) : Put :=
  Put.u8 (ackKindByte v.kind) ++ Put.u128 v.sourceId ++ Put.u64 v.sequence ++
    Put.u128 v.commitId ++ Put.option Put.u64 v.acceptedThroughSequence ++
    Put.option Put.u64 v.durableThroughSequence ++ Put.boolean v.durable ++
    Put.boolean v.deduplicated ++ Put.u64 v.frameOffset ++ Put.u32 v.records ++
    Put.u32 v.points ++ Put.u64 v.bytesWritten

/-- The `Ack` arm of `encode_payload`. -/
def encodeAck (v : Ack) : Put := .check (checkSource v.sourceId) ++ putAck v

/-- The fields in the order they were written. -/
def decodeAck : Get Ack := do
  return {
    kind := ← Get.enum ackKindFrom
    sourceId := ← Get.u128
    sequence := ← Get.u64
    commitId := ← Get.u128
    acceptedThroughSequence := ← Get.option Get.u64 "accepted watermark"
    durableThroughSequence := ← Get.option Get.u64 "durable watermark"
    durable := ← Get.boolean "durable"
    deduplicated := ← Get.boolean "deduplicated"
    frameOffset := ← Get.u64
    records := ← Get.u32
    points := ← Get.u32
    bytesWritten := ← Get.u64 }

/-- The queue is within its limit. -/
def checkQueue (entries : UInt32) : Except ProtocolError Unit :=
  failIf (maxQueueEntries < entries) (.invalidField "queue_entries")

/-- The part of a health response that the legacy form stops behind. -/
def putHealthHead (v : HealthResponse) : Put :=
  Put.u64 v.nonce ++ (.check (checkSource v.sourceId) ++ Put.u128 v.sourceId) ++
    Put.u8 (statusByte v.status) ++ Put.u32 v.queueEntries ++
    Put.option Put.u64 v.acceptedThroughSequence ++ Put.option Put.u64 v.durableThroughSequence

/-- The fields the legacy form does not have. -/
def putHealthTail (v : HealthResponse) : Put :=
  Put.u64 v.overloadCount ++ Put.u64 v.protocolErrorCount ++ Put.u64 v.databaseBytes ++
    Put.u64 v.databasePoints ++ Put.u64 v.databaseCommits ++ Put.u64 v.recoveredTailBytes ++
    putSyncPolicy v.syncPolicy ++ Put.boolean v.lastAckDurable

/-- The full form, which is always written. -/
def encodeHealthResponse (v : HealthResponse) : Put :=
  .check (checkQueue v.queueEntries) ++ (putHealthHead v ++ putHealthTail v)

/-- The legacy form, with the defaults of the rest. -/
def getHealthHead : Get HealthResponse := do
  return {
    nonce := ← Get.u64
    sourceId := ← Get.u128
    status := ← Get.enum statusFrom
    queueEntries := ← Get.u32
    acceptedThroughSequence := ← Get.option Get.u64 "accepted watermark"
    durableThroughSequence := ← Get.option Get.u64 "durable watermark"
    overloadCount := 0
    protocolErrorCount := 0
    databaseBytes := 0
    databasePoints := 0
    databaseCommits := 0
    recoveredTailBytes := 0
    syncPolicy := .always
    lastAckDurable := false }

/-- The fields the legacy form does not have. -/
def getHealthTail (v : HealthResponse) : Get HealthResponse := do
  return { v with
    overloadCount := ← Get.u64
    protocolErrorCount := ← Get.u64
    databaseBytes := ← Get.u64
    databasePoints := ← Get.u64
    databaseCommits := ← Get.u64
    recoveredTailBytes := ← Get.u64
    syncPolicy := ← syncPolicyFrom
    lastAckDurable := ← Get.boolean "last_ack_durable" }

/-- The legacy form ends here. -/
def getHealthRest (head : HealthResponse) (left : Nat) : Get HealthResponse :=
  if 0 < left then getHealthTail head else pure head

/-- Both forms are read. -/
def decodeHealthResponse : Get HealthResponse := do
  let head ← getHealthHead
  let left ← remaining
  let v ← getHealthRest head left
  ensure (checkQueue v.queueEntries)
  return v

/-- The fields in their order. -/
def encodeErrorResponse (v : ErrorResponse) : Put :=
  Put.u8 (errorByte v.code) ++ Put.boolean v.retryable ++
    Put.string maxErrorTextBytes "error message" v.message

/-- The fields in the order they were written. -/
def decodeErrorResponse : Get ErrorResponse := do
  return {
    code := ← Get.enum errorFrom
    retryable := ← Get.boolean "retryable"
    message := ← Get.string maxErrorTextBytes "error message" }

/-- The kind of a message and its payload. -/
def encodePayload [Jiff] : WireMessage → UInt8 × Put
  | .request (.hello v) => (helloRequest, encodeHello v)
  | .request (.commitBatch v) => (commitBatchRequest, encodeCommitBatch v)
  | .request (.flush v) => (flushRequest, encodeFlush v)
  | .request (.health v) => (healthRequest, encodeHealthRequest v)
  | .response (.hello v) => (helloResponse, encodeHelloResponse v)
  | .response (.ack v) => (ackResponse, encodeAck v)
  | .response (.health v) => (healthResponse, encodeHealthResponse v)
  | .response (.error v) => (errorResponse, encodeErrorResponse v)

/-- The message of a kind that `isKind` has let through. -/
def decodeMessage [Jiff] (kind : UInt8) : Get WireMessage :=
  if kind = helloRequest then return .request (.hello (← decodeHello))
  else if kind = commitBatchRequest then return .request (.commitBatch (← decodeCommitBatch))
  else if kind = flushRequest then return .request (.flush (← decodeFlush))
  else if kind = healthRequest then return .request (.health (← decodeHealthRequest))
  else if kind = helloResponse then return .response (.hello (← decodeHelloResponse))
  else if kind = ackResponse then return .response (.ack (← decodeAck))
  else if kind = healthResponse then return .response (.health (← decodeHealthResponse))
  else if kind = errorResponse then return .response (.error (← decodeErrorResponse))
  else fun _ => .error .panic

/-- The test on the sources of the decoded message. -/
def checkMessageSource : WireMessage → Except ProtocolError Unit
  | .request (.hello v) => checkSource v.sourceId
  | .request (.flush v) => checkSource v.sourceId
  | .response (.ack v) => checkSource v.sourceId
  | .response (.health v) => checkSource v.sourceId
  | _ => .ok ()

/-- The message, its source test, and that nothing is left. -/
def decodePayload [Jiff] (kind : UInt8) (bytes : Bytes) :
    Except (Fault ProtocolError) WireMessage :=
  let get : Get WireMessage := do
    let m ← decodeMessage kind
    ensure (checkMessageSource m)
    Get.finish
    return m
  (get (.start bytes)).map Prod.fst

/-! ## Frames -/

/-- The whole frame is counted. -/
def tooLarge (payload : Nat) : ProtocolError :=
  .frameTooLarge (payload + (headerBytes + checksumBytes)) maxFrameBytes

/-- A frame without its checksum. -/
def frameBody (kind : UInt8) (payload : Bytes) : Bytes :=
  frameMagic ++ beU16 protocolVersion ++ [kind, 0] ++ beU32 (UInt32.ofNat payload.length) ++ payload

/-- The payload in its frame. -/
def encode [Jiff] (message : WireMessage) : Except ProtocolError Bytes := do
  let (kind, put) := encodePayload message
  let payload ← put.run
  failIf (maxPayloadBytes < payload.length) (tooLarge payload.length)
  let frame := frameBody kind payload
  .ok (frame ++ beU32 (Crc32.hash frame))

/-- `&bytes[lo..hi]` -/
def range (bytes : Bytes) (lo hi : Nat) : Except (Fault ProtocolError) Bytes :=
  if lo ≤ hi ∧ hi ≤ bytes.length then .ok (slice bytes lo hi) else .error .panic

/-- `bytes[i]` -/
def byteAt (bytes : Bytes) (i : Nat) : Except (Fault ProtocolError) UInt8 :=
  (bytes[i]?).elim (.error .panic) .ok

/-- A check among steps that can panic. -/
def require (p : Prop) [Decidable p] (e : ProtocolError) : Except (Fault ProtocolError) Unit :=
  failIf p (.error e)

/-- The eight kinds. -/
def isKind (kind : UInt8) : Bool :=
  kind = helloRequest || kind = commitBatchRequest || kind = flushRequest ||
    kind = healthRequest || kind = helloResponse || kind = ackResponse || kind = healthResponse ||
    kind = errorResponse

/-- `validate_kind` and the length test included. -/
def parseHeader (frame : Bytes) : Except (Fault ProtocolError) (UInt8 × Nat) := do
  require (frame.length < headerBytes) (.truncated headerBytes frame.length)
  let magic ← range frame 0 4
  require (magic ≠ frameMagic) .invalidMagic
  let version ← range frame 4 6
  require (readBeU16 version ≠ protocolVersion) (.unsupportedVersion (readBeU16 version))
  let kind ← byteAt frame 6
  require (isKind kind = false) (.unknownMessageType kind)
  let reserved ← byteAt frame 7
  require (reserved ≠ 0) (.reservedBitsSet reserved)
  let length ← range frame 8 12
  let payload := (readBeU32 length).toNat
  let total := headerBytes + payload + checksumBytes
  require (maxFrameBytes < total) (tooLarge payload)
  return (kind, total)

/-- The header, the length, the checksum, and only then the payload. -/
def decode [Jiff] (frame : Bytes) : Except (Fault ProtocolError) WireMessage := do
  let (kind, total) ← parseHeader frame
  require (frame.length < total) (.truncated total frame.length)
  require (total < frame.length) (.trailingBytes (frame.length - total))
  let checksum ← range frame (total - 4) total
  let body ← range frame 0 (total - 4)
  require (readBeU32 checksum ≠ Crc32.hash body)
    (.checksumMismatch (Crc32.hash body) (readBeU32 checksum))
  let payload ← range frame headerBytes (total - checksumBytes)
  decodePayload kind payload

/-! ## Reading from a stream -/

/-- How a call of `read` behaves. -/
inductive ReadStep where
  | interrupted
  | failed
  /-- It gives at most this many bytes, and at least one if there is one. -/
  | upTo (n : Nat)

/-- The bytes to come, and how the next reads behave; later ones give all there is. -/
structure Source where
  bytes : Bytes
  script : List ReadStep

/-- The bytes of `read_exact` behind those already read. -/
def readExact (base want : Nat) : List ReadStep → Bytes → Bytes →
    Except (Fault ProtocolError) (Bytes × Source)
  | script, done, bytes =>
    if want ≤ done.length then .ok (done, ⟨bytes, script⟩)
    else
      match script with
      | [] =>
        if bytes.length < want - done.length then
          .error (.error (.truncated (base + want) (base + done.length + bytes.length)))
        else .ok (done ++ bytes.take (want - done.length), ⟨bytes.drop (want - done.length), []⟩)
      | .interrupted :: script => readExact base want script done bytes
      | .failed :: _ => .error (.error .io)
      | .upTo n :: script =>
        if bytes = [] then .error (.error (.truncated (base + want) (base + done.length)))
        else
          let m := min (max n 1) (want - done.length)
          readExact base want script (done ++ bytes.take m) (bytes.drop m)

/-- The header is parsed before the rest is read. -/
def readFrom [Jiff] (source : Source) : Except (Fault ProtocolError) (WireMessage × Source) := do
  let (header, source) ← readExact 0 headerBytes source.script [] source.bytes
  let (_, total) ← parseHeader header
  let (tail, source) ← readExact headerBytes (total - headerBytes) source.script [] source.bytes
  let message ← decode (header ++ tail)
  return (message, source)

end Ftwdb.Shadow
