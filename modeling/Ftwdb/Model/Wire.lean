import Ftwdb.Lib.Crc32
import Ftwdb.Lib.Check
import Ftwdb.Model.Types

/-!
# Bytes of points, records and transactions

The postcard encodings of the catalog records, the 72-byte points, and the
transaction payload of `encode_canonical_transaction` with its reader
`decode_transaction`.  Reading what was written gives the records back
(`decodeTransaction_encode`).

The reader works on the bytes that are left instead of a cursor into the
payload; its tests and their order are the source's.
-/

namespace Ftwdb

open ByteCodec Check List

/-! ## Catalog records -/

namespace Postcard

open Codec

/-- A float, as its bits. -/
def f64 : Codec F64 := bits64.iso F64.mk F64.bits fun _ => rfl

/-- `PropertyValue`. -/
def propertyValue : Codec PropertyValue :=
  variant
    (fun
      | .null => 0
      | .bool _ => 1
      | .integer _ => 2
      | .float _ => 3
      | .text _ => 4)
    (fun
      | .null => []
      | .bool v => Codec.bool.encode v
      | .integer v => i64.encode v
      | .float v => f64.encode v
      | .text v => string.encode v)
    (fun
      | 0, bs => some (.null, bs)
      | 1, bs => (Codec.bool.decode bs).map fun p => (.bool p.1, p.2)
      | 2, bs => (i64.decode bs).map fun p => (.integer p.1, p.2)
      | 3, bs => (f64.decode bs).map fun p => (.float p.1, p.2)
      | 4, bs => (string.decode bs).map fun p => (.text p.1, p.2)
      | _, _ => none)
    (by
      intro v rest hv
      cases v with
      | null => rfl
      | bool v => simp [Codec.bool.decode_encode v rest hv]
      | integer v => simp [i64.decode_encode v rest hv]
      | float v => simp [f64.decode_encode v rest hv]
      | text v => simp [string.decode_encode v rest hv])

/-- A map of properties. -/
def properties : Codec Properties := Codec.map string propertyValue

/-- The fields of an entity in their order. -/
def entity : Codec Entity :=
  (pair u128 <| pair string <| pair string <| pair (option u128) <| pair i64 <|
    pair (option i64) properties).iso
    (fun (id, kind, name, parent, validFrom, validTo, properties) =>
      ⟨id, kind, name, parent, validFrom, validTo, properties⟩)
    (fun e => (e.id, e.kind, e.name, e.parent, e.validFrom, e.validTo, e.properties))
    fun _ => rfl

/-- The fields of a relation. -/
def relation : Codec Relation :=
  (pair u128 <| pair string <| pair u128 <| pair u128 <| pair i64 <| pair (option i64)
    properties).iso
    (fun (id, kind, source, target, validFrom, validTo, properties) =>
      ⟨id, kind, source, target, validFrom, validTo, properties⟩)
    (fun r => (r.id, r.kind, r.source, r.target, r.validFrom, r.validTo, r.properties))
    fun _ => rfl

/-- `SeriesSemantics`. -/
def seriesSemantics : Codec SeriesSemantics :=
  enum
    (fun
      | .gauge => 0
      | .intervalTotal => 1
      | .counter => 2
      | .state => 3
      | .event => 4)
    (fun
      | 0 => some .gauge
      | 1 => some .intervalTotal
      | 2 => some .counter
      | 3 => some .state
      | 4 => some .event
      | _ => none)
    (by intro s; cases s <;> rfl)

/-- `CalendarUnit`. -/
def calendarUnit : Codec CalendarUnit :=
  enum
    (fun
      | .day => 0
      | .month => 1
      | .year => 2)
    (fun
      | 0 => some .day
      | 1 => some .month
      | 2 => some .year
      | _ => none)
    (by intro u; cases u <;> rfl)

/-- `RollupResolution`. -/
def rollupResolution : Codec RollupResolution :=
  variant
    (fun
      | .fixedMicros _ => 0
      | .calendar _ _ => 1)
    (fun
      | .fixedMicros v => i64.encode v
      | .calendar unit zone => (pair calendarUnit string).encode (unit, zone))
    (fun
      | 0, bs => (i64.decode bs).map fun p => (.fixedMicros p.1, p.2)
      | 1, bs => ((pair calendarUnit string).decode bs).map fun p => (.calendar p.1.1 p.1.2, p.2)
      | _, _ => none)
    (by
      intro v rest hv
      cases v with
      | fixedMicros v => simp [i64.decode_encode v rest hv]
      | calendar unit zone => simp [(pair calendarUnit string).decode_encode (unit, zone) rest hv])

/-- `RollupTier`. -/
def rollupTier : Codec RollupTier :=
  (pair rollupResolution (option i64)).iso (fun (resolution, retain) => ⟨resolution, retain⟩)
    (fun t => (t.resolution, t.retainForMicros)) fun _ => rfl

/-- `RollupPolicy`. -/
def rollupPolicy : Codec RollupPolicy :=
  (pair (option i64) (list rollupTier)).iso (fun (raw, tiers) => ⟨raw, tiers⟩)
    (fun p => (p.rawRetainForMicros, p.tiers)) fun _ => rfl

/-- The fields of a series definition. -/
def series : Codec SeriesDefinition :=
  (pair u64 <| pair (option u128) <| pair (option u128) <| pair string <| pair string <|
    pair string <| pair seriesSemantics <| pair (option i64) rollupPolicy).iso
    (fun (id, ownerEntity, ownerRelation, name, quantity, unit, semantics, gap, policy) =>
      ⟨id, ownerEntity, ownerRelation, name, quantity, unit, semantics, gap, policy⟩)
    (fun s => (s.id, s.ownerEntity, s.ownerRelation, s.name, s.physicalQuantity, s.canonicalUnit,
      s.semantics, s.maximumGapMicros, s.rollupPolicy))
    fun _ => rfl

/-- `RunKind`. -/
def runKind : Codec RunKind :=
  enum
    (fun
      | .forecast => 0
      | .optimization => 1
      | .dataImport => 2
      | .control => 3
      | .reconciliation => 4)
    (fun
      | 0 => some .forecast
      | 1 => some .optimization
      | 2 => some .dataImport
      | 3 => some .control
      | 4 => some .reconciliation
      | _ => none)
    (by intro k; cases k <;> rfl)

/-- `RunStatus`. -/
def runStatus : Codec RunStatus :=
  enum
    (fun
      | .pending => 0
      | .running => 1
      | .succeeded => 2
      | .failed => 3
      | .cancelled => 4)
    (fun
      | 0 => some .pending
      | 1 => some .running
      | 2 => some .succeeded
      | 3 => some .failed
      | 4 => some .cancelled
      | _ => none)
    (by intro s; cases s <;> rfl)

/-- The fields of a run. -/
def run : Codec Run :=
  (pair u128 <| pair runKind <| pair runStatus <| pair i64 <| pair i64 <| pair string <|
    pair string <| pair string <| pair (option u128) <| pair (option u128) properties).iso
    (fun (id, kind, status, createdAt, knowledgeTime, workflow, model, modelVersion, parentRun,
        inputSnapshot, attributes) =>
      ⟨id, kind, status, createdAt, knowledgeTime, workflow, model, modelVersion, parentRun,
        inputSnapshot, attributes⟩)
    (fun r => (r.id, r.kind, r.status, r.createdAt, r.knowledgeTime, r.workflow, r.model,
      r.modelVersion, r.parentRun, r.inputSnapshot, r.attributes))
    fun _ => rfl

/-- `PlanStatus`. -/
def planStatus : Codec PlanStatus :=
  enum
    (fun
      | .candidate => 0
      | .approved => 1
      | .deployed => 2
      | .superseded => 3
      | .cancelled => 4)
    (fun
      | 0 => some .candidate
      | 1 => some .approved
      | 2 => some .deployed
      | 3 => some .superseded
      | 4 => some .cancelled
      | _ => none)
    (by intro s; cases s <;> rfl)

/-- The fields of a plan. -/
def plan : Codec Plan :=
  (pair u128 <| pair u128 <| pair planStatus <| pair i64 <| pair i64 <| pair i64 <| pair string <|
    pair (Codec.map string f64) <| pair (option f64) <| pair (option u128) properties).iso
    (fun (id, runId, status, horizonStart, horizonEnd, resolution, scenario, terms, value,
        supersedes, attributes) =>
      ⟨id, runId, status, horizonStart, horizonEnd, resolution, scenario, terms, value,
        supersedes, attributes⟩)
    (fun p => (p.id, p.runId, p.status, p.horizonStart, p.horizonEnd, p.resolutionMicros,
      p.scenario, p.objectiveTerms, p.objectiveValue, p.supersedes, p.attributes))
    fun _ => rfl

end Postcard

/-! ## Points -/

/-- `POINT_BYTES`. -/
def pointBytes : Nat := 72

/-- `encode_point`. -/
def encodePoint (p : Point) : Bytes :=
  leU64 p.seriesId ++ (leI64 p.validTime ++ (leI64 p.validTimeEnd ++ (leI64 p.knowledgeTime ++
    (leI64 p.changeTime ++ (leU128 p.runId ++ (leU64 p.value.bits ++ (leU32 p.quality ++
      leU32 p.flags)))))))

/-- `decode_point`. -/
def decodePoint (raw : Bytes) : Point where
  seriesId := readU64 (slice raw 0 8)
  validTime := readI64 (slice raw 8 16)
  validTimeEnd := readI64 (slice raw 16 24)
  knowledgeTime := readI64 (slice raw 24 32)
  changeTime := readI64 (slice raw 32 40)
  runId := readU128 (slice raw 40 56)
  value := ⟨readU64 (slice raw 56 64)⟩
  quality := readU32 (slice raw 64 68)
  flags := readU32 (slice raw 68 72)

@[simp] theorem length_encodePoint (p : Point) : (encodePoint p).length = pointBytes := by
  simp [encodePoint, pointBytes]

@[simp] theorem decodePoint_encodePoint (p : Point) : decodePoint (encodePoint p) = p := by
  simp (disch := simp) [decodePoint, encodePoint, slice_skip, slice_left, slice_whole]

/-- The points of a byte string of whole points. -/
def decodePoints (bytes : Bytes) : List Point := (chunksExact pointBytes bytes).map decodePoint

theorem decodePoints_flatMap (ps : List Point) : decodePoints (ps.flatMap encodePoint) = ps := by
  rw [decodePoints, chunksExact_flatMap (by decide) encodePoint length_encodePoint, map_map]
  simp [Function.comp_def]

theorem length_flatMap_encodePoint (ps : List Point) :
    (ps.flatMap encodePoint).length = ps.length * pointBytes := by
  rw [length_flatMap]
  simp

/-! ## Transactions -/

/-- `TRANSACTION_MAGIC`. -/
def transactionMagic : Bytes := [0x57, 0x54, 0x58, 0x4E]

@[simp] theorem length_transactionMagic : transactionMagic.length = 4 := by decide

/-- `TRANSACTION_VERSION`. -/
def transactionVersion : UInt16 := 1

/-- `TRANSACTION_HEADER_BYTES`. -/
def transactionHeaderBytes : Nat := 12

/-- `RECORD_HEADER_BYTES`. -/
def recordHeaderBytes : Nat := 8

/-- The kind byte of a record. -/
def Record.kindByte : Record → UInt8
  | .entity _ => 1
  | .relation _ => 2
  | .series _ => 3
  | .run _ => 4
  | .plan _ => 5
  | .points _ => 6

/-- The body of a record, without any limit on its length. -/
def Record.body : Record → Bytes
  | .entity e => Postcard.entity.encode e
  | .relation r => Postcard.relation.encode r
  | .series s => Postcard.series.encode s
  | .run r => Postcard.run.encode r
  | .plan p => Postcard.plan.encode p
  | .points ps => leU32 (UInt32.ofNat ps.length) ++ ps.flatMap encodePoint

/-- One record behind its kind, version, flags and length. -/
def encodeRecord (r : Record) : Except Error Bytes := do
  failIf (2 ^ 32 ≤ r.pointList.length) (Error.serialization "too many points")
  failIf (2 ^ 32 ≤ r.body.length) (Error.serialization "transaction record exceeds u32")
  .ok (r.kindByte :: 1 :: 0 :: 0 :: (leU32 (UInt32.ofNat r.body.length) ++ r.body))

/-- The records one after the other. -/
def encodeRecords : List Record → Except Error Bytes
  | [] => .ok []
  | r :: rs => do
      let first ← encodeRecord r
      let rest ← encodeRecords rs
      .ok (first ++ rest)

/-- The header before the records. -/
def transactionHeader (recordCount : Nat) : Bytes :=
  transactionMagic ++ (leU16 transactionVersion ++ (leU16 0 ++ leU32 (UInt32.ofNat recordCount)))

/-- `encode_canonical_transaction`: the bytes that the checksums cover. -/
def encodeCanonicalTransaction (t : Transaction) : Except Error Bytes := do
  failIf (2 ^ 32 ≤ t.recordCount) (Error.serialization "too many transaction records")
  let records ← encodeRecords t.records
  .ok (transactionHeader t.recordCount ++ records)

/-- The commit identifier, if any, in front of the canonical payload. -/
def encodeTransaction (t : Transaction) : Except Error Bytes :=
  (encodeCanonicalTransaction t).map fun canonical =>
    (t.commitId.map leU128).getD [] ++ canonical

/-- A postcard body; what follows the value is ignored, as `from_bytes` does.
The text of the library's error is left out. -/
def deserialize {α : Type} (c : Codec α) (body : Bytes) (offset : Nat) : Except Error α :=
  match c.fromBytes body with
  | none => .error (.corruption offset "invalid transaction record")
  | some a => .ok a

/-- The body of a record of points: a count and as many points. -/
def decodePointRecord (body : Bytes) (offset : Nat) : Except Error (List Point) :=
  if body.length < 4 then .error (.corruption offset "truncated point record count")
  else if body.length ≠ 4 + (readU32 (slice body 0 4)).toNat * pointBytes then
    .error (.corruption offset "point record length mismatch")
  else .ok (decodePoints (body.drop 4))

/-- The body of a record by its kind. -/
def decodeBody (kind : UInt8) (body : Bytes) (offset : Nat) : Except Error Record :=
  if kind = 1 then (deserialize Postcard.entity body offset).map .entity
  else if kind = 2 then (deserialize Postcard.relation body offset).map .relation
  else if kind = 3 then (deserialize Postcard.series body offset).map .series
  else if kind = 4 then (deserialize Postcard.run body offset).map .run
  else if kind = 5 then (deserialize Postcard.plan body offset).map .plan
  else if kind = 6 then (decodePointRecord body offset).map .points
  else .error (.corruption offset "unknown transaction record kind")

/-- The record at the front of `rest`, and what follows it. -/
def decodeRecord (rest : Bytes) (offset : Nat) : Except Error (Record × Bytes) := do
  failIf (rest.length < recordHeaderBytes)
    (Error.corruption offset "truncated transaction record header")
  failIf (slice rest 1 2 ≠ [1]) (Error.corruption offset "unsupported transaction record version")
  failIf (slice rest 2 4 ≠ [0, 0])
    (Error.corruption offset "transaction record reserved flags are non-zero")
  let bodyLen := (readU32 (slice rest 4 8)).toNat
  failIf (rest.length < recordHeaderBytes + bodyLen)
    (Error.corruption offset "truncated transaction record body")
  let record ← decodeBody (rest.headD 0)
    (slice rest recordHeaderBytes (recordHeaderBytes + bodyLen))
    offset
  .ok (record, rest.drop (recordHeaderBytes + bodyLen))

/-- As many records as the header says, and nothing behind them. -/
def decodeRecords (offset : Nat) : Nat → Bytes → Except Error (List Record)
  | 0, rest => do
      failIf (rest ≠ []) (Error.corruption offset "trailing transaction bytes")
      .ok []
  | n + 1, rest => do
      let (record, rest) ← decodeRecord rest offset
      let records ← decodeRecords offset n rest
      .ok (record :: records)

/-- `decode_transaction`. -/
def decodeTransaction (payload : Bytes) (expectedRecords offset : Nat) :
    Except Error (List Record) := do
  failIf (payload.length < transactionHeaderBytes ∨ slice payload 0 4 ≠ transactionMagic)
    (Error.corruption offset "invalid transaction header")
  failIf (readU16 (slice payload 4 6) ≠ transactionVersion)
    (Error.corruption offset "unsupported transaction version")
  failIf (slice payload 6 8 ≠ [0, 0])
    (Error.corruption offset "transaction reserved flags are non-zero")
  let recordCount := (readU32 (slice payload 8 12)).toNat
  failIf (recordCount ≠ expectedRecords)
    (Error.corruption offset "transaction record count mismatch")
  failIf ((payload.length - transactionHeaderBytes) / recordHeaderBytes < recordCount)
    (Error.corruption offset "transaction record count exceeds payload bounds")
  decodeRecords offset recordCount (payload.drop transactionHeaderBytes)

/-! ## Round trip -/

theorem deserialize_encode {α : Type} (c : Codec α) (a : α) (offset : Nat)
    (h : (c.encode a).length < 2 ^ 32) : deserialize c (c.encode a) offset = .ok a := by
  rw [deserialize, c.fromBytes_encode a (by omega)]

theorem toNat_ofNat_u32 {n : Nat} (h : n < 2 ^ 32) : (UInt32.ofNat n).toNat = n := by
  rw [UInt32.toNat_ofNat']
  exact Nat.mod_eq_of_lt h

theorem decodePointRecord_body (ps : List Point) (offset : Nat) (h : ps.length < 2 ^ 32) :
    decodePointRecord (Record.body (.points ps)) offset = .ok ps := by
  have hcount : slice (leU32 (UInt32.ofNat ps.length) ++ ps.flatMap encodePoint) 0 4 =
      leU32 (UInt32.ofNat ps.length) := slice_left (by simp)
  have hdrop : (leU32 (UInt32.ofNat ps.length) ++ ps.flatMap encodePoint).drop 4 =
      ps.flatMap encodePoint := drop_left' (by simp)
  rw [decodePointRecord, Record.body, hcount, hdrop, readU32_leU32, toNat_ofNat_u32 h,
    decodePoints_flatMap]
  simp

/-- Every kind of record is read back. -/
theorem decodeBody_body (r : Record) (offset : Nat) (hpoints : r.pointList.length < 2 ^ 32)
    (hbody : r.body.length < 2 ^ 32) : decodeBody r.kindByte r.body offset = .ok r := by
  cases r with
  | points ps =>
    simp [decodeBody, Record.kindByte, decodePointRecord_body ps offset hpoints, Except.map]
  | entity e | relation e | series e | run e | plan e =>
    simp [decodeBody, Record.kindByte, Record.body, deserialize_encode _ e offset hbody, Except.map]

variable {r : Record} {bs : Bytes} {rs : List Record} {payload : Bytes} {body : Bytes}
  {offset : Nat}

/-- A record is written unless a length leaves 32 bits. -/
theorem encodeRecord_eq_ok :
    encodeRecord r = .ok bs ↔ r.pointList.length < 2 ^ 32 ∧ r.body.length < 2 ^ 32 ∧
      bs = [r.kindByte, 1, 0, 0] ++ (leU32 (UInt32.ofNat r.body.length) ++ r.body) := by
  simp only [encodeRecord, bind_eq_ok, failIf_eq_ok, not_le, exists_and_left, exists_const,
    Except.ok.injEq, cons_append, nil_append]
  exact and_congr_right fun _ => and_congr_right fun _ => eq_comm

/-- A record is read back, and nothing behind it. -/
theorem decodeRecord_encodeRecord (h : encodeRecord r = .ok bs)
    (rest : Bytes) (offset : Nat) : decodeRecord (bs ++ rest) offset = .ok (r, rest) := by
  obtain ⟨hpoints, hbody, rfl⟩ := encodeRecord_eq_ok.mp h
  have hlen : slice ([r.kindByte, 1, 0, 0] ++
      (leU32 (UInt32.ofNat r.body.length) ++ r.body) ++ rest) 4 8 =
      leU32 (UInt32.ofNat r.body.length) := by
    rw [append_assoc, slice_skip (by simp), append_assoc]
    exact slice_left (by simp)
  have hslice : slice ([r.kindByte, 1, 0, 0] ++ (leU32 (UInt32.ofNat r.body.length) ++ r.body) ++
      rest) 8 (8 + r.body.length) = r.body := by
    rw [append_assoc, slice_skip (by simp), append_assoc, slice_skip (by simp)]
    simp only [length_cons, length_nil, length_leU32]
    exact slice_left (by omega)
  have hdrop : ([r.kindByte, 1, 0, 0] ++ (leU32 (UInt32.ofNat r.body.length) ++ r.body) ++
      rest).drop (8 + r.body.length) = rest := drop_left' (by simp; omega)
  simp only [decodeRecord, bind_eq_ok, failIf_eq_ok, recordHeaderBytes, hlen, readU32_leU32,
    toNat_ofNat_u32 hbody, hslice, hdrop]
  refine ⟨(), by simp, (), by simp [slice], (), by simp [slice], (), by simp; omega,
    r, ?_, rfl⟩
  exact decodeBody_body r offset hpoints hbody

theorem decodeRecords_encodeRecords (h : encodeRecords rs = .ok bs)
    (offset : Nat) : decodeRecords offset rs.length bs = .ok rs := by
  induction rs generalizing bs with
  | nil =>
    cases h
    rfl
  | cons r rs ih =>
    simp only [encodeRecords, bind_eq_ok] at h
    obtain ⟨first, hfirst, rest, hrest, h⟩ := h
    cases h
    rw [length_cons, decodeRecords, decodeRecord_encodeRecord hfirst rest offset]
    simp only [bind, Except.bind, ih hrest]

/-- Each record takes at least its header. -/
theorem length_encodeRecords (h : encodeRecords rs = .ok bs) :
    rs.length * recordHeaderBytes ≤ bs.length := by
  induction rs generalizing bs with
  | nil => simp
  | cons r rs ih =>
    simp only [encodeRecords, bind_eq_ok] at h
    obtain ⟨first, hfirst, rest, hrest, h⟩ := h
    cases h
    obtain ⟨-, -, rfl⟩ := encodeRecord_eq_ok.mp hfirst
    have := ih hrest
    simp only [recordHeaderBytes, length_cons, length_append, length_leU32,
      length_nil] at this ⊢
    omega

@[simp] theorem length_transactionHeader (n : Nat) :
    (transactionHeader n).length = transactionHeaderBytes := by
  simp [transactionHeader, transactionHeaderBytes]

theorem recordCount_lt {t : Transaction}
    (h : encodeCanonicalTransaction t = .ok payload) : t.recordCount < 2 ^ 32 := by
  simp only [encodeCanonicalTransaction, bind_eq_ok, failIf_eq_ok, not_le] at h
  obtain ⟨_, hcount, -⟩ := h
  exact hcount

/-- Reading a transaction payload gives its records back. -/
theorem decodeTransaction_encode {t : Transaction}
    (h : encodeCanonicalTransaction t = .ok payload) (offset : Nat) :
    decodeTransaction payload t.recordCount offset = .ok t.records := by
  simp only [encodeCanonicalTransaction, bind_eq_ok, failIf_eq_ok, not_le] at h
  obtain ⟨_, hcount, records, hrecords, h⟩ := h
  cases h
  have hmagic : slice (transactionHeader t.recordCount ++ records) 0 4 = transactionMagic := by
    simp (disch := simp) [transactionHeader, slice_left]
  have hversion : slice (transactionHeader t.recordCount ++ records) 4 6 =
      leU16 transactionVersion := by
    simp (disch := simp) [transactionHeader, slice_skip, slice_left]
  have hflags : slice (transactionHeader t.recordCount ++ records) 6 8 = leU16 0 := by
    simp (disch := simp) [transactionHeader, slice_skip, slice_left]
  have hread : slice (transactionHeader t.recordCount ++ records) 8 12 =
      leU32 (UInt32.ofNat t.recordCount) := by
    simp (disch := simp) [transactionHeader, slice_skip, slice_left]
  have hbound := length_encodeRecords hrecords
  rw [recordHeaderBytes] at hbound
  simp only [decodeTransaction, bind_eq_ok, failIf_eq_ok, hmagic, hversion, hflags, hread,
    readU32_leU32, toNat_ofNat_u32 hcount]
  refine ⟨(), by simp, (), by simp, (), by decide, (), by simp, (), ?_, ?_⟩
  · simp only [length_append, length_transactionHeader, recordHeaderBytes,
      Transaction.recordCount, transactionHeaderBytes]
    omega
  · rw [drop_left' (length_transactionHeader _)]
    exact decodeRecords_encodeRecords hrecords offset

/-! ## What a decoded transaction is -/

theorem deserialize_eq_ok {α : Type} {c : Codec α} {a : α} :
    deserialize c body offset = .ok a ↔ c.fromBytes body = some a := by
  rw [deserialize]
  cases c.fromBytes body <;> simp

theorem decodePointRecord_eq_ok {ps : List Point} :
    decodePointRecord body offset = .ok ps ↔ 4 ≤ body.length ∧
      body.length = 4 + (readU32 (slice body 0 4)).toNat * pointBytes ∧
      decodePoints (body.drop 4) = ps := by
  rw [decodePointRecord]
  split
  · next hshort => simp [Nat.not_le.mpr hshort]
  split
  · next hlen => simp [hlen]
  next hlen => simp [not_not.mp hlen]

/-- The offset only names the frame in an error. -/
theorem decodeBody_offset {kind : UInt8}
    (h : decodeBody kind body offset = .ok r) (offset' : Nat) :
    decodeBody kind body offset' = .ok r := by
  unfold decodeBody at h ⊢
  split_ifs at h ⊢ <;> simpa only [map_eq_ok, deserialize_eq_ok, decodePointRecord_eq_ok] using h

theorem decodeRecord_offset {rest : Bytes} {p : Record × Bytes}
    (h : decodeRecord rest offset = .ok p) (offset' : Nat) : decodeRecord rest offset' = .ok p := by
  simp only [decodeRecord, bind_eq_ok, failIf_eq_ok] at h ⊢
  obtain ⟨_, hheader, _, hversion, _, hflags, _, hbody, r, hr, hp⟩ := h
  exact ⟨(), hheader, (), hversion, (), hflags, (), hbody, r, decodeBody_offset hr offset', hp⟩

theorem decodeRecords_offset {offset n : Nat} {rest : Bytes}
    (h : decodeRecords offset n rest = .ok rs) (offset' : Nat) :
    decodeRecords offset' n rest = .ok rs := by
  induction n generalizing rest rs with
  | zero =>
    simp only [decodeRecords, bind_eq_ok, failIf_eq_ok] at h ⊢
    exact h
  | succ n ih =>
    simp only [decodeRecords, bind_eq_ok] at h ⊢
    obtain ⟨p, hp, rs', hrs', h⟩ := h
    exact ⟨p, decodeRecord_offset hp offset', rs', ih hrs', h⟩

/-- The offset is only for error texts. -/
theorem decodeTransaction_offset {n offset : Nat}
    (h : decodeTransaction payload n offset = .ok rs) (offset' : Nat) :
    decodeTransaction payload n offset' = .ok rs := by
  simp only [decodeTransaction, bind_eq_ok, failIf_eq_ok] at h ⊢
  obtain ⟨_, hmagic, _, hversion, _, hflags, _, hcount, _, hbound, h⟩ := h
  exact ⟨(), hmagic, (), hversion, (), hflags, (), hcount, (), hbound,
    decodeRecords_offset h offset'⟩

theorem length_decodePoints (bytes : Bytes) : (decodePoints bytes).length ≤ bytes.length := by
  rw [decodePoints, length_map, chunksExact, length_map, length_range]
  exact Nat.div_le_self ..

theorem decodeBody_points {kind : UInt8}
    (h : decodeBody kind body offset = .ok r) : r.pointList.length ≤ body.length := by
  have hpoints : ∀ ps, decodePointRecord body offset = .ok ps → ps.length ≤ body.length := by
    intro ps hps
    obtain ⟨-, -, rfl⟩ := decodePointRecord_eq_ok.mp hps
    have hlen := length_decodePoints (body.drop 4)
    rw [length_drop] at hlen
    exact Nat.le_trans hlen (Nat.sub_le ..)
  unfold decodeBody at h
  split_ifs at h <;> obtain ⟨a, ha, rfl⟩ := map_eq_ok.mp h
  iterate 5 exact Nat.zero_le _
  exact hpoints a ha

/-- As many records as announced, and no more points than bytes. -/
theorem decodeRecords_counts {offset n : Nat} {rest : Bytes}
    (h : decodeRecords offset n rest = .ok rs) :
    rs.length = n ∧ (rs.flatMap Record.pointList).length ≤ rest.length := by
  induction n generalizing rest rs with
  | zero =>
    simp only [decodeRecords, bind_eq_ok] at h
    obtain ⟨_, -, h⟩ := h
    cases h
    exact ⟨rfl, Nat.zero_le _⟩
  | succ n ih =>
    simp only [decodeRecords, bind_eq_ok] at h
    obtain ⟨⟨r, rest'⟩, hp, rs', hrs', h⟩ := h
    cases h
    obtain ⟨hlen, hpoints⟩ := ih hrs'
    simp only [decodeRecord, bind_eq_ok, failIf_eq_ok] at hp
    obtain ⟨_, -, _, -, _, -, _, hbody, r', hr, hp⟩ := hp
    cases hp
    have hr := decodeBody_points hr
    rw [length_slice (Nat.not_lt.mp hbody), Nat.add_sub_cancel_left] at hr
    rw [length_drop] at hpoints
    refine ⟨by rw [length_cons, hlen], ?_⟩
    simp only [flatMap_cons, length_append]
    omega

/-- A decoded transaction has the records it announces, and no more points than
bytes. -/
theorem decodeTransaction_counts {n offset : Nat}
    (h : decodeTransaction payload n offset = .ok rs) :
    transactionHeaderBytes ≤ payload.length ∧ rs.length = n ∧ n < 2 ^ 32 ∧
      (rs.flatMap Record.pointList).length ≤ payload.length := by
  simp only [decodeTransaction, bind_eq_ok, failIf_eq_ok, not_or, not_not, ne_eq] at h
  obtain ⟨_, ⟨hlong, -⟩, _, -, _, -, _, rfl, _, -, h⟩ := h
  obtain ⟨hlen, hpoints⟩ := decodeRecords_counts h
  rw [length_drop] at hpoints
  exact ⟨Nat.not_lt.mp hlong, hlen, UInt32.toNat_lt _, Nat.le_trans hpoints (Nat.sub_le ..)⟩

/-! ## What follows a transaction

The reader knows from the bytes of a record where it ends.  So more bytes behind
an accepted payload are left over, and no accepted payload is the beginning of
another one with the same number of records. -/

section Append
variable {rest tail more payload : Bytes} {offset n : Nat} {r : Record} {rs : List Record}

theorem decodeRecord_append (h : decodeRecord rest offset = .ok (r, tail)) (more : Bytes) :
    decodeRecord (rest ++ more) offset = .ok (r, tail ++ more) := by
  simp only [decodeRecord, bind_eq_ok, failIf_eq_ok, not_lt] at h ⊢
  obtain ⟨_, hheader, _, hversion, _, hflags, _, hbody, r', hr, h⟩ := h
  obtain ⟨rfl, rfl⟩ := Prod.mk.inj (Except.ok.inj h)
  have hlong : 8 ≤ rest.length := hheader
  have hhead : (rest ++ more).headD 0 = rest.headD 0 := by
    cases rest with
    | nil => simp at hlong
    | cons b bs => rfl
  rw [slice_append_left (by omega), slice_append_left (by omega), slice_append_left (by omega),
    slice_append_left hbody, drop_append_of_le_length hbody, length_append, hhead]
  exact ⟨(), by omega, (), hversion, (), hflags, (), by omega, r', hr, rfl⟩

theorem decodeRecords_append (h : decodeRecords offset n rest = .ok rs) (hmore : more ≠ []) :
    decodeRecords offset n (rest ++ more) =
      .error (.corruption offset "trailing transaction bytes") := by
  induction n generalizing rest rs with
  | zero =>
    have hleft : rest ++ more ≠ [] := by simp [hmore]
    rw [decodeRecords, failIf, if_pos hleft]
    rfl
  | succ n ih =>
    simp only [decodeRecords, bind_eq_ok] at h
    obtain ⟨⟨r, tail⟩, hr, rs', hrs', -⟩ := h
    rw [decodeRecords, decodeRecord_append hr]
    show (do
      let records ← decodeRecords offset n (tail ++ more)
      Except.ok (r :: records)) = _
    rw [ih hrs']
    rfl

/-- A payload with bytes behind it is corrupt. -/
theorem decodeTransaction_append (h : decodeTransaction payload n offset = .ok rs)
    (hmore : more ≠ []) : decodeTransaction (payload ++ more) n offset =
      .error (.corruption offset "trailing transaction bytes") := by
  simp only [decodeTransaction, bind_eq_ok, failIf_eq_ok, not_or, not_lt, not_not, ne_eq] at h
  obtain ⟨_, ⟨hlong, hmagic⟩, _, hversion, _, hflags, _, rfl, _, hbound, h⟩ := h
  rw [transactionHeaderBytes] at hlong
  have hrecords := decodeRecords_append h hmore
  have hbound' : (readU32 (slice payload 8 12)).toNat ≤
      (payload.length + more.length - transactionHeaderBytes) / recordHeaderBytes :=
    Nat.le_trans hbound (Nat.div_le_div_right (by omega))
  simp only [decodeTransaction, slice_append_left (show 4 ≤ payload.length by omega),
    slice_append_left (show 6 ≤ payload.length by omega),
    slice_append_left (show 8 ≤ payload.length by omega), slice_append_left hlong,
    length_append, drop_append_of_le_length hlong, hmagic, hversion, hflags,
    transactionHeaderBytes] at hrecords hbound' ⊢
  simp only [failIf, Nat.not_lt.mpr (Nat.le_trans hlong (Nat.le_add_right ..)),
    Nat.not_lt.mpr hbound', not_true_eq_false, ne_eq, or_self, if_false]
  exact hrecords

/-- The count stands in the payload. -/
theorem decodeTransaction_recordCount (h : decodeTransaction payload n offset = .ok rs) :
    n = (readU32 (slice payload 8 12)).toNat := by
  simp only [decodeTransaction, bind_eq_ok, failIf_eq_ok, not_not, ne_eq] at h
  obtain ⟨_, -, _, -, _, -, _, hcount, -⟩ := h
  exact hcount.symm

end Append

end Ftwdb
