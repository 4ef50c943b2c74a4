import Ftwdb.Lib.BinarySearch
import Ftwdb.Lib.Crc32
import Ftwdb.Lib.Lz4
import Ftwdb.Model.FloatOrder
import Ftwdb.Store.Rollup

/-!
# Rollup files

The bytes of `rollup_segment.rs`: a header and one payload with a record of 104
bytes for each bucket, compressed if that is shorter.  The buckets here hold
doubles, as the file does; `StoredBucket.toGauge` is the bucket of exact numbers
that the rest of the store computes with.

The name of a file and the steps that publish it are left to the store.
-/

namespace Ftwdb

open BinarySearch ByteCodec Check Signed

namespace RollupSegment

/-! ## Buckets -/

/-- A sample of a file. -/
structure StoredSample where
  timestamp : Int64
  value : F64
deriving DecidableEq

/-- A bucket of a file, over floats. -/
structure StoredBucket where
  start : Int64
  stop : Int64
  count : UInt64
  sum : F64
  min : Option F64
  max : Option F64
  first : Option StoredSample
  last : Option StoredSample
  integralValueMicros : F64
  coveredMicros : Int64
deriving DecidableEq

/-- The derived `==`. -/
def StoredSample.eq (s t : StoredSample) : Bool :=
  decide (s.timestamp = t.timestamp) && s.value.eq t.value

/-- The sample with its exact value. -/
def StoredSample.toSample (s : StoredSample) : Sample := ⟨s.timestamp, s.value.toRat⟩

namespace StoredBucket

/-- The bucket with its exact values. -/
def toGauge (b : StoredBucket) : GaugeBucket where
  start := b.start
  stop := b.stop
  count := b.count
  sum := b.sum.toRat
  min := b.min.map F64.toRat
  max := b.max.map F64.toRat
  first := b.first.map StoredSample.toSample
  last := b.last.map StoredSample.toSample
  integralValueMicros := b.integralValueMicros.toRat
  coveredMicros := b.coveredMicros

/-- All floats of the bucket are finite. -/
def isFinite (b : StoredBucket) : Bool :=
  b.sum.isFinite && b.integralValueMicros.isFinite && b.min.all F64.isFinite &&
    b.max.all F64.isFinite && (b.first.all fun s => s.value.isFinite) &&
    b.last.all fun s => s.value.isFinite

end StoredBucket

/-- `validate_buckets` for one bucket behind `previous`. -/
def validateBucket (previous : Option StoredBucket) (b : StoredBucket) (offset : Nat) :
    Except Error Unit := do
  let corrupt := Error.corruption offset
  failIf (b.stop ≤ b.start ∨ b.coveredMicros < 0) (corrupt "invalid bucket bounds")
  failIf (previous.any fun a => decide (b.start < a.stop))
    (corrupt "rollup buckets overlap or are unsorted")
  let duration ← (checkedSub b.stop b.start).elim
    (.error (corrupt "rollup bucket duration overflows")) .ok
  let hasSamples := decide (0 < b.count)
  let hasValues := hasSamples || decide (0 < b.coveredMicros)
  failIf (hasSamples ≠ (b.first.isSome && b.last.isSome) ∨
      hasValues ≠ (b.min.isSome && b.max.isSome) ∨
      b.min.isSome ≠ b.max.isSome ∨ b.first.isSome ≠ b.last.isSome)
    (corrupt "inconsistent rollup aggregate presence")
  failIf (duration < b.coveredMicros) (corrupt "rollup coverage exceeds bucket duration")
  failIf (b.isFinite = false) (corrupt "rollup aggregate contains a non-finite value")
  match b.min, b.max with
  | some least, some greatest =>
    failIf (greatest.lt least) (corrupt "rollup aggregate minimum exceeds maximum")
    match b.first, b.last with
    | some first, some last =>
      failIf (first.timestamp < b.start ∨ b.stop ≤ first.timestamp ∨
          last.timestamp < b.start ∨ b.stop ≤ last.timestamp ∨
          last.timestamp < first.timestamp ∨ first.value.lt least ∨ greatest.lt first.value ∨
          last.value.lt least ∨ greatest.lt last.value ∨ (b.count = 1 ∧ first.eq last = false))
        (corrupt "rollup samples violate aggregate bounds")
    | _, _ => .ok ()
  | _, _ => .ok ()

/-- `validate_buckets` over the stored buckets. -/
def validateBuckets : Option StoredBucket → List StoredBucket → Nat → Except Error Unit
  | _, [], _ => .ok ()
  | previous, b :: bs, offset => do
      validateBucket previous b offset
      validateBuckets (some b) bs (offset + bucketBytes)

/-! ## Records -/

/-- The byte that says which of the four optional fields are there. -/
def presenceByte (min max first last : Bool) : UInt8 :=
  min.toUInt8 ||| (max.toUInt8 <<< 1) ||| (first.toUInt8 <<< 2) ||| (last.toUInt8 <<< 3)

/-- `encode_bucket`; the last bytes say which options are there. -/
def encodeBucket (b : StoredBucket) : Bytes :=
  leI64 b.start ++ (leI64 b.stop ++ (leU64 b.count ++ (leU64 b.sum.bits ++
    (leU64 (b.min.getD ⟨0⟩).bits ++ (leU64 (b.max.getD ⟨0⟩).bits ++
    (leI64 (b.first.elim 0 StoredSample.timestamp) ++
    (leU64 (b.first.elim ⟨0⟩ StoredSample.value).bits ++
    (leI64 (b.last.elim 0 StoredSample.timestamp) ++
    (leU64 (b.last.elim ⟨0⟩ StoredSample.value).bits ++
    (leU64 b.integralValueMicros.bits ++ (leI64 b.coveredMicros ++
    ([presenceByte b.min.isSome b.max.isSome b.first.isSome b.last.isSome] ++
      List.replicate 7 0))))))))))))

/-- The byte of a record at an offset. -/
def byteAt (raw : Bytes) (i : Nat) : UInt8 := (slice raw i (i + 1)).headD 0

/-- The float in some bytes. -/
def readF64 (raw : Bytes) (lo hi : Nat) : F64 := ⟨readU64 (slice raw lo hi)⟩

/-- A field that a bit of the presence byte announces. -/
def present {α : Type} (presence bit : UInt8) (a : α) : Option α :=
  if presence &&& bit ≠ 0 then some a else none

/-- `decode_bucket`. -/
def decodeBucket (raw : Bytes) : StoredBucket :=
  let presence := byteAt raw 96
  { start := readI64 (slice raw 0 8)
    stop := readI64 (slice raw 8 16)
    count := readU64 (slice raw 16 24)
    sum := readF64 raw 24 32
    min := present presence 1 (readF64 raw 32 40)
    max := present presence 2 (readF64 raw 40 48)
    first := present presence 4 ⟨readI64 (slice raw 48 56), readF64 raw 56 64⟩
    last := present presence 8 ⟨readI64 (slice raw 64 72), readF64 raw 72 80⟩
    integralValueMicros := readF64 raw 80 88
    coveredMicros := readI64 (slice raw 88 96) }

/-- The records of a payload from `offset` on. -/
def decodeBuckets : Nat → List Bytes → Except Error (List StoredBucket)
  | _, [] => .ok []
  | offset, raw :: raws => do
      failIf (byteAt raw 96 &&& ~~~0x0f ≠ 0 ∨ slice raw 97 104 ≠ List.replicate 7 0)
        (Error.corruption offset "rollup bucket reserved bits are non-zero")
      let buckets ← decodeBuckets (offset + bucketBytes) raws
      .ok (decodeBucket raw :: buckets)

/-! ## Files -/

/-- `RollupSegmentStats`. -/
structure Stats where
  buckets : UInt32
  storedBytes : Nat
  logicalBytes : Nat
  minStart : Option Int64
  maxEnd : Option Int64
deriving DecidableEq

/-- The magic of a file. -/
def rollupMagic : Bytes := [87, 82, 79, 76, 48, 48, 48, 49]

/-- The version of a file. -/
def rollupVersion : UInt16 := 1

/-- `HEADER_BYTES`. -/
def headerBytes : Nat := 48

/-- The header of a file. -/
structure Header where
  compression : UInt8
  bucketCount : UInt32
  uncompressedLen : UInt32
  storedLen : UInt32
  payloadCrc : UInt32
  minStart : Int64
  maxEnd : Int64

/-- The bytes a header's own checksum covers. -/
def Header.fields (h : Header) : Bytes :=
  rollupMagic ++ (leU16 rollupVersion ++ ([h.compression] ++ ([0] ++ (leU32 h.bucketCount ++
    (leU32 h.uncompressedLen ++ (leU32 h.storedLen ++ (leU32 h.payloadCrc ++
      (leI64 h.minStart ++ leI64 h.maxEnd))))))))

/-- The fields and their checksum. -/
def encodeHeader (h : Header) : Bytes := h.fields ++ leU32 (Crc32.hash h.fields)

/-- The tests of a header on its own, and its fields. -/
def decodeHeader (header : Bytes) : Except Error Header := do
  failIf (slice header 0 8 ≠ rollupMagic) (Error.corruption 0 "invalid rollup segment magic")
  failIf (readU16 (slice header 8 10) ≠ rollupVersion)
    (Error.corruption 0 "unsupported rollup segment version")
  failIf (Crc32.hash (slice header 0 44) ≠ readU32 (slice header 44 48))
    (Error.corruption 0 "rollup segment header checksum mismatch")
  failIf (byteAt header 11 ≠ 0)
    (Error.corruption 0 "rollup segment reserved header byte is non-zero")
  .ok {
    compression := byteAt header 10
    bucketCount := readU32 (slice header 12 16)
    uncompressedLen := readU32 (slice header 16 20)
    storedLen := readU32 (slice header 20 24)
    payloadCrc := readU32 (slice header 24 28)
    minStart := readI64 (slice header 28 36)
    maxEnd := readI64 (slice header 36 44) }

/-- The statistics of a file with this header. -/
def Header.stats (h : Header) (fileLen : Nat) : Stats where
  buckets := h.bucketCount
  storedBytes := fileLen
  logicalBytes := h.uncompressedLen.toNat
  minStart := if 0 < h.bucketCount then some h.minStart else none
  maxEnd := if 0 < h.bucketCount then some h.maxEnd else none

section Codec
variable [Lz4]

/-- The header for some buckets and their payload. -/
def headerOf (buckets : List StoredBucket) (compression : UInt8) (payload : Bytes) : Header where
  compression := compression
  bucketCount := UInt32.ofNat buckets.length
  uncompressedLen := UInt32.ofNat (buckets.length * bucketBytes)
  storedLen := UInt32.ofNat payload.length
  payloadCrc := Crc32.hash payload
  minStart := buckets.head?.elim 0 StoredBucket.start
  maxEnd := buckets.getLast?.elim 0 StoredBucket.stop

/-- `write_temporary`: the statistics and the bytes of a file. -/
def writeTemporary (buckets : List StoredBucket) : Except Error (Stats × Bytes) := do
  let encoded := buckets.flatMap encodeBucket
  let (compression, payload) := packBlock encoded
  failIf (2 ^ 32 ≤ buckets.length * bucketBytes)
    (Error.serialization "rollup segment exceeds u32 length")
  failIf (2 ^ 32 ≤ payload.length) (Error.serialization "rollup segment exceeds u32 length")
  failIf (2 ^ 32 ≤ buckets.length) (Error.serialization "too many rollup buckets")
  let header := headerOf buckets compression payload
  let file := encodeHeader header ++ payload
  .ok (header.stats file.length, file)

/-- `create`: checked buckets, then the file. -/
def create (buckets : List StoredBucket) : Except Error (Stats × Bytes) := do
  failIf (maxRollupBuckets < buckets.length)
    (Error.invalidModel "rollup segment exceeds 262144 buckets")
  validateBuckets none buckets 0
  writeTemporary buckets

/-- The records of a stored payload. -/
def unpackPayload (h : Header) (payload : Bytes) : Except Error Bytes :=
  let uncompressedLen := h.uncompressedLen.toNat
  if h.compression = compressionRaw then .ok payload
  else if h.compression = compressionLz4 then do
    failIf (h.storedLen.toNat * maxLz4Ratio < uncompressedLen)
      (Error.corruption 0 "rollup uncompressed length exceeds LZ4 capacity")
    failIf (payload.length < 4) (Error.corruption headerBytes "LZ4 rollup payload is too short")
    failIf ((readU32 (slice payload 0 4)).toNat ≠ uncompressedLen)
      (Error.corruption headerBytes "LZ4 size prefix disagrees with rollup header")
    (Lz4.decompress (payload.drop 4) uncompressedLen).elim
      (.error (.corruption headerBytes "invalid LZ4 rollup payload")) .ok
  else .error (.corruption 0 "unknown rollup compression")

end Codec

end RollupSegment

/-- An open rollup file. -/
structure RollupSegment where
  buckets : List RollupSegment.StoredBucket
  stats : RollupSegment.Stats
deriving DecidableEq

namespace RollupSegment

/-- `open`: header, checksums, buckets and their order. -/
def openFile [Lz4] (file : Bytes) : Except Error RollupSegment := do
  failIf (file.length < headerBytes) (Error.corruption 0 "rollup segment is too small")
  let h ← decodeHeader (slice file 0 48)
  failIf (maxRollupBuckets < h.bucketCount.toNat)
    (Error.corruption 0 "rollup bucket count exceeds implementation limit")
  -- at most this many records cannot overflow the product
  failIf (h.uncompressedLen.toNat ≠ h.bucketCount.toNat * bucketBytes ∨
      file.length ≠ headerBytes + h.storedLen.toNat)
    (Error.corruption 0 "invalid rollup segment lengths")
  let payload := file.drop headerBytes
  failIf (Crc32.hash payload ≠ h.payloadCrc)
    (Error.corruption headerBytes "rollup payload checksum mismatch")
  let decoded ← unpackPayload h payload
  failIf (decoded.length ≠ h.uncompressedLen.toNat)
    (Error.corruption headerBytes "rollup decoded length mismatch")
  let buckets ← decodeBuckets headerBytes (chunksExact bucketBytes decoded)
  validateBuckets none buckets headerBytes
  failIf ((buckets.head?.any fun b => decide (b.start ≠ h.minStart)) ∨
      (buckets.getLast?.any fun b => decide (b.stop ≠ h.maxEnd)) ∨
      (buckets = [] ∧ (h.minStart ≠ 0 ∨ h.maxEnd ≠ 0)))
    (Error.corruption 0 "rollup header bounds mismatch")
  .ok ⟨buckets, h.stats file.length⟩

/-- `query`: the buckets that overlap the range, by binary search. -/
def query (s : RollupSegment) (start stop : Int64) : List StoredBucket :=
  let rest := s.buckets.drop (partitionPoint (fun b => decide (b.stop ≤ start)) s.buckets)
  rest.take (partitionPoint (fun b => decide (b.start < stop)) rest)

end RollupSegment

end Ftwdb
