import Ftwdb.Lib.Crc32
import Ftwdb.Lib.Lz4
import Ftwdb.Storage.Columns

/-!
# Segment files

The bytes of `segment.rs`: a header, the blocks one behind the other, and an
index with an entry for each block.  `StoredSegment.create` writes a file,
`StoredSegment.openFile` reads its header and index, and the readers of an open
file decode the blocks their index entries lead to.

Reading beyond the end of a file is an error of the system; the name of the file
and the steps that publish it are left to the store.
-/

namespace Ftwdb

open ByteCodec Check StableSort

/-- What the index says of a block. -/
structure IndexEntry where
  seriesId : UInt64
  minTime : Int64
  maxTime : Int64
  offset : UInt64
  length : UInt32
  points : UInt32
deriving DecidableEq

namespace IndexEntry

/-- The test a query makes. -/
def overlaps (e : IndexEntry) (seriesId : UInt64) (start stop : Int64) : Bool :=
  decide (e.seriesId = seriesId ∧ start ≤ e.maxTime ∧ e.minTime < stop)

/-- The tuple order of the series and the first time. -/
def before (e e' : IndexEntry) : Prop :=
  e.seriesId < e'.seriesId ∨ (e.seriesId = e'.seriesId ∧ e.minTime < e'.minTime)

instance : DecidableRel before := fun _ _ => inferInstanceAs (Decidable (_ ∨ _))

end IndexEntry

/-- `SegmentStats`. -/
structure SegmentStats where
  blocks : UInt32
  points : UInt64
  storedBytes : Nat
  logicalPointBytes : UInt64
deriving DecidableEq

/-- An open segment. -/
structure StoredSegment where
  bytes : Bytes
  index : List IndexEntry
  stats : SegmentStats
deriving DecidableEq

namespace StoredSegment

/-! ## Layout -/

/-- `SEGMENT_MAGIC`. -/
def segmentMagic : Bytes := [0x57, 0x53, 0x45, 0x47, 0x30, 0x30, 0x30, 0x31]

/-- `SEGMENT_VERSION`. -/
def segmentVersion : UInt16 := 1

/-- `SEGMENT_HEADER_BYTES`. -/
def segmentHeaderBytes : Nat := 40

/-- `BLOCK_MAGIC`. -/
def blockMagic : Bytes := [0x57, 0x42, 0x4C, 0x4B]

/-- `BLOCK_VERSION`. -/
def blockVersion : UInt16 := 1

/-- `BLOCK_HEADER_BYTES`. -/
def blockHeaderBytes : Nat := 56

/-- `BLOCK_ENCODING_COLUMN_V1`. -/
def blockEncodingColumnV1 : UInt8 := 1

/-- `INDEX_MAGIC`. -/
def indexMagic : Bytes := [0x57, 0x49, 0x44, 0x58]

/-- `INDEX_VERSION`. -/
def indexVersion : UInt16 := 1

/-- `INDEX_HEADER_BYTES`. -/
def indexHeaderBytes : Nat := 16

/-- `INDEX_ENTRY_BYTES`. -/
def indexEntryBytes : Nat := 40

@[simp] theorem length_segmentMagic : segmentMagic.length = 8 := by decide

@[simp] theorem length_blockMagic : blockMagic.length = 4 := by decide

@[simp] theorem length_indexMagic : indexMagic.length = 4 := by decide

/-- `read_exact_at` -/
def readExactAt (file : Bytes) (offset n : Nat) : Except Error Bytes :=
  if offset + n ≤ file.length then .ok (slice file offset (offset + n)) else .error .io

/-! ### Block headers -/

/-- `BlockHeader`. -/
structure BlockHeader where
  compression : UInt8
  seriesId : UInt64
  points : UInt32
  uncompressedLen : UInt32
  payloadLen : UInt32
  payloadCrc : UInt32
  minTime : Int64
  maxTime : Int64
deriving DecidableEq

/-- The bytes of a header that its checksum covers. -/
def BlockHeader.fields (h : BlockHeader) : Bytes :=
  blockMagic ++ (leU16 blockVersion ++ ([h.compression] ++ ([blockEncodingColumnV1] ++
    (leU64 h.seriesId ++ (leU32 h.points ++ (leU32 h.uncompressedLen ++ (leU32 h.payloadLen ++
      (leU32 h.payloadCrc ++ (leI64 h.minTime ++ leI64 h.maxTime)))))))))

/-- `encode_block_header`: the fields and their checksum. -/
def encodeBlockHeader (h : BlockHeader) : Bytes :=
  h.fields ++ (leU32 (Crc32.hash h.fields) ++ leU32 0)

/-- The tests of a block header on its own, and its fields. -/
def decodeBlockHeader (header : Bytes) (offset : Nat) : Except Error BlockHeader := do
  failIf (slice header 0 4 ≠ blockMagic) (Error.corruption offset "invalid block magic")
  failIf (readU16 (slice header 4 6) ≠ blockVersion ∨ slice header 7 8 ≠ [blockEncodingColumnV1])
    (Error.corruption offset "unsupported block encoding")
  failIf (slice header 52 56 ≠ [0, 0, 0, 0])
    (Error.corruption offset "non-zero reserved block header bytes")
  failIf (Crc32.hash (slice header 0 48) ≠ readU32 (slice header 48 52))
    (Error.corruption offset "block header checksum mismatch")
  .ok {
    compression := (slice header 6 7).headD 0
    seriesId := readU64 (slice header 8 16)
    points := readU32 (slice header 16 20)
    uncompressedLen := readU32 (slice header 20 24)
    payloadLen := readU32 (slice header 24 28)
    payloadCrc := readU32 (slice header 28 32)
    minTime := readI64 (slice header 32 40)
    maxTime := readI64 (slice header 40 48) }

/-! ### Index entries -/

/-- An entry of the index. -/
def encodeIndex (e : IndexEntry) : Bytes :=
  leU64 e.seriesId ++ (leI64 e.minTime ++ (leI64 e.maxTime ++ (leU64 e.offset ++
    (leU32 e.length ++ leU32 e.points))))

/-- The entry in some bytes. -/
def decodeIndex (raw : Bytes) : IndexEntry where
  seriesId := readU64 (slice raw 0 8)
  minTime := readI64 (slice raw 8 16)
  maxTime := readI64 (slice raw 16 24)
  offset := readU64 (slice raw 24 32)
  length := readU32 (slice raw 32 36)
  points := readU32 (slice raw 36 40)

/-! ## Writing -/

/-- The header of a block; of a compressed one the length stands in front of it. -/
def blockHeaderOf (b : Block) (compression : UInt8) (payload : Bytes) : BlockHeader where
  compression := compression
  seriesId := b.seriesId
  points := UInt32.ofNat b.points.length
  uncompressedLen :=
    if compression = compressionRaw then UInt32.ofNat payload.length
    else readU32 (slice payload 0 4)
  payloadLen := UInt32.ofNat payload.length
  payloadCrc := Crc32.hash payload
  minTime := b.minTime
  maxTime := b.maxTime

section Write
variable [Lz4]

/-- A block behind its header. -/
def encodeBlock (b : Block) : Except Error Bytes := do
  let encoded ← encodeColumns b.points
  let (compression, payload) := packBlock encoded
  failIf (2 ^ 32 ≤ payload.length) (Error.serialization "segment block is too large")
  failIf (2 ^ 32 ≤ b.points.length) (Error.serialization "too many block points")
  failIf (2 ^ 32 ≤ blockHeaderBytes + payload.length)
    (Error.serialization "segment block is too large")
  .ok (encodeBlockHeader (blockHeaderOf b compression payload) ++ payload)

/-- The index entry of a block of `length` bytes at `offset`. -/
def entryOf (b : Block) (offset length : Nat) : IndexEntry where
  seriesId := b.seriesId
  minTime := b.minTime
  maxTime := b.maxTime
  offset := UInt64.ofNat offset
  length := UInt32.ofNat length
  points := UInt32.ofNat b.points.length

/-- The blocks from `offset` on, and their entries. -/
def writeBlocks : Nat → List Block → Except Error (Bytes × List IndexEntry)
  | _, [] => .ok ([], [])
  | offset, b :: bs => do
      let bytes ← encodeBlock b
      let (rest, index) ← writeBlocks (offset + bytes.length) bs
      .ok (bytes ++ rest, entryOf b offset bytes.length :: index)

/-- The header of an index. -/
def indexHeaderOf (index : List IndexEntry) : Bytes :=
  indexMagic ++ (leU16 indexVersion ++ (leU16 (UInt16.ofNat indexEntryBytes) ++
    (leU32 (UInt32.ofNat index.length) ++ leU32 (Crc32.hash (index.flatMap encodeIndex)))))

/-- The bytes of the segment header that its checksum covers. -/
def segmentFields (blocks : UInt32) (points indexOffset : UInt64) (indexBytes : UInt32) : Bytes :=
  segmentMagic ++ (leU16 segmentVersion ++ (leU16 0 ++ (leU32 blocks ++ (leU64 points ++
    (leU64 indexOffset ++ leU32 indexBytes)))))

/-- The header of a segment. -/
def segmentHeaderOf (blocks : UInt32) (points indexOffset : UInt64) (indexBytes : UInt32) : Bytes :=
  segmentFields blocks points indexOffset indexBytes ++
    leU32 (Crc32.hash (segmentFields blocks points indexOffset indexBytes))

/-- `saturating_mul`. -/
def saturatingMul (a b : UInt64) : UInt64 :=
  if a.toNat * b.toNat < 2 ^ 64 then a * b else UInt64.ofNat (2 ^ 64 - 1)

/-- The statistics of a file. -/
def statsOf (blocks : UInt32) (points : UInt64) (storedBytes : Nat) : SegmentStats :=
  ⟨blocks, points, storedBytes, saturatingMul points 72⟩

/-- `Segment::create` up to the name of the file. -/
def create (points : List Point) (blockPoints : Nat) : Except Error (SegmentStats × Bytes) := do
  failIf (blockPoints = 0 ∨ maxBlockPoints < blockPoints)
    (Error.invalidConfig "segment block_points must be in 1..=262144")
  validatePointIntervals points
  let (body, index) ←
    writeBlocks segmentHeaderBytes (cutBlocks blockPoints (stableSort bySegment points))
  failIf (2 ^ 32 ≤ index.length) (Error.serialization "too many segment blocks")
  let entries := index.flatMap encodeIndex
  failIf (2 ^ 32 ≤ indexHeaderBytes + entries.length)
    (Error.serialization "segment index is too large")
  let header := segmentHeaderOf (UInt32.ofNat index.length) (UInt64.ofNat points.length)
    (UInt64.ofNat (segmentHeaderBytes + body.length))
    (UInt32.ofNat (indexHeaderBytes + entries.length))
  let file := header ++ (body ++ (indexHeaderOf index ++ entries))
  .ok (statsOf (UInt32.ofNat index.length) (UInt64.ofNat points.length) file.length, file)

end Write

/-! ## Opening -/

/-- The loop of `validate_index`: the points and the end of the entries so far. -/
def validateEntries (indexOffset : Nat) :
    Option IndexEntry → Nat → Nat → List IndexEntry → Except Error (Nat × Nat)
  | _, points, expected, [] => .ok (points, expected)
  | previous, points, expected, e :: es => do
      failIf (e.points = 0 ∨ maxBlockPoints < e.points.toNat ∨ e.maxTime < e.minTime ∨
          e.offset.toNat ≠ expected ∨ 2 ^ 64 ≤ e.offset.toNat + e.length.toNat ∨
          indexOffset < e.offset.toNat + e.length.toNat)
        (Error.corruption indexOffset "invalid segment index entry")
      failIf ((e.length.toNat - blockHeaderBytes) * maxLz4Ratio <
          minimumEncodedBytes e.points.toNat)
        (Error.corruption indexOffset "segment index point count exceeds block capacity")
      ifSome previous fun q =>
        failIf (e.before q ∨ (e.seriesId = q.seriesId ∧ e.minTime < q.maxTime))
          (Error.corruption indexOffset "segment index is not sorted or has overlapping blocks")
      validateEntries indexOffset (some e) (points + e.points.toNat)
        (e.offset.toNat + e.length.toNat) es

/-- `validate_index`: the entries cover the blocks without a gap. -/
def validateIndex (index : List IndexEntry) (indexOffset pointCount : Nat) : Except Error Unit := do
  let (points, expected) ← validateEntries indexOffset none 0 segmentHeaderBytes index
  failIf (points ≠ pointCount ∨ expected ≠ indexOffset)
    (Error.corruption indexOffset "segment index coverage or point count mismatch")

/-- `Segment::open` over the bytes of the file. -/
def openFile (file : Bytes) : Except Error StoredSegment := do
  failIf (file.length < segmentHeaderBytes + indexHeaderBytes)
    (Error.corruption 0 "segment is too small")
  let header := slice file 0 40
  failIf (slice header 0 8 ≠ segmentMagic) (Error.corruption 0 "invalid segment magic")
  failIf (readU16 (slice header 8 10) ≠ segmentVersion ∨ slice header 10 12 ≠ [0, 0])
    (Error.corruption 0 "unsupported segment version")
  failIf (Crc32.hash (slice header 0 36) ≠ readU32 (slice header 36 40))
    (Error.corruption 0 "segment header checksum mismatch")
  let blockCount := readU32 (slice header 12 16)
  let pointCount := readU64 (slice header 16 24)
  let indexOffset := (readU64 (slice header 24 32)).toNat
  let indexBytes := (readU32 (slice header 32 36)).toNat
  failIf (indexOffset < segmentHeaderBytes ∨ 2 ^ 64 ≤ indexOffset + indexBytes ∨
      indexOffset + indexBytes ≠ file.length)
    (Error.corruption 0 "invalid segment index bounds")
  let indexHeader ← readExactAt file indexOffset 16
  failIf (slice indexHeader 0 4 ≠ indexMagic)
    (Error.corruption indexOffset "invalid segment index magic")
  let entryCount := readU32 (slice indexHeader 8 12)
  failIf (readU16 (slice indexHeader 4 6) ≠ indexVersion ∨
      (readU16 (slice indexHeader 6 8)).toNat ≠ indexEntryBytes ∨ entryCount ≠ blockCount)
    (Error.corruption indexOffset "unsupported segment index layout")
  failIf (indexBytes ≠ indexHeaderBytes + entryCount.toNat * indexEntryBytes)
    (Error.corruption indexOffset "segment index length mismatch")
  let entries ← readExactAt file (indexOffset + 16) (entryCount.toNat * indexEntryBytes)
  failIf (Crc32.hash entries ≠ readU32 (slice indexHeader 12 16))
    (Error.corruption indexOffset "segment index checksum mismatch")
  let index := (chunksExact indexEntryBytes entries).map decodeIndex
  validateIndex index indexOffset pointCount.toNat
  .ok ⟨file, index, statsOf blockCount pointCount file.length⟩

/-! ## Reading -/

section Read
variable [Lz4]

/-- The columns of a stored block. -/
def unpackBlock (h : BlockHeader) (payload : Bytes) (offset : Nat) : Except Error Bytes :=
  let uncompressedLen := h.uncompressedLen.toNat
  if h.compression = compressionRaw then .ok payload
  else if h.compression = compressionLz4 then do
    failIf (payload.length < 4) (Error.corruption offset "LZ4 block is too short")
    failIf ((readU32 (slice payload 0 4)).toNat ≠ uncompressedLen)
      (Error.corruption offset "LZ4 size prefix disagrees with block header")
    failIf ((payload.length - 4) * maxLz4Ratio < uncompressedLen)
      (Error.corruption offset "block uncompressed length exceeds LZ4 capacity")
    -- the text of the library's error is left out
    match Lz4.decompress (payload.drop 4) uncompressedLen with
    | none => .error (.corruption offset "invalid LZ4 block")
    | some decoded => .ok decoded
  else .error (.corruption offset "unknown block compression")

/-- What the reader asks of the points of a block. -/
def wellFormed (points : List Point) (minTime maxTime : Int64) : Bool :=
  points.head?.any (fun p => decide (p.validTime = minTime)) &&
    points.getLast?.any (fun p => decide (p.validTime = maxTime)) &&
    decide (points.IsChain fun p q => p.validTime ≤ q.validTime) &&
    points.all fun p => decide (p.validTime ≤ p.validTimeEnd) && p.value.isFinite

/-- `read_block`: the header must agree with the entry. -/
def readBlock (file : Bytes) (entry : IndexEntry) : Except Error (List Point) := do
  let offset := entry.offset.toNat
  let raw ← readExactAt file offset blockHeaderBytes
  let header ← decodeBlockHeader raw offset
  failIf (header.seriesId ≠ entry.seriesId ∨ header.points ≠ entry.points ∨
      header.minTime ≠ entry.minTime ∨ header.maxTime ≠ entry.maxTime ∨
      blockHeaderBytes + header.payloadLen.toNat ≠ entry.length.toNat)
    (Error.corruption offset "block header disagrees with index")
  failIf (header.uncompressedLen.toNat < minimumEncodedBytes header.points.toNat ∨
      maximumEncodedBytes header.points.toNat < header.uncompressedLen.toNat)
    (Error.corruption offset "block uncompressed length is out of bounds")
  let payload ← readExactAt file (offset + blockHeaderBytes) header.payloadLen.toNat
  failIf (Crc32.hash payload ≠ header.payloadCrc)
    (Error.corruption offset "block payload checksum mismatch")
  let decoded ← unpackBlock header payload offset
  failIf (decoded.length ≠ header.uncompressedLen.toNat)
    (Error.corruption offset "block uncompressed length mismatch")
  let points ← decodeColumns decoded header.seriesId header.points.toNat offset
  failIf (wellFormed points header.minTime header.maxTime = false)
    (Error.corruption offset "decoded block violates point or index invariants")
  .ok points

/-- `verify_blocks`: every block can be read. -/
def verifyBlocks (s : StoredSegment) : Except Error Unit :=
  each (fun entry => (readBlock s.bytes entry).map fun _ => ()) s.index

/-- `query`, over the blocks that overlap the range. -/
def query (s : StoredSegment) (seriesId : UInt64) (start stop : Int64) :
    Except Error (List Point) := do
  let parts ← (s.index.filter fun e => e.overlaps seriesId start stop).mapM fun entry =>
    (readBlock s.bytes entry).map fun points => points.filter fun p =>
      decide (start ≤ p.validTime ∧ p.validTime < stop)
  .ok parts.flatten

end Read

/-- `overlaps`. -/
def overlaps (s : StoredSegment) (seriesId : UInt64) (start stop : Int64) : Bool :=
  s.index.any fun e => e.overlaps seriesId start stop

/-- The least of the first times and the greatest of the last times. -/
def validBounds (s : StoredSegment) : Option (Int64 × Int64) :=
  match s.index with
  | [] => none
  | e :: es => some (es.foldl (fun t e => if e.minTime < t then e.minTime else t) e.minTime,
      es.foldl (fun t e => if t < e.maxTime then e.maxTime else t) e.maxTime)

/-- `series_bounds`, from the index alone. -/
def seriesBounds (s : StoredSegment) (seriesId : UInt64) : Option (Int64 × Int64) :=
  let bounds := s.index.foldl (fun bounds e =>
    if e.seriesId = seriesId then
      (if e.minTime < bounds.1 then e.minTime else bounds.1,
        if bounds.2 < e.maxTime then e.maxTime else bounds.2)
    else bounds) (Int64.maxValue, Int64.minValue)
  if bounds.1 ≤ bounds.2 then some bounds else none

/-- `series_point_count`. -/
def seriesPointCount (s : StoredSegment) (seriesId : UInt64) : Nat :=
  ((s.index.filter fun e => decide (e.seriesId = seriesId)).map fun e => e.points.toNat).sum

end StoredSegment

end Ftwdb
