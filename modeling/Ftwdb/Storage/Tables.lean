import Ftwdb.Model.Catalog
import Ftwdb.Model.Order
import Ftwdb.Storage.Frame

/-!
# The state rebuilt from a log

`Tables` holds what `Scan` and `Database` share: the live index, the catalog,
the receipts of identified and ordered transactions with the maps derived from
them, and the counters.  `Tables.applyFrame` is the effect of one frame on a
scan.  A frame that stops the scan may already have changed the tables, and
salvage goes on with them, so a stop carries the tables it leaves.
-/

namespace Ftwdb

open ByteCodec Check StableSort

/-! ## Receipts -/

/-- `Commit`: where a frame lies and whether it is durable. -/
structure Commit where
  frameOffset : Nat
  points : Nat
  records : Nat
  bytesWritten : Nat
  durable : Bool
  deduplicated : Bool
deriving DecidableEq

/-- The sequence number of a source. -/
structure IngressKey where
  sourceId : U128
  sequence : UInt64
deriving DecidableEq

/-- The key of an ingress identity. -/
def IngressIdentity.key (identity : IngressIdentity) : IngressKey :=
  ⟨identity.sourceId, identity.sequence⟩

instance : Ord IngressKey :=
  ⟨compareLex (compareOn IngressKey.sourceId) (compareOn IngressKey.sequence)⟩

instance : Std.TransOrd IngressKey :=
  inferInstanceAs (Std.TransCmp
    (compareLex (compareOn IngressKey.sourceId) (compareOn IngressKey.sequence)))

instance : Std.LawfulEqOrd IngressKey where
  eq_of_compare {a b} h := by
    obtain ⟨hsource, hsequence⟩ := Ordering.then_eq_eq.mp h
    obtain ⟨sourceA, sequenceA⟩ := a
    obtain ⟨sourceB, sequenceB⟩ := b
    congr 1
    · exact Std.LawfulEqOrd.eq_of_compare hsource
    · exact Std.LawfulEqOrd.eq_of_compare hsequence

/-- An offset of zero marks a receipt from a compact identity index, whose
bytes, if it has any, are kept in the receipt. -/
structure StoredIngressReceipt where
  identity : IngressIdentity
  canonicalPayloadOffset : Nat
  canonicalPayloadLen : UInt32
  canonicalPayloadCrc32 : UInt32
  compactPayload : Option Bytes
  commit : Commit
deriving DecidableEq

/-- `StoredIdentifiedReceipt`. -/
structure StoredIdentifiedReceipt where
  payloadOffset : Nat
  payloadLen : UInt32
  payloadCrc32 : UInt32
  compactPayload : Option Bytes
  commit : Commit
deriving DecidableEq

/-! ## The live index -/

/-- The live points of each series. -/
abbrev LiveIndex := Std.ExtTreeMap UInt64 (List Point)

namespace LiveIndex

/-- The live points of a series. -/
def seriesPoints (index : LiveIndex) (seriesId : UInt64) : List Point := index[seriesId]?.getD []

/-- `index.entry(..).or_default().push(..)` -/
def push (index : LiveIndex) (p : Point) : LiveIndex :=
  index.insert p.seriesId (index.seriesPoints p.seriesId ++ [p])

/-- The stable sort at the end of a scan. -/
def sort (index : LiveIndex) : LiveIndex := index.map fun _ points => stableSort byValidTime points

/-- A point behind the points of its series that are not later.  The source
compares with the last point first; the split is found by `partition_point`. -/
def insertInSeries (series : List Point) (p : Point) : List Point :=
  match series.getLast? with
  | none => series ++ [p]
  | some last =>
    if p.validTime < last.validTime then
      series.takeWhile (fun e => decide (e.validTime ≤ p.validTime)) ++
        p :: series.dropWhile (fun e => decide (e.validTime ≤ p.validTime))
    else series ++ [p]

/-- `insert_indexed_point`. -/
def insertIndexedPoint (index : LiveIndex) (p : Point) : LiveIndex :=
  index.insert p.seriesId (insertInSeries (index.seriesPoints p.seriesId) p)

end LiveIndex

/-! ## Tables -/

/-- What the frames of a log leave in memory. -/
structure Tables where
  index : LiveIndex := ∅
  catalog : Catalog := {}
  commitIds : Std.ExtTreeSet U128 := ∅
  identifiedReceipts : Std.ExtTreeMap U128 StoredIdentifiedReceipt := ∅
  ingressReceipts : Std.ExtTreeMap IngressKey StoredIngressReceipt := ∅
  ingressCommitIds : Std.ExtTreeMap U128 IngressKey := ∅
  ingressLastSequences : Std.ExtTreeMap U128 UInt64 := ∅
  commits : Nat := 0
  points : Nat := 0
  catalogRecords : Nat := 0
  pendingReclaim : Bool := false
deriving DecidableEq

/-- A scan step: the tables behind the frame, or the tables left by a stop. -/
abbrev Applied := Except (Tables × Stop) Tables

namespace Tables

/-- A stop with its reason and message. -/
def stopAt (t : Tables) (reason : SalvageStopReason) (offset : Nat) (message : String) :
    Tables × Stop := (t, ⟨reason, .corruption offset message⟩)

/-! ### Compact identity indexes -/

/-- `CompactIdentifiedReceipt`. -/
structure CompactIdentifiedReceipt where
  commitId : U128
  payloadLen : UInt32
  payloadCrc32 : UInt32
  points : UInt64
  records : UInt64
  payload : Bytes
deriving DecidableEq

/-- `CompactIngressReceipt`. -/
structure CompactIngressReceipt where
  sourceId : U128
  sequence : UInt64
  commitId : U128
  canonicalPayloadLen : UInt32
  canonicalPayloadCrc32 : UInt32
  points : UInt64
  records : UInt64
  canonicalPayload : Bytes
  frameOffset : UInt64
  bytesWritten : UInt64
deriving DecidableEq

/-- `CompactIdentityIndex`: the receipts that a compacted log keeps. -/
structure CompactIdentityIndex where
  identified : List CompactIdentifiedReceipt := []
  ingress : List CompactIngressReceipt := []
deriving DecidableEq

end Tables

namespace Postcard

open Codec Tables

/-- The fields of an identified receipt in their order. -/
def compactIdentifiedReceipt : Codec CompactIdentifiedReceipt :=
  (pair u128 <| pair u32 <| pair u32 <| pair u64 <| pair u64 Codec.bytes).iso
    (fun (commitId, len, crc, points, records, payload) =>
      ⟨commitId, len, crc, points, records, payload⟩)
    (fun r => (r.commitId, r.payloadLen, r.payloadCrc32, r.points, r.records, r.payload))
    fun _ => rfl

/-- The fields of an ingress receipt in their order. -/
def compactIngressReceipt : Codec CompactIngressReceipt :=
  (pair u128 <| pair u64 <| pair u128 <| pair u32 <| pair u32 <| pair u64 <| pair u64 <|
    pair Codec.bytes <| pair u64 u64).iso
    (fun (sourceId, sequence, commitId, len, crc, points, records, payload, offset, written) =>
      ⟨sourceId, sequence, commitId, len, crc, points, records, payload, offset, written⟩)
    (fun r => (r.sourceId, r.sequence, r.commitId, r.canonicalPayloadLen, r.canonicalPayloadCrc32,
      r.points, r.records, r.canonicalPayload, r.frameOffset, r.bytesWritten))
    fun _ => rfl

/-- The two lists of the index. -/
def compactIdentityIndex : Codec CompactIdentityIndex :=
  (pair (list compactIdentifiedReceipt) (list compactIngressReceipt)).iso
    (fun (identified, ingress) => ⟨identified, ingress⟩) (fun i => (i.identified, i.ingress))
    fun _ => rfl

/-- The first index format, which kept no bytes: only its reader is needed. -/
def legacyIdentifiedReceipt : Codec (U128 × UInt32 × UInt32 × UInt64 × UInt64) :=
  pair u128 <| pair u32 <| pair u32 <| pair u64 u64

/-- An ingress receipt of the first version. -/
def legacyIngressReceipt :
    Codec (U128 × UInt64 × U128 × UInt32 × UInt32 × UInt64 × UInt64) :=
  pair u128 <| pair u64 <| pair u128 <| pair u32 <| pair u32 <| pair u64 u64

end Postcard

namespace Tables

/-- `IDENTITY_INDEX_MAGIC_V2`. -/
def identityIndexMagicV2 : Bytes := [0x57, 0x49, 0x44, 0x58, 0x30, 0x30, 0x30, 0x32]

/-- An index of the first version, without payloads. -/
def legacyIndex (bytes : Bytes) : Option CompactIdentityIndex :=
  ((Codec.pair (Codec.list Postcard.legacyIdentifiedReceipt)
    (Codec.list Postcard.legacyIngressReceipt)).fromBytes bytes).map fun p =>
      { identified := p.1.map fun (commitId, len, crc, points, records) =>
          ⟨commitId, len, crc, points, records, []⟩
        ingress := p.2.map fun (sourceId, sequence, commitId, len, crc, points, records) =>
          ⟨sourceId, sequence, commitId, len, crc, points, records, [], 0, 0⟩ }

/-- The text of the library's error is left out. -/
def decodeIdentityIndex (payload : Bytes) (offset : Nat) : Except Error CompactIdentityIndex :=
  if identityIndexMagicV2.isPrefixOf payload then
    match Postcard.compactIdentityIndex.fromBytes (payload.drop 8) with
    | none => .error (.corruption offset "identity index v2 decode failed")
    | some index => .ok index
  else
    match legacyIndex payload with
    | none => .error (.corruption offset "legacy identity index decode failed")
    | some index => .ok index

/-- The points of the records. -/
def pointTotal (records : List Record) : Nat := (records.map fun r => r.pointList.length).sum

/-- `validate_compact_transaction`: the payload has the counts of its receipt. -/
def validateCompactTransaction (payload : Bytes) (expectedRecords expectedPoints offset : Nat) :
    Except Error Unit := do
  let records ← decodeTransaction payload expectedRecords offset
  failIf (pointTotal records ≠ expectedPoints)
    (Error.corruption offset "identity index point count does not match payload")
  each (fun r => (validatePointIntervals r.pointList).mapError fun _ =>
    Error.corruption offset "identity index contains invalid point values") records

/-! ### Receipts -/

/-- A plain identifier and its receipt. -/
def addIdentified (t : Tables) (commitId : U128) (receipt : StoredIdentifiedReceipt) : Tables :=
  { t with
    commitIds := t.commitIds.insert commitId
    identifiedReceipts := t.identifiedReceipts.insert commitId receipt }

/-- An ordered identity: its two keys, its receipt and the source's cursor. -/
def addIngress (t : Tables) (receipt : StoredIngressReceipt) : Tables :=
  { t with
    commitIds := t.commitIds.insert receipt.identity.commitId
    ingressReceipts := t.ingressReceipts.insert receipt.identity.key receipt
    ingressCommitIds := t.ingressCommitIds.insert receipt.identity.commitId receipt.identity.key
    ingressLastSequences :=
      t.ingressLastSequences.insert receipt.identity.sourceId receipt.identity.sequence }

/-- The bytes kept with a compact receipt: none, or bytes that match its length
and checksum, pass `extra`, and hold the transaction the receipt counts. -/
def checkCompactPayload (payload : Bytes) (len crc : UInt32) (records points skip offset : Nat)
    (extra : Bool) (message : String) : Except Error (Option Bytes) :=
  if payload = [] then .ok none
  else do
    failIf (payload.length ≠ len.toNat ∨ Crc32.hash payload ≠ crc ∨ extra = false)
      (Error.corruption offset message)
    validateCompactTransaction (payload.drop skip) records points offset
    .ok (some payload)

/-- An identified receipt of an index enters the tables. -/
def applyIdentifiedReceipt (t : Tables) (r : CompactIdentifiedReceipt) (offset : Nat) :
    Applied := do
  failIf (r.payloadLen.toNat < commitIdBytes + transactionHeaderBytes)
    (t.stopAt .identityIndexInvalid offset "identified receipt payload is too short")
  let compactPayload ← (checkCompactPayload r.payload r.payloadLen r.payloadCrc32 r.records.toNat
      r.points.toNat commitIdBytes offset
      (decide (commitIdBytes ≤ r.payload.length) &&
        decide (readU128 (slice r.payload 0 commitIdBytes) = r.commitId))
      "identified receipt bytes do not match their index").mapError
    fun e => (t, (⟨.identityIndexInvalid, e⟩ : Stop))
  failIf (r.commitId ∈ t.commitIds)
    (t.stopAt .identityIndexInvalid offset "duplicate commit identifier")
  .ok (t.addIdentified r.commitId
    { payloadOffset := 0
      payloadLen := r.payloadLen
      payloadCrc32 := r.payloadCrc32
      compactPayload := compactPayload
      commit :=
        { frameOffset := offset
          points := r.points.toNat
          records := r.records.toNat
          bytesWritten := 0
          durable := false
          deduplicated := false } })

/-- The checks that a new ordered identity passes in a scan.  The commit
identifier is entered before the cursor is compared. -/
def enterIngress (t : Tables) (identity : IngressIdentity) (offset : Nat)
    (invalid duplicateKey duplicateId : SalvageStopReason) : Applied := do
  failIf (identity.sourceId = 0) (t.stopAt invalid offset "ingress source id zero is reserved")
  failIf (identity.key ∈ t.ingressReceipts)
    (t.stopAt duplicateKey offset "duplicate ingress source sequence")
  failIf (identity.commitId ∈ t.commitIds)
    (t.stopAt duplicateId offset "duplicate commit identifier")
  let entered := { t with commitIds := t.commitIds.insert identity.commitId }
  failIf (t.ingressLastSequences[identity.sourceId]?.any (identity.sequence ≤ ·))
    (entered.stopAt invalid offset "ingress source cursor is not strictly increasing")
  .ok entered

/-- An ingress receipt of an index enters the tables. -/
def applyIngressReceipt (t : Tables) (r : CompactIngressReceipt) (offset : Nat) : Applied := do
  failIf (r.canonicalPayloadLen.toNat < transactionHeaderBytes)
    (t.stopAt .identityIndexInvalid offset "ingress receipt payload is too short")
  let compactPayload ← (checkCompactPayload r.canonicalPayload r.canonicalPayloadLen
      r.canonicalPayloadCrc32 r.records.toNat r.points.toNat 0 offset true
      "ingress receipt bytes do not match their index").mapError
    fun e => (t, (⟨.identityIndexInvalid, e⟩ : Stop))
  let identity : IngressIdentity := ⟨r.sourceId, r.sequence, r.commitId⟩
  let t ← t.enterIngress identity offset .identityIndexInvalid .identityIndexInvalid
    .identityIndexInvalid
  .ok (t.addIngress
    { identity := identity
      canonicalPayloadOffset := 0
      canonicalPayloadLen := r.canonicalPayloadLen
      canonicalPayloadCrc32 := r.canonicalPayloadCrc32
      compactPayload := compactPayload
      commit :=
        { frameOffset := r.frameOffset.toNat
          points := r.points.toNat
          records := r.records.toNat
          bytesWritten := r.bytesWritten.toNat
          durable := false
          deduplicated := false } })

/-- The frame of an identity index. -/
def applyIdentityIndex (t : Tables) (payload : Bytes) (offset : Nat) : Applied := do
  let index ← (decodeIdentityIndex payload offset).mapError
    fun e => (t, (⟨.identityIndexInvalid, e⟩ : Stop))
  let t ← index.identified.foldlM (fun t r => t.applyIdentifiedReceipt r offset) t
  index.ingress.foldlM (fun t r => t.applyIngressReceipt r offset) t

/-! ### Frames -/

/-- Points appended to the index and counted. -/
def pushPoints (t : Tables) (points : List Point) : Tables :=
  { t with index := points.foldl LiveIndex.push t.index, points := t.points + points.length }

/-- The frame of a batch of points. -/
def applyLegacyPoints (t : Tables) (f : Frame) (offset : Nat) : Applied := do
  let recovered := decodePoints f.payload
  (validatePointIntervals recovered).mapError fun _ =>
    t.stopAt .invalidLegacyPoint offset "legacy point frame violates point invariants"
  .ok { t with
    index := recovered.foldl LiveIndex.push t.index
    points := t.points + f.items.toNat }

/-- A checkpoint whose generation is published drops the points before it: a
sealed segment holds them. -/
def applySealCheckpoint (t : Tables) (published : List UInt64) (f : Frame) (offset : Nat) :
    Applied := do
  let generation := readU64 (slice f.payload 0 8)
  let sealedPoints := readU64 (slice f.payload 8 16)
  failIf (generation = 0 ∨ sealedPoints.toNat ≠ t.points)
    (t.stopAt .sealCheckpointInvalid offset "seal checkpoint generation or point count is invalid")
  .ok (if generation ∈ published then { t with index := ∅, points := 0, pendingReclaim := true }
    else t)

/-- Who a transaction frame says it is. -/
inductive FrameIdentity where
  | anonymous
  | identified (commitId : U128)
  | ingress (identity : IngressIdentity)
deriving DecidableEq

/-- How many payload bytes the identity takes. -/
def FrameIdentity.bytes : FrameIdentity → Nat
  | .anonymous => 0
  | .identified _ => commitIdBytes
  | .ingress _ => ingressIdentityBytes

/-- The identity at the start of a payload. -/
def frameIdentity (f : Frame) : FrameIdentity :=
  match f.kind with
  | .identifiedTransaction => .identified (readU128 (slice f.payload 0 16))
  | .ingressTransaction => .ingress ⟨readU128 (slice f.payload 0 16),
      readU64 (slice f.payload 16 24), readU128 (slice f.payload 24 40)⟩
  | _ => .anonymous

/-- An identity is entered, unless it is known. -/
def enterIdentity (t : Tables) (identity : FrameIdentity) (offset : Nat) : Applied :=
  match identity with
  | .anonymous => .ok t
  | .identified commitId => do
      failIf (commitId ∈ t.commitIds)
        (t.stopAt .duplicateCommitId offset "duplicate commit identifier")
      .ok { t with commitIds := t.commitIds.insert commitId }
  | .ingress identity =>
    t.enterIngress identity offset .invalidIngressSequence .duplicateIngressSequence
      .duplicateCommitId

/-- The receipt of a transaction frame of `frameBytes` bytes at `offset`. -/
def addFrameReceipt (t : Tables) (identity : FrameIdentity) (payload : Bytes) (offset : Nat)
    (commit : Commit) : Tables :=
  match identity with
  | .anonymous => t
  | .identified commitId =>
    t.addIdentified commitId
      { payloadOffset := offset + frameHeaderBytes
        payloadLen := UInt32.ofNat payload.length
        payloadCrc32 := Crc32.hash payload
        compactPayload := none
        commit := commit }
  | .ingress identity =>
    let canonical := payload.drop ingressIdentityBytes
    t.addIngress
      { identity := identity
        canonicalPayloadOffset := offset + frameHeaderBytes + ingressIdentityBytes
        canonicalPayloadLen := UInt32.ofNat canonical.length
        canonicalPayloadCrc32 := Crc32.hash canonical
        compactPayload := none
        commit := commit }

/-- The number of catalog records of a transaction. -/
def metadataRecords (records : List Record) : Nat := records.countP fun r => !r.isPoints

variable [Jiff]

/-- The frame of a transaction. -/
def applyTransaction (t : Tables) (limits : Limits) (f : Frame) (offset : Nat) : Applied := do
  let identity := frameIdentity f
  let t : Tables ← t.enterIdentity identity offset
  let records ← (decodeTransaction (f.payload.drop identity.bytes) f.items.toNat offset).mapError
    fun e => (t, (⟨.invalidTransaction, e⟩ : Stop))
  let catalog ← (t.catalog.applyRecovered records offset).mapError
    fun e => (t, (⟨.invalidCatalogTransaction, e⟩ : Stop))
  let t : Tables := { t with catalog := catalog }
  failIf (limits.maxBatchPoints < pointTotal records)
    (t.stopAt .transactionPointCountTooLarge offset "transaction point count exceeds maximum")
  let t := t.pushPoints (records.flatMap Record.pointList)
  let t : Tables := { t with catalogRecords := t.catalogRecords + metadataRecords records }
  .ok (t.addFrameReceipt identity f.payload offset
    { frameOffset := offset
      points := pointTotal records
      records := records.length
      bytesWritten := frameHeaderBytes + f.payload.length
      durable := false
      deduplicated := false })

/-- What a complete frame does to a scan, by its kind. -/
def applyPayload (t : Tables) (limits : Limits) (published : List UInt64) (offset : Nat)
    (f : Frame) : Applied :=
  match f.kind with
  | .legacyPoints => t.applyLegacyPoints f offset
  | .sealCheckpoint => t.applySealCheckpoint published f offset
  | .identityIndex => t.applyIdentityIndex f.payload offset
  | .transaction | .identifiedTransaction | .ingressTransaction =>
    t.applyTransaction limits f offset

/-- One more commit. -/
def countCommit (t : Tables) : Tables := { t with commits := t.commits + 1 }

/-- One complete frame, counted. -/
def applyFrame (t : Tables) (limits : Limits) (published : List UInt64) (offset : Nat)
    (f : Frame) : Applied := (t.applyPayload limits published offset f).map countCommit

/-- The tables with every series in its final order. -/
def sortIndex (t : Tables) : Tables := { t with index := t.index.sort }

end Tables

end Ftwdb
