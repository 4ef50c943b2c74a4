import Ftwdb.Storage.Database

/-!
# Reclaiming the live log

`reclaim_live_log` replaces the log by a synthesized one: the catalog as one
transaction, the receipts in chunked identity-index frames, and the live points
as one transaction.  The new file is scanned before it takes the place of the
old one, and the handle goes on with the tables of that scan.

The functions that write the new file return the frames they write: a failure
removes the file, so nothing else of it is ever seen.
-/

namespace Ftwdb

open ByteCodec Check Tables

namespace Database

/-! ## The receipts as an index -/

/-- The entry of a plain receipt.  The bytes of a live one are read back and
compared with the receipt first. -/
def compactIdentified (file : File) (commitId : U128) (receipt : StoredIdentifiedReceipt) :
    Except Error CompactIdentifiedReceipt := do
  let payload ←
    if receipt.payloadOffset = 0 then .ok (receipt.compactPayload.getD [])
    else do
      let payload ← file.readExactAt receipt.payloadOffset receipt.payloadLen.toNat
      let same ← identifiedPayloadMatchesAt file receipt payload
      failIf (same = false)
        (Error.corruption receipt.commit.frameOffset
          "stored identified payload changed before reclaim")
      .ok payload
  .ok
    { commitId := commitId
      payloadLen := receipt.payloadLen
      payloadCrc32 := receipt.payloadCrc32
      points := UInt64.ofNat receipt.commit.points
      records := UInt64.ofNat receipt.commit.records
      payload := payload }

/-- The entry of an ordered receipt, which keeps its place in the old log. -/
def compactIngress (file : File) (receipt : StoredIngressReceipt) :
    Except Error CompactIngressReceipt := do
  let canonical ←
    if receipt.canonicalPayloadOffset = 0 then .ok (receipt.compactPayload.getD [])
    else do
      let payload ← file.readExactAt receipt.canonicalPayloadOffset
        receipt.canonicalPayloadLen.toNat
      let same ← ingressPayloadMatchesAt file receipt payload
      failIf (same = false)
        (Error.corruption receipt.commit.frameOffset
          "stored ingress payload changed before reclaim")
      .ok payload
  .ok
    { sourceId := receipt.identity.sourceId
      sequence := receipt.identity.sequence
      commitId := receipt.identity.commitId
      canonicalPayloadLen := receipt.canonicalPayloadLen
      canonicalPayloadCrc32 := receipt.canonicalPayloadCrc32
      points := UInt64.ofNat receipt.commit.points
      records := UInt64.ofNat receipt.commit.records
      canonicalPayload := canonical
      frameOffset := UInt64.ofNat receipt.commit.frameOffset
      bytesWritten := UInt64.ofNat receipt.commit.bytesWritten }

/-- The source visits its hash maps and sorts by the keys afterwards; the maps
of the model list their entries in that order. -/
def compactIdentityIndex (db : Database) : Except Error CompactIdentityIndex := do
  let identified ← db.identifiedReceipts.toList.mapM fun (commitId, receipt) =>
    compactIdentified db.file commitId receipt
  let ingress ← db.ingressReceipts.toList.mapM fun (_, receipt) => compactIngress db.file receipt
  .ok ⟨identified, ingress⟩

/-! ## Identity-index frames -/

/-- An index with its magic bytes. -/
def encodedIdentityIndex (index : CompactIdentityIndex) : Bytes :=
  identityIndexMagicV2 ++ Postcard.compactIdentityIndex.encode index

/-- `write_identity_index_frame`. -/
def writeIdentityIndexFrame (index : CompactIdentityIndex) (limit : Nat) : Except Error Frame :=
  let payload := encodedIdentityIndex index
  if limit < payload.length then
    .error (.serialization "identity index chunk exceeds its frame limit")
  else if h : payload.length < 2 ^ 32 then .ok ⟨.identityIndex, 0, payload, h⟩
  else .error (.serialization "identity index exceeds u32 length")

/-- The frames written so far, the open chunk and the estimate of its size. -/
structure ChunkState where
  written : List Frame := []
  chunk : CompactIdentityIndex := {}
  estimatedBytes : Nat := 0
deriving DecidableEq

/-- One receipt, given as an index of its own: it goes into the open chunk, or
into a new one if the estimate would pass the limit. -/
def ChunkState.add (limit : Nat) (tooLarge : String) (s : ChunkState)
    (singleton : CompactIdentityIndex) : Except Error ChunkState := do
  let bytes := (encodedIdentityIndex singleton).length
  failIf (limit < bytes) (Error.serialization tooLarge)
  let s ←
    if 0 < s.estimatedBytes ∧ limit < s.estimatedBytes + bytes then do
      let frame ← writeIdentityIndexFrame s.chunk limit
      .ok { written := s.written ++ [frame] }
    else .ok s
  .ok { s with
    chunk := ⟨s.chunk.identified ++ singleton.identified, s.chunk.ingress ++ singleton.ingress⟩
    estimatedBytes := s.estimatedBytes + bytes }

/-- `write_identity_index_frames`: as few frames as the limit allows. -/
def writeIdentityIndexFrames (index : CompactIdentityIndex) (maxTransactionBytes : Nat) :
    Except Error (List Frame) := do
  let limit := identityIndexFrameLimit maxTransactionBytes
  let s ← index.identified.foldlM (fun s receipt =>
    ChunkState.add limit "one identified receipt exceeds the identity-index frame limit" s
      { identified := [receipt] }) ({} : ChunkState)
  let s ← index.ingress.foldlM (fun s receipt =>
    ChunkState.add limit "one ingress receipt exceeds the identity-index frame limit" s
      { ingress := [receipt] }) s
  if s.chunk = {} then .ok s.written
  else do
    let frame ← writeIdentityIndexFrame s.chunk limit
    .ok (s.written ++ [frame])

/-! ## The new log -/

/-- The frame of records outside the writer.  `encode_transaction` has counted
the records already. -/
def writeStandaloneTransaction (records : List Record) (maxTransactionBytes : Nat) :
    Except Error Frame :=
  match encodeTransaction { records := records } with
  | .error e => .error e
  | .ok payload =>
    if maxTransactionBytes < payload.length then
      .error (.invalidModel (sizeMessage payload.length maxTransactionBytes))
    else if h : payload.length < 2 ^ 32 then
      .ok (transactionFrame .anonymous records.length payload h)
    else .error (.serialization "transaction exceeds u32 length")

/-- The series in the order in which the hash map yields them: any order is
possible, and `order` is taken if it is one. -/
def seriesOrder (index : LiveIndex) (order : List UInt64) : List UInt64 :=
  if order.Perm index.keys then order else index.keys

/-- `live_points_snapshot`. -/
def livePointsSnapshot (index : LiveIndex) (order : List UInt64) : List Point :=
  (seriesOrder index order).flatMap index.seriesPoints

/-- A part of the compact log that is written unless it is empty. -/
def unlessEmpty (empty : Prop) [Decidable empty] (write : Except Error (List Frame)) :
    Except Error (List Frame) := if empty then .ok [] else write

/-- The frames behind the header of the compact log. -/
def writeCompactLog (catalog : Catalog) (identityIndex : CompactIdentityIndex) (tail : List Point)
    (limits : Limits) : Except Error (List Frame) := do
  let catalogRecords ← catalog.snapshotRecords
  let catalogFrames ← unlessEmpty (catalogRecords = [])
    ((writeStandaloneTransaction catalogRecords limits.maxTransactionBytes).map fun f => [f])
  let indexFrames ← unlessEmpty (identityIndex.identified = [] ∧ identityIndex.ingress = [])
    (writeIdentityIndexFrames identityIndex limits.maxTransactionBytes)
  failIf (limits.maxBatchPoints < tail.length)
    (Error.batchTooLarge tail.length limits.maxBatchPoints)
  let tailFrames ← unlessEmpty (tail = [])
    ((writeStandaloneTransaction [.points tail] limits.maxTransactionBytes).map fun f => [f])
  .ok (catalogFrames ++ indexFrames ++ tailFrames)

/-- What the system does to the steps of a reclaim. -/
structure ReclaimIo where
  flush : Io := {}
  /-- Creating, writing, syncing, opening or locking the new file fails. -/
  writeFails : Bool := false
  syncFails : Bool := false
  renameFails : Bool := false
  directorySyncFails : Bool := false
deriving DecidableEq

variable [Jiff]

/-- The new file, synced, and its scan. -/
def compactLog (db : Database) (order : List UInt64) : Except Error (File × Scan) := do
  let identityIndex ← db.compactIdentityIndex
  let frames ← writeCompactLog db.catalog identityIndex (livePointsSnapshot db.index order)
    db.config.limits
  match File.empty.extend (logBytes frames) with
  | none => .error .io
  | some file =>
    match scanAndRecover file.sync db.config.limits [] false with
    | (.error e, _) => .error e
    | (.ok scan, file) => .ok (file.sync, scan)

/-- The handle over the new log. -/
def adopt (db : Database) (file : File) (scan : Scan) : Database :=
  { db with
    toTables := { scan.toTables.markReceiptsDurable with pendingReclaim := false }
    file := file
    ingressDurableSequences := scan.ingressLastSequences
    recoveredTailBytes := 0
    recoveredTail := .none
    bytesSinceSync := 0 }

/-- `reclaim_live_log`.  A failure behind the scan poisons the handle; the
rename has happened if only the directory could not be synced. -/
def reclaimLiveLog (db : Database) (order : List UInt64) (io : ReclaimIo) : Outcome Unit :=
  if db.readOnly then (.error .readOnly, db)
  else if db.poisoned then (.error .poisoned, db)
  else
    match db.flush io.flush with
    | (.error e, db) => (.error e, db)
    | (.ok (), db) =>
      match db.compactLog order with
      | .error e => (.error e, db)
      | .ok (file, scan) =>
        if io.writeFails then (.error .io, db)
        else if io.syncFails ∨ io.renameFails ∨ io.directorySyncFails then
          (.error .io, { db with poisoned := true })
        else (.ok (), db.adopt file scan)

end Database

end Ftwdb
