import Ftwdb.Storage.Scan
import Ftwdb.Storage.Segment

/-!
# The database handle

The log file, the configuration, opening, and the writers `append`, `commit`,
`commit_ingress`, `flush` and `write_seal_checkpoint` of `storage.rs`.

A file carries the length that a successful sync has made durable.  Writes and
syncs take the outcome the operating system gives them, so that every failure
the code handles is a run of the model.  A commit first decides, from the
handle alone, whether the transaction is answered, refused or written
(`Database.decide`), and then acts on the decision.
-/

namespace Ftwdb

open ByteCodec Check

/-! ## Files -/

/-- A file, and how much of it is known to survive a crash.  No file reaches
`2 ^ 63` bytes: a write beyond that is refused by the system. -/
structure File where
  bytes : Bytes
  synced : Nat
  small : bytes.length < 2 ^ 63
  synced_le : synced ≤ bytes.length
deriving DecidableEq

namespace File

/-- A new file. -/
def empty : File := ⟨[], 0, by decide, by decide⟩

/-- The length of the file. -/
def length (f : File) : Nat := f.bytes.length

/-- The file with more bytes at its end, if they fit. -/
def extend (f : File) (data : Bytes) : Option File :=
  if h : (f.bytes ++ data).length < 2 ^ 63 then
    some ⟨f.bytes ++ data, f.synced, h, by rw [List.length_append]; have := f.synced_le; omega⟩
  else none

/-- `write_all` at the end of the file.  `some n` is a failure behind `n` bytes. -/
def write (f : File) (data : Bytes) (failsAfter : Option Nat) : File × Bool :=
  match failsAfter with
  | none =>
    match f.extend data with
    | some f => (f, true)
    | none => (f, false)
  | some n => ((f.extend (data.take n)).getD f, false)

/-- `sync_data`: all bytes are durable. -/
def sync (f : File) : File := { f with synced := f.bytes.length, synced_le := Nat.le_refl _ }

/-- `set_len` to a smaller length. -/
def truncate (f : File) (n : Nat) : File :=
  ⟨f.bytes.take n, min f.synced (f.bytes.take n).length,
    Nat.lt_of_le_of_lt (List.length_take_le' ..) f.small, Nat.min_le_right ..⟩

/-- What a crash leaves of the file: at least its synced part.  What else it
leaves is still not synced. -/
def crash (f : File) (keep : Nat) : File := f.truncate (max keep f.synced)

/-- `read_exact` at an offset. -/
def readExactAt (f : File) (offset n : Nat) : Except Error Bytes :=
  if offset + n ≤ f.bytes.length then .ok (slice f.bytes offset (offset + n)) else .error .io

end File

/-- What the operating system does to the write and the sync of one call. -/
structure Io where
  /-- The write fails behind this many bytes. -/
  writeFails : Option Nat := none
  syncFails : Bool := false
deriving DecidableEq

/-! ## Configuration -/

/-- `Durability`: when a commit is synced. -/
inductive Durability where
  | always
  | everyBytes (threshold : UInt64)
  | manual
deriving DecidableEq

/-- `Config` with its defaults. -/
structure Config where
  durability : Durability := .always
  maxBatchPoints : Nat := 262144
  maxTransactionBytes : Nat := 64 * 1024 * 1024
deriving DecidableEq

namespace Config

/-- What a scan needs of the configuration. -/
def limits (c : Config) : Limits := ⟨c.maxBatchPoints, c.maxTransactionBytes⟩

/-- `Config::validate`. -/
def validate (c : Config) : Except Error Unit := do
  failIf (c.maxBatchPoints = 0) (Error.invalidConfig "max_batch_points must be positive")
  failIf (2 ^ 32 - 1 < c.maxBatchPoints)
    (Error.invalidConfig "max_batch_points exceeds the on-disk u32 count")
  failIf (c.maxTransactionBytes < transactionHeaderBytes + recordHeaderBytes)
    (Error.invalidConfig "max_transaction_bytes is too small for one record")
  failIf (2 ^ 32 - 1 < c.maxTransactionBytes)
    (Error.invalidConfig "max_transaction_bytes exceeds the on-disk u32 length")
  failIf (c.durability = .everyBytes 0)
    (Error.invalidConfig "EveryBytes durability threshold must be positive")

/-- Whether a write is followed by a sync, given the bytes written since the last one. -/
def shouldSync (c : Config) (bytesSinceSync : Nat) : Bool :=
  match c.durability with
  | .always => true
  | .everyBytes threshold => decide (threshold.toNat ≤ bytesSinceSync)
  | .manual => false

end Config

/-! ## The handle -/

/-- `Database`: the tables, the file and the state of the handle. -/
structure Database extends Tables where
  file : File
  config : Config
  readOnly : Bool
  /-- Published segments in the order they were sealed. -/
  sealed : List Segment
  sealedPoints : Nat
  ingressDurableSequences : Std.ExtTreeMap U128 UInt64
  recoveredTailBytes : Nat
  recoveredTail : RecoveredTail
  bytesSinceSync : Nat
  poisoned : Bool
deriving DecidableEq

/-- A call that changes the handle: its result and the handle behind it. -/
abbrev Outcome (α : Type) := Except Error α × Database

/-- What the system does to the steps of an open. -/
structure OpenIo where
  headerFails : Option Nat := none
  headerSyncFails : Bool := false
  truncateSyncFails : Bool := false
  syncFails : Bool := false
deriving DecidableEq

/-- The errors behind which the stored bytes can no longer be trusted. -/
def Error.isFatal : Error → Bool
  | .io | .corruption _ _ => true
  | _ => false

namespace Tables

/-- A writable open has synced the recovered part of the log. -/
def markReceiptsDurable (t : Tables) : Tables :=
  { t with ingressReceipts := t.ingressReceipts.map fun _ r =>
      { r with commit := { r.commit with durable := true } } }

end Tables

namespace Database

/-- An empty file gets its header; the parent directory is synced with it. -/
def writeDatabaseHeader (file : File) (io : OpenIo) : Except Error Unit × File :=
  if file.bytes = [] then
    match file.write databaseHeader io.headerFails with
    | (file, false) => (.error .io, file)
    | (file, true) => if io.headerSyncFails then (.error .io, file) else (.ok (), file.sync)
  else (.ok (), file)

variable [Jiff]

/-- The scan of a writable open: a torn tail is cut off and the cut is synced. -/
def scanAndRecover (file : File) (limits : Limits) (published : List UInt64)
    (truncateSyncFails : Bool) : Except Error Scan × File :=
  match scanLog limits (.recover false) published file.bytes with
  | .error e => (.error e, file)
  | .ok scan =>
    if scan.recoveredTail = .none then (.ok scan, file)
    else
      let file := file.truncate scan.validatedBytes
      if truncateSyncFails then (.error .io, file) else (.ok scan, file.sync)

/-- The handle over a scanned log. -/
def ofScan (config : Config) (readOnly : Bool) (file : File) (scan : Scan)
    (tables : Tables) (durable : Std.ExtTreeMap U128 UInt64) : Database :=
  { tables with
    file := file
    config := config
    readOnly := readOnly
    sealed := []
    sealedPoints := 0
    ingressDurableSequences := durable
    recoveredTailBytes := scan.recoveredTailBytes
    recoveredTail := scan.recoveredTail
    bytesSinceSync := 0
    poisoned := false }

/-- The part of a writable open behind the checks of the configuration.  The
recovered part of the log is synced before any receipt is called durable. -/
def openExclusive (config : Config) (published : List UInt64) (file : File) (io : OpenIo) :
    Except Error Database × File :=
  match writeDatabaseHeader file io with
  | (.error e, file) => (.error e, file)
  | (.ok (), file) =>
    match scanAndRecover file config.limits published io.truncateSyncFails with
    | (.error e, file) => (.error e, file)
    | (.ok scan, file) =>
      if io.syncFails then (.error .io, file)
      else
        (.ok (ofScan config false file.sync scan scan.toTables.markReceiptsDurable
          scan.ingressLastSequences), file.sync)

/-- The same part of a read-only open, which only simulates the recovery. -/
def openShared (config : Config) (published : List UInt64) (file : File) : Except Error Database :=
  if file.bytes.length < databaseHeaderBytes then .error .invalidHeader
  else (scanLog config.limits (.recover true) published file.bytes).map fun scan =>
    ofScan config true file scan scan.toTables ∅

/-- `open_mode`: the handle or the error, and the file it leaves behind. -/
def openMode (config : Config) (readOnly : Bool) (published : List UInt64) (file : File)
    (io : OpenIo) : Except Error Database × File :=
  match config.validate with
  | .error e => (.error e, file)
  | .ok () =>
    if readOnly then (openShared config published file, file)
    else openExclusive config published file io

/-! ## Writing frames -/

/-- `write_frame`: any failure poisons the writer, and a sync makes every
accepted cursor durable. -/
def writeFrame (db : Database) (frame : Frame) (io : Io) : Outcome Bool :=
  match db.file.write frame.encode io.writeFails with
  | (file, false) => (.error .io, { db with file := file, poisoned := true })
  | (file, true) =>
    let unsynced := db.bytesSinceSync + frame.encode.length
    if db.config.shouldSync unsynced then
      if io.syncFails then
        (.error .io, { db with file := file, bytesSinceSync := unsynced, poisoned := true })
      else
        (.ok true, { db with
          file := file.sync
          bytesSinceSync := 0
          ingressDurableSequences := db.ingressLastSequences })
    else (.ok false, { db with file := file, bytesSinceSync := unsynced })

/-- `flush`: a failed sync poisons the handle. -/
def flush (db : Database) (io : Io) : Outcome Unit :=
  if db.readOnly then (.error .readOnly, db)
  else if db.poisoned then (.error .poisoned, db)
  else if io.syncFails then (.error .io, { db with poisoned := true })
  else (.ok (), { db with
    file := db.file.sync
    bytesSinceSync := 0
    ingressDurableSequences := db.ingressLastSequences })

/-- The answer to a call that writes nothing. -/
def nothingWritten (db : Database) (deduplicated : Bool) : Commit where
  frameOffset := db.file.length
  points := 0
  records := 0
  bytesWritten := 0
  durable := decide (db.bytesSinceSync = 0)
  deduplicated := deduplicated

/-! ## Appending points -/

/-- The frame of a batch of points; `none` if a length does not fit 32 bits. -/
def pointFrame (points : List Point) : Option Frame :=
  if h : (points.flatMap encodePoint).length < 2 ^ 32 then
    some ⟨.legacyPoints, UInt32.ofNat points.length, points.flatMap encodePoint, h⟩
  else none

/-- The index and the counters behind an accepted batch of points. -/
def insertPoints (t : Tables) (points : List Point) : Tables :=
  { t with
    index := points.foldl LiveIndex.insertIndexedPoint t.index
    points := t.points + points.length
    commits := t.commits + 1 }

/-- What a writer does with a request before it touches the file. -/
inductive Decision where
  | answer (commit : Commit)
  | refuse (error : Error) (poison : Bool)
  | write (frame : Frame) (catalog : Option Catalog)
deriving DecidableEq

/-- What `append` does with the points, before any byte is written. -/
def decideAppend (db : Database) (points : List Point) : Decision :=
  if db.readOnly then .refuse .readOnly false
  else if db.poisoned then .refuse .poisoned false
  else if db.config.maxBatchPoints < points.length then
    .refuse (.batchTooLarge points.length db.config.maxBatchPoints) false
  else
    match validatePointIntervals points with
    | .error e => .refuse e false
    | .ok () =>
      if points = [] then .answer (db.nothingWritten false)
      else
        match pointFrame points with
        | none => .refuse (.batchTooLarge points.length db.config.maxBatchPoints) false
        | some frame => .write frame none

/-- `append`. -/
def append (db : Database) (points : List Point) (io : Io) : Outcome Commit :=
  match db.decideAppend points with
  | .answer commit => (.ok commit, db)
  | .refuse e poison => (.error e, { db with poisoned := db.poisoned || poison })
  | .write frame _ =>
    match db.writeFrame frame io with
    | (.error e, db) => (.error e, db)
    | (.ok durable, db') =>
      (.ok
        { frameOffset := db.file.length
          points := points.length
          records := 1
          bytesWritten := frame.encode.length
          durable := durable
          deduplicated := false },
        { db' with toTables := insertPoints db'.toTables points })

/-! ## Comparing a retry with the stored transaction -/

/-- The chunks of a stored payload against a candidate, in pieces of 8 KiB; the
fuel is the length of the candidate. -/
def compareChunks (file : File) (frameOffset : Nat) : Nat → Nat → Bytes → Except Error Bool
  | 0, _, _ => .ok true
  | _ + 1, _, [] => .ok true
  | fuel + 1, offset, candidate => do
      let chunk := candidate.take 8192
      let stored ← file.readExactAt offset chunk.length
      failIf (stored ≠ chunk)
        (Error.corruption frameOffset "stored identified payload changed after open")
      compareChunks file frameOffset fuel (offset + chunk.length) (candidate.drop 8192)

/-- `identified_payload_matches_at`: length and checksum first, then the bytes. -/
def identifiedPayloadMatchesAt (file : File) (receipt : StoredIdentifiedReceipt)
    (candidate : Bytes) : Except Error Bool :=
  if candidate.length ≠ receipt.payloadLen.toNat ∨ Crc32.hash candidate ≠ receipt.payloadCrc32 then
    .ok false
  else if receipt.payloadOffset = 0 then .ok (decide (receipt.compactPayload = some candidate))
  else do
    failIf (receipt.payloadOffset ≠ receipt.commit.frameOffset + frameHeaderBytes)
      (Error.corruption receipt.commit.frameOffset "stored identified receipt offset is invalid")
    failIf (2 ^ 32 ≤ receipt.commit.records)
      (Error.serialization "identified replay record count overflows")
    let storedHeader ← file.readExactAt receipt.commit.frameOffset frameHeaderBytes
    failIf (storedHeader ≠ encodeFrameHeader .identifiedTransaction
        (UInt32.ofNat receipt.commit.records) receipt.payloadLen receipt.payloadCrc32)
      (Error.corruption receipt.commit.frameOffset
        "stored identified frame header changed after open")
    compareChunks file receipt.commit.frameOffset candidate.length receipt.payloadOffset candidate

/-- The identity in front of an ordered transaction. -/
def identityBytes (identity : IngressIdentity) : Bytes :=
  leU128 identity.sourceId ++ (leU64 identity.sequence ++ leU128 identity.commitId)

/-- `ingress_payload_matches_at`, over the canonical payload. -/
def ingressPayloadMatchesAt (file : File) (receipt : StoredIngressReceipt) (candidate : Bytes) :
    Except Error Bool :=
  if candidate.length ≠ receipt.canonicalPayloadLen.toNat ∨
      Crc32.hash candidate ≠ receipt.canonicalPayloadCrc32 then .ok false
  else if receipt.canonicalPayloadOffset = 0 then
    .ok (decide (receipt.compactPayload = some candidate))
  else do
    failIf (receipt.canonicalPayloadOffset ≠
        receipt.commit.frameOffset + (frameHeaderBytes + ingressIdentityBytes))
      (Error.corruption receipt.commit.frameOffset "stored ingress receipt offset is invalid")
    failIf (2 ^ 32 ≤ ingressIdentityBytes + candidate.length)
      (Error.serialization "ingress replay length overflows")
    failIf (2 ^ 32 ≤ receipt.commit.records)
      (Error.serialization "ingress replay record count overflows")
    let storedHeader ← file.readExactAt receipt.commit.frameOffset frameHeaderBytes
    failIf (storedHeader ≠ encodeFrameHeader .ingressTransaction
        (UInt32.ofNat receipt.commit.records)
        (UInt32.ofNat (ingressIdentityBytes + candidate.length))
        (Crc32.hash (identityBytes receipt.identity ++ candidate)))
      (Error.corruption receipt.commit.frameOffset "stored ingress frame header changed after open")
    let storedIdentity ← file.readExactAt (receipt.commit.frameOffset + frameHeaderBytes)
      ingressIdentityBytes
    failIf (storedIdentity ≠ identityBytes receipt.identity)
      (Error.corruption receipt.commit.frameOffset "stored ingress identity changed after open")
    let stored ← file.readExactAt receipt.canonicalPayloadOffset candidate.length
    failIf (Crc32.hash stored ≠ receipt.canonicalPayloadCrc32)
      (Error.corruption receipt.commit.frameOffset
        "stored ingress transaction checksum changed after open")
    .ok (decide (stored = candidate))

/-! ## Committing transactions -/

/-- The identity a transaction is framed with. -/
def transactionIdentity (t : Transaction) : Tables.FrameIdentity :=
  match t.ingressIdentity, t.commitId with
  | some identity, _ => .ingress identity
  | none, some commitId => .identified commitId
  | none, none => .anonymous

/-- The frame of a transaction around its encoded payload. -/
def transactionFrame (identity : Tables.FrameIdentity) (recordCount : Nat) (payload : Bytes)
    (h : payload.length < 2 ^ 32) : Frame where
  kind :=
    match identity with
    | .anonymous => .transaction
    | .identified _ => .identifiedTransaction
    | .ingress _ => .ingressTransaction
  items := UInt32.ofNat recordCount
  payload := payload
  small := h

/-- A transaction whose commit identifier is known already. -/
def decideReplay (db : Database) (t : Transaction) (commitId : U128) : Decision :=
  match encodeTransaction t with
  | .error e => .refuse e false
  | .ok payload =>
    match db.identifiedReceipts[commitId]? with
    | none => .refuse (.ingressCommitIdConflict commitId) false
    | some receipt =>
      match identifiedPayloadMatchesAt db.file receipt payload with
      | .error e => .refuse e e.isFatal
      | .ok false => .refuse (.ingressCommitIdConflict commitId) false
      | .ok true => .answer (db.nothingWritten true)

/-- The text of a transaction over the byte limit. -/
def sizeMessage (size maximum : Nat) : String :=
  s!"transaction has {size} encoded bytes; maximum is {maximum}"

/-- A transaction that has to be written, without an ordered identity. -/
def decideNew (db : Database) (t : Transaction) : Decision :=
  if t.isEmpty then .answer (db.nothingWritten false)
  else if db.config.maxBatchPoints < t.pointCount then
    .refuse (.batchTooLarge t.pointCount db.config.maxBatchPoints) false
  else
    match db.catalog.applyRecords t.records with
    | .error e => .refuse e false
    | .ok catalog =>
      match encodeTransaction t with
      | .error e => .refuse e false
      | .ok payload =>
        if db.config.maxTransactionBytes < payload.length then
          .refuse (.invalidModel
            (sizeMessage payload.length db.config.maxTransactionBytes)) false
        else if h : payload.length < 2 ^ 32 then
          .write (transactionFrame (transactionIdentity t) t.recordCount payload h) catalog
        else .refuse (.serialization "transaction exceeds u32 length") false

/-- An ordered transaction whose key is known already. -/
def decideIngressReplay (db : Database) (identity : IngressIdentity)
    (receipt : StoredIngressReceipt) (canonical : Bytes) : Decision :=
  let conflict := Error.ingressSourceSequenceConflict identity.sourceId identity.sequence
  if receipt.identity.commitId ≠ identity.commitId then .refuse conflict false
  else
    match ingressPayloadMatchesAt db.file receipt canonical with
    | .error e => .refuse e e.isFatal
    | .ok false => .refuse conflict false
    | .ok true => .answer
        { receipt.commit with
          deduplicated := true
          durable := db.ingressDurableSequences[identity.sourceId]?.any (identity.sequence ≤ ·) }

/-- An ordered transaction with a new key. -/
def decideIngressNew (db : Database) (identity : IngressIdentity) (t : Transaction)
    (canonical : Bytes) : Decision :=
  if identity.commitId ∈ db.commitIds then
    .refuse (.ingressCommitIdConflict identity.commitId) false
  else
    match db.ingressLastSequences[identity.sourceId]? with
    | some last =>
      if identity.sequence ≤ last then
        .refuse (.ingressSequenceNotIncreasing identity.sourceId last identity.sequence) false
      else writeIngress
    | none => writeIngress
where
  writeIngress : Decision :=
    let payload := identityBytes identity ++ canonical
    if db.config.maxBatchPoints < t.pointCount then
      .refuse (.batchTooLarge t.pointCount db.config.maxBatchPoints) false
    else if db.config.maxTransactionBytes < payload.length then
      .refuse (.invalidModel (sizeMessage payload.length db.config.maxTransactionBytes)) false
    else
      match db.catalog.applyRecords t.records with
      | .error e => .refuse e false
      | .ok catalog =>
        if h : payload.length < 2 ^ 32 then
          .write (transactionFrame (.ingress identity) t.recordCount payload h) catalog
        else .refuse (.serialization "transaction exceeds u32 length") false

/-- `commit_ordered_ingress` up to the write. -/
def decideIngress (db : Database) (identity : IngressIdentity) (t : Transaction) : Decision :=
  if identity.sourceId = 0 then
    .refuse (.invalidArgument "ingress source id zero is reserved") false
  else
    match encodeCanonicalTransaction t with
    | .error e => .refuse e false
    | .ok canonical =>
      match db.ingressReceipts[identity.key]? with
      | some receipt => db.decideIngressReplay identity receipt canonical
      | none => db.decideIngressNew identity t canonical

/-- `commit` up to the write. -/
def decide (db : Database) (t : Transaction) : Decision :=
  if db.readOnly then .refuse .readOnly false
  else if db.poisoned then .refuse .poisoned false
  else
    match t.ingressIdentity, t.commitId with
    | some identity, _ => db.decideIngress identity t
    | none, some commitId =>
      if commitId ∈ db.ingressCommitIds then .refuse (.ingressCommitIdConflict commitId) false
      else if commitId ∈ db.commitIds then db.decideReplay t commitId
      else db.decideNew t
    | none, none => db.decideNew t

/-- The tables behind a written transaction. -/
def acceptTransaction (t : Tables) (transaction : Transaction) (payload : Bytes)
    (catalog : Option Catalog) (offset : Nat) (commit : Commit) : Tables :=
  let t := insertPoints t transaction.pointList
  let t := { t with
    catalog := catalog.getD t.catalog
    catalogRecords := t.catalogRecords + Tables.metadataRecords transaction.records }
  t.addFrameReceipt (transactionIdentity transaction) payload offset commit

/-- A written cursor of a synced frame is durable. -/
def durableCursors (durable : Std.ExtTreeMap U128 UInt64) (identity : Tables.FrameIdentity)
    (synced : Bool) : Std.ExtTreeMap U128 UInt64 :=
  match identity, synced with
  | .ingress identity, true => durable.insert identity.sourceId identity.sequence
  | _, _ => durable

/-- `commit`: decide, write the frame, take the transaction into the tables. -/
def commit (db : Database) (t : Transaction) (io : Io) : Outcome Commit :=
  match db.decide t with
  | .answer commit => (.ok commit, db)
  | .refuse e poison => (.error e, { db with poisoned := db.poisoned || poison })
  | .write frame catalog =>
    match db.writeFrame frame io with
    | (.error e, db) => (.error e, db)
    | (.ok durable, db') =>
      let commit : Commit :=
        { frameOffset := db.file.length
          points := t.pointCount
          records := t.recordCount
          bytesWritten := frame.encode.length
          durable := durable
          deduplicated := false }
      (.ok commit, { db' with
        toTables :=
          acceptTransaction db'.toTables t frame.payload catalog db.file.length commit
        ingressDurableSequences :=
          durableCursors db'.ingressDurableSequences (transactionIdentity t) durable })

/-- `commit_ingress`. -/
def commitIngress (db : Database) (identity : IngressIdentity) (t : Transaction) (io : Io) :
    Outcome Commit := db.commit (t.withIngressIdentity identity) io

/-! ## Watermarks and receipts -/

/-- `IngressWatermarks`. -/
structure IngressWatermarks where
  acceptedThrough : Option UInt64
  durableThrough : Option UInt64
deriving DecidableEq

/-- `ingress_watermarks` of a source. -/
def ingressWatermarks (db : Database) (sourceId : U128) : IngressWatermarks :=
  ⟨db.ingressLastSequences[sourceId]?, db.ingressDurableSequences[sourceId]?⟩

/-! ## Sealing -/

/-- The frame of a seal checkpoint. -/
def checkpointFrame (generation points : UInt64) : Frame where
  kind := .sealCheckpoint
  items := 0
  payload := leU64 generation ++ leU64 points
  small := by simp

/-- The checkpoint frame and a flush behind it. -/
def writeSealCheckpoint (db : Database) (generation points : UInt64) (io : Io)
    (flushIo : Io) : Outcome Unit :=
  if db.readOnly then (.error .readOnly, db)
  else if db.poisoned then (.error .poisoned, db)
  else
    match db.writeFrame (checkpointFrame generation points) io with
    | (.error e, db) => (.error e, db)
    | (.ok _, db) =>
      match db.flush flushIo with
      | (.error e, db) => (.error e, db)
      | (.ok (), db) => (.ok (), { db with commits := db.commits + 1 })

/-- `attach_sealed_segments`. -/
def attachSealedSegments (db : Database) (segments : List Segment) : Database :=
  { db with
    sealed := segments
    sealedPoints := (segments.map Segment.pointCount).sum }

/-- `clear_live_index`. -/
def clearLiveIndex (db : Database) : Database := { db with index := ∅, points := 0 }

end Database

end Ftwdb
