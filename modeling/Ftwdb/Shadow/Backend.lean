import Ftwdb.Store.Maintain

/-!
# The storage behind the shadow writer

The two implementations of `WriterBackend` in `shadow_runtime.rs`: a store, with
or without storage limits, and a plain database.  What the system does during a
call comes from outside, as in the model of the store; a guarded call can also
panic, and then leaves anything at all behind.
-/

namespace Ftwdb

open Check

/-- How long the files of a store beside its log are.  The model keeps their
contents decoded, which does not tell. -/
class FileSizes where
  others : Directory → Nat

/-- A directory with nothing beside the log. -/
@[reducible] def FileSizes.logOnly : FileSizes := ⟨fun _ => 0⟩

namespace Store

variable [FileSizes]

/-- The bytes of all files of the store. -/
def diskBytes (s : Store) : Nat := s.database.file.length + FileSizes.others s.directory

/-- `stored_bytes`; listing the directory fails on an I/O error or a symbolic link. -/
def storedBytes (s : Store) (listingFails : Bool) : Except Error UInt64 :=
  if listingFails then .error .io
  else if s.diskBytes < 2 ^ 64 then .ok (UInt64.ofNat s.diskBytes)
  else .error (.serialization "stored byte count exceeds u64")

end Store

namespace Shadow

/-! ## Storage limits -/

/-- `ShadowStorageLimits`. -/
structure ShadowStorageLimits where
  maxStoreBytes : UInt64
  minimumFreeBytes : UInt64
deriving DecidableEq

/-- The part of `statvfs` that is read. -/
structure Statvfs where
  fragmentSize : UInt64
  availableBlocks : UInt64
deriving DecidableEq

/-- `ingress_frame_bytes` -/
def ingressFrameBytes (t : Transaction) : Except Error Nat :=
  (encodeCanonicalTransaction t).map fun payload =>
    frameHeaderBytes + ingressIdentityBytes + payload.length

/-- What the system does to a commit behind the limits; `none` is a `statvfs`
that fails. -/
structure WriteIo where
  listingFails : Bool := false
  space : Option Statvfs := none
  commit : Store.CommitIo := {}
deriving DecidableEq

/-- The test of the free space on the file system. -/
def freeSpace (minimumFree : UInt64) (additional : Nat) (space : Statvfs) : Except Error Unit := do
  let fragment := space.fragmentSize.toNat
  failIf (fragment = 0) Error.io
  let available := space.availableBlocks.toNat * fragment
  let allocated := (additional + fragment - 1) / fragment * fragment
  failIf (available < minimumFree.toNat + allocated)
    (Error.resourceLimit "free disk reserve reached")

/-- The tests before a write: the budget of the store, then the free space. -/
def ShadowStorageLimits.check [FileSizes] (limits : ShadowStorageLimits) (s : Store)
    (t : Transaction) (io : WriteIo) : Except Error Unit := do
  let additional ← ingressFrameBytes t
  let stored ← s.storedBytes io.listingFails
  failIf (2 ^ 64 ≤ stored.toNat + additional ∨
    limits.maxStoreBytes.toNat < stored.toNat + additional)
    (Error.resourceLimit "store byte limit reached")
  match io.space with
  | none => .error .io
  | some space => freeSpace limits.minimumFreeBytes additional space

/-! ## The two implementations -/

/-- The writer of a store with its limits. -/
structure StoreWriter where
  store : Store
  limits : Option ShadowStorageLimits

/-- What the system does to a background maintenance. -/
structure MaintenanceIo where
  maintain : Store.MaintainIo := {}
  statsFails : Bool := false
  sealing : Store.SealIo := {}

/-- The settings that the storage looks at. -/
structure ShadowRuntimeConfig where
  queueCapacity : Nat := 64
  maxQueuedPoints : Nat := 1048576
  /-- In nanoseconds. -/
  maintenanceInterval : Option Nat := none
  sealLogBytesThreshold : Option UInt64 := none
  storageLimits : Option ShadowStorageLimits := none
deriving DecidableEq

/-- The numbers of a health report that come from the storage. -/
structure StoreOpsSnapshot where
  bytes : UInt64 := 0
  points : UInt64 := 0
  commits : UInt64 := 0
  recoveredTailBytes : Nat := 0
  durability : Durability := .always
  lastAckDurable : Bool := false
deriving DecidableEq

namespace StoreWriter

variable [Jiff]

/-- A known sequence number is not checked, since it writes nothing. -/
def commitIngress [FileSizes] (w : StoreWriter) (identity : IngressIdentity) (t : Transaction)
    (io : WriteIo) : Except Error Commit × StoreWriter :=
  let checked : Except Error Unit :=
    match w.store.database.ingressReceipts[identity.key]?, w.limits with
    | none, some limits => limits.check w.store t io
    | _, _ => .ok ()
  match checked with
  | .error e => (.error e, w)
  | .ok () =>
    let (result, store) := w.store.commitIngress identity t io.commit
    (result, { w with store := store })

/-- A flush of the store. -/
def flush (w : StoreWriter) (io : Io) : Except Error Unit × StoreWriter :=
  let (result, store) := w.store.flush io
  (result, { w with store := store })

/-- `background_maintenance`: maintain, then seal if the log is large. -/
def backgroundMaintenance (w : StoreWriter) (nowMicros : Int64) (config : ShadowRuntimeConfig)
    (io : MaintenanceIo) : Except Error Unit × StoreWriter :=
  match w.store.maintain nowMicros io.maintain with
  | (.error e, store) => (.error e, { w with store := store })
  | (.ok _, store) =>
    match config.sealLogBytesThreshold with
    | none => (.ok (), { w with store := store })
    | some threshold =>
      if io.statsFails then (.error .io, { w with store := store })
      else if threshold.toNat < store.database.file.length then
        let (result, store) := store.sealAndReclaim io.sealing
        (result.map fun _ => (), { w with store := store })
      else (.ok (), { w with store := store })

end StoreWriter

/-- `Box<dyn WriterBackend>` -/
inductive Backend where
  | store (writer : StoreWriter)
  | database (db : Database)

/-- What the system does to the reading of a snapshot. -/
structure SnapshotIo where
  statsFails : Bool := false
  listingFails : Bool := false
deriving DecidableEq

namespace Backend

/-- The database behind a writer. -/
def handle : Backend → Database
  | .store w => w.store.database
  | .database db => db

/-- `ingress_watermarks`. -/
def ingressWatermarks (b : Backend) (sourceId : U128) : Database.IngressWatermarks :=
  b.handle.ingressWatermarks sourceId

/-- `all_ingress_watermarks`. -/
def allIngressWatermarks (b : Backend) : Std.ExtTreeMap U128 Database.IngressWatermarks :=
  b.handle.ingressLastSequences.map fun sourceId _ => b.ingressWatermarks sourceId

/-- `store_snapshot`. -/
def storeSnapshot [FileSizes] (b : Backend) (io : SnapshotIo) : Except Error StoreOpsSnapshot := do
  failIf (io.statsFails = true) Error.io
  let bytes ← match b with
    | .store w => w.store.storedBytes io.listingFails
    | .database db => .ok (UInt64.ofNat db.file.length)
  .ok {
    bytes := bytes
    points := b.handle.statPoints
    commits := b.handle.statCommits
    recoveredTailBytes := b.handle.recoveredTailBytes
    durability := b.handle.config.durability }

/-- `commit_ingress` of either writer. -/
def commitIngress [Jiff] [FileSizes] (b : Backend) (identity : IngressIdentity) (t : Transaction)
    (io : WriteIo) : Except Error Commit × Backend :=
  match b with
  | .store w =>
    let (result, w) := w.commitIngress identity t io
    (result, .store w)
  | .database db =>
    let (result, db) := db.commitIngress identity t io.commit.frame
    (result, .database db)

/-- `flush` of either writer. -/
def flush (b : Backend) (io : Io) : Except Error Unit × Backend :=
  match b with
  | .store w =>
    let (result, w) := w.flush io
    (result, .store w)
  | .database db =>
    let (result, db) := db.flush io
    (result, .database db)

/-- A database has no background work. -/
def backgroundMaintenance [Jiff] (b : Backend) (nowMicros : Int64) (config : ShadowRuntimeConfig)
    (io : MaintenanceIo) : Except Error Unit × Backend :=
  match b with
  | .store w =>
    let (result, w) := w.backgroundMaintenance nowMicros config io
    (result, .store w)
  | .database db => (.ok (), .database db)

/-- `close`: a last flush, and the watermarks behind it. -/
def close (b : Backend) (io : Io) :
    Except Error (Std.ExtTreeMap U128 Database.IngressWatermarks) :=
  (b.flush io).1.map fun _ => (b.flush io).2.allIngressWatermarks

end Backend

end Shadow

end Ftwdb
