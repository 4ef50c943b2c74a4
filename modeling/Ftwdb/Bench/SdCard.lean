import Ftwdb.Lib.Check
import Ftwdb.Lib.Overlay
import Ftwdb.Model.Catalog

/-!
# The SD-card emulator

`bench/sd-card-emulator` stands between a workload and a backing file.  It holds
writes back in a cache, loses some of them at a power loss and injects faults,
all by rolls of one random source.

An operation is a computation on a card that may fail, and the card keeps what a
failed operation did to it.  The backing file is an image, zero past its end.
Its own calls are taken to succeed, and what only measures (the statistics
nothing reads, the latencies and the pacing) is left out.  The waits still draw
from the random source.

The random source is any type with a `next`, so what holds here holds for every
outcome of the rolls.  `XorShift64` is the emulator's own.
-/

namespace Ftwdb.SdEmulator

open Check

/-! ## The profile -/

/-- Probabilities are in parts per million. -/
def probabilityScale : Nat := 1000000

/-- `DeviceProfile`. -/
structure DeviceProfile where
  sizeBytes : UInt64
  logicalBlockBytes : Nat
  eraseBlockBytes : Nat

/-- The fields of `IoProfile` that a roll or a check reads. -/
structure IoProfile where
  jitterLatencyUs : Nat
  spikeProbabilityPpm : Nat
  spikeLatencyUsMin : Nat
  spikeLatencyUsMax : Nat

/-- `CacheProfile`. -/
structure CacheProfile where
  enabled : Bool
  maxBytes : Nat
  falseFlushProbabilityPpm : Nat
  powerLossPersistProbabilityPpm : Nat
  powerLossTornProbabilityPpm : Nat
  powerLossReorderProbabilityPpm : Nat

/-- `WearProfile`. -/
structure WearProfile where
  enabled : Bool
  acceleratedFactor : Nat
  warningCycles : Nat
  failureCycles : Nat
  wornEioProbabilityPpm : Nat
  readOnlyAfterBadBlocks : Nat

/-- `FaultProfile`. -/
structure FaultProfile where
  eioProbabilityPpm : Nat
  tornWriteProbabilityPpm : Nat
  silentCorruptionProbabilityPpm : Nat
  powerLossAfterOps : Option Nat
  readOnlyAfterOps : Option Nat
  disappearAfterOps : Option Nat

/-- `Profile`. -/
structure Profile where
  schemaVersion : Nat
  name : String
  device : DeviceProfile
  read : IoProfile
  write : IoProfile
  cache : CacheProfile
  wear : WearProfile
  faults : FaultProfile

/-- `validate_probability`. -/
def validateProbability (name : String) (value : Nat) : Except String Unit :=
  failIf (probabilityScale < value) (name ++ " exceeds 1000000 ppm")

/-- `validate_io`. -/
def validateIo (name : String) (profile : IoProfile) : Except String Unit := do
  validateProbability (name ++ ".spike_probability_ppm") profile.spikeProbabilityPpm
  failIf (profile.spikeLatencyUsMax < profile.spikeLatencyUsMin)
    (name ++ " spike minimum exceeds maximum")

/-- The probabilities `validate` checks after those of the two directions, with their names. -/
def Profile.probabilities (profile : Profile) : List (String × Nat) :=
  [("cache.false_flush_probability_ppm", profile.cache.falseFlushProbabilityPpm),
    ("cache.power_loss_persist_probability_ppm", profile.cache.powerLossPersistProbabilityPpm),
    ("cache.power_loss_torn_probability_ppm", profile.cache.powerLossTornProbabilityPpm),
    ("cache.power_loss_reorder_probability_ppm", profile.cache.powerLossReorderProbabilityPpm),
    ("wear.worn_eio_probability_ppm", profile.wear.wornEioProbabilityPpm),
    ("faults.eio_probability_ppm", profile.faults.eioProbabilityPpm),
    ("faults.torn_write_probability_ppm", profile.faults.tornWriteProbabilityPpm),
    ("faults.silent_corruption_probability_ppm", profile.faults.silentCorruptionProbabilityPpm)]

/-- `Profile::validate`. -/
def Profile.validate (profile : Profile) : Except String Unit := do
  failIf (profile.schemaVersion ≠ 1)
    ("schema_version must be 1, got " ++ toString profile.schemaVersion)
  failIf (isBlank profile.name) "profile name is empty"
  failIf (profile.device.sizeBytes = 0) "device size must be positive"
  failIf (profile.device.logicalBlockBytes < 512 ∨
      2 ^ profile.device.logicalBlockBytes.log2 ≠ profile.device.logicalBlockBytes)
    "logical block size must be a power of two of at least 512 bytes"
  failIf (profile.device.eraseBlockBytes < profile.device.logicalBlockBytes ∨
      profile.device.eraseBlockBytes % profile.device.logicalBlockBytes ≠ 0)
    "erase block size must be a multiple of the logical block size"
  failIf (profile.device.sizeBytes.toNat % profile.device.logicalBlockBytes ≠ 0)
    "device size must be a multiple of the logical block size"
  failIf (profile.device.sizeBytes.toNat < profile.cache.maxBytes)
    "cache cannot be larger than the device"
  validateIo "read" profile.read
  validateIo "write" profile.write
  each (fun p => validateProbability p.1 p.2) profile.probabilities
  failIf (probabilityScale < profile.cache.powerLossPersistProbabilityPpm
      + profile.cache.powerLossTornProbabilityPpm)
    "power-loss persist and torn probabilities exceed 1,000,000 ppm"
  failIf (profile.wear.enabled ∧ profile.wear.acceleratedFactor = 0)
    "wear accelerated_factor must be positive"
  failIf (profile.wear.enabled ∧ profile.wear.failureCycles ≤ profile.wear.warningCycles)
    "wear warning_cycles must be below failure_cycles"

/-! ## The random source -/

/-- A source of random words. -/
class Rng (σ : Type) where
  next : σ → UInt64 × σ

/-- The generator of the emulator. -/
structure XorShift64 where
  state : UInt64
deriving DecidableEq

/-- `new`; the state is never zero. -/
def XorShift64.new (seed : UInt64) : XorShift64 := ⟨max seed 1⟩

/-- `next`. -/
def XorShift64.next (rng : XorShift64) : UInt64 × XorShift64 :=
  let value := rng.state
  let value := value ^^^ (value <<< 13)
  let value := value ^^^ (value >>> 7)
  let value := value ^^^ (value <<< 17)
  (value, ⟨value⟩)

instance : Rng XorShift64 := ⟨XorShift64.next⟩

variable {σ : Type} [Rng σ]

/-- No draw is made below zero. -/
def below (upper : Nat) (rng : σ) : Nat × σ :=
  if upper = 0 then (0, rng) else ((Rng.next rng).1.toNat % upper, (Rng.next rng).2)

/-- No draw is made for a probability of zero. -/
def chance (probabilityPpm : Nat) (rng : σ) : Bool × σ :=
  if probabilityPpm = 0 then (false, rng)
  else
    let (roll, rng) := below probabilityScale rng
    (decide (roll < probabilityPpm), rng)

/-- A proper part of the write, and not the empty one if there is another. -/
def tornLength (length : Nat) (rng : σ) : Nat × σ :=
  if length ≤ 1 then (0, rng)
  else
    let (roll, rng) := below (length - 1) rng
    (1 + roll, rng)

/-- `slice::swap`. -/
def swap {α : Type} (values : List α) (i j : Nat) : List α :=
  match values[i]?, values[j]? with
  | some a, some b => (values.set i b).set j a
  | _, _ => values

/-- `shuffle`, from the last position down. -/
def shuffle {α : Type} (values : List α) (rng : σ) : List α × σ :=
  ((List.range' 1 (values.length - 1)).reverse).foldl
    (fun (values, rng) index =>
      let (other, rng) := below (index + 1) rng
      (swap values index other, rng))
    (values, rng)

/-! ## The card -/

/-- `DeviceStatus`. -/
inductive DeviceStatus where
  | online
  | readOnly
  | offline
deriving DecidableEq

/-- `ErrorCode`. -/
inductive ErrorCode where
  | io
  | invalid
  | noSpace
  | readOnly
  | disconnected
deriving DecidableEq

/-- `DeviceError`. -/
structure DeviceError where
  code : ErrorCode
  message : String
deriving DecidableEq

/-- The bytes of the backing file, zero past its end. -/
abbrev Image := Nat → UInt8

/-- `PendingWrite`: a write in the cache. -/
structure PendingWrite where
  offset : Nat
  data : List UInt8
deriving DecidableEq

/-- What the write puts at each position. -/
def PendingWrite.patch (write : PendingWrite) : Nat → Option UInt8 := fun i =>
  if write.offset ≤ i then write.data[i - write.offset]? else none

/-- `operations`, `maxEraseCount` and `badBlockCount` are the statistics that decide something. -/
structure SdCard (σ : Type) where
  profile : Profile
  file : Image
  rng : σ
  pending : List PendingWrite
  wearCounts : List Nat
  badBlocks : List Bool
  status : DeviceStatus
  generation : UInt64
  operations : Nat
  maxEraseCount : Nat
  badBlockCount : Nat

/-- An operation on a card.  The card keeps what a failed operation did. -/
abbrev Device (σ : Type) := ExceptT DeviceError (StateM (SdCard σ))

/-- The operation run on a card. -/
def Device.exec {α : Type} (operation : Device σ α) (s : SdCard σ) :
    Except DeviceError α × SdCard σ := StateT.run (ExceptT.run operation) s

/-- A draw from the card's random source. -/
def draw {α : Type} (f : σ → α × σ) : Device σ α :=
  modifyGet fun s => ((f s.rng).1, { s with rng := (f s.rng).2 })

namespace SdCard

/-- The card as `open` leaves it. -/
def fresh (profile : Profile) (file : Image) (rng : σ) : SdCard σ :=
  let eraseBlocks := (profile.device.sizeBytes.toNat + profile.device.eraseBlockBytes - 1)
    / profile.device.eraseBlockBytes
  { profile, file, rng
    pending := []
    wearCounts := List.replicate eraseBlocks 0
    badBlocks := List.replicate eraseBlocks false
    status := .online
    generation := 0
    operations := 0
    maxEraseCount := 0
    badBlockCount := 0 }

/-- `SdCard::open` on a backing file with this content.  An empty file is filled with zeros. -/
def openCard (content : List UInt8) (profile : Profile) (seed : UInt64) :
    Except DeviceError (SdCard XorShift64) := do
  profile.validate.mapError (DeviceError.mk .invalid)
  failIf (content.length ≠ 0 ∧ content.length ≠ profile.device.sizeBytes.toNat)
    ⟨.invalid, "backing file has " ++ toString content.length ++ " bytes; profile needs "
      ++ toString profile.device.sizeBytes.toNat⟩
  return fresh profile (fun i => content.getD i 0) (XorShift64.new seed)

/-! ### Parts of an operation -/

/-- A write reaches the medium. -/
def persist (s : SdCard σ) (write : PendingWrite) : SdCard σ :=
  { s with file := Overlay.put s.file write.patch }

/-- `persist_pending`: the cache is written out in order. -/
def persistPending (s : SdCard σ) : SdCard σ :=
  s.pending.foldl persist { s with pending := [] }

/-- The bytes in the cache. -/
def pendingBytes (pending : List PendingWrite) : Nat := (pending.map (·.data.length)).sum

/-- The loop of `evict_cache` with the queue it has left. -/
def evictLoop (s : SdCard σ) : List PendingWrite → SdCard σ
  | [] => { s with pending := [] }
  | write :: rest =>
    if s.profile.cache.maxBytes < pendingBytes (write :: rest) then
      evictLoop (s.persist write) rest
    else { s with pending := write :: rest }

/-- `evict_cache`: the oldest writes go until the rest fits. -/
def evictCache (s : SdCard σ) : SdCard σ := s.evictLoop s.pending

/-- `erase_block_range`. -/
def eraseBlockRange (s : SdCard σ) (offset length : Nat) : Nat × Nat :=
  let size := s.profile.device.eraseBlockBytes
  (offset / size, (offset + length - 1) / size)

/-- `touches_bad_block`. -/
def touchesBadBlock (s : SdCard σ) (offset length : Nat) : Bool :=
  if length = 0 then false
  else
    let (first, last) := s.eraseBlockRange offset length
    ((s.badBlocks.take (last + 1)).drop first).any id

/-- The draws of `wait_for_io`. -/
def waitForIo (profile : IoProfile) (rng : σ) : Unit × σ :=
  let (_, rng) := below ((profile.jitterLatencyUs + 1) % 2 ^ 64) rng
  let (spike, rng) := chance profile.spikeProbabilityPpm rng
  if spike then
    ((), (below (min (profile.spikeLatencyUsMax - profile.spikeLatencyUsMin + 1) (2 ^ 64 - 1))
      rng).2)
  else ((), rng)

/-! ### Power loss -/

/-- What becomes of a cached write at a power loss. -/
inductive Fate where
  | whole
  | torn (length : Nat)
  | dropped
deriving DecidableEq

/-- The roll over one cached write. -/
def fate (cache : CacheProfile) (write : PendingWrite) (rng : σ) : Fate × σ :=
  let (roll, rng) := below probabilityScale rng
  if roll < cache.powerLossPersistProbabilityPpm then (.whole, rng)
  else if roll < min (cache.powerLossPersistProbabilityPpm + cache.powerLossTornProbabilityPpm)
      (2 ^ 32 - 1) then
    let (length, rng) := tornLength write.data.length rng
    (.torn length, rng)
  else (.dropped, rng)

/-- One round of the first loop of `apply_power_loss`, on the card and the whole writes so
far: a torn write is persisted at once, a whole one waits for the second loop. -/
def lossStep (loss : SdCard σ × List PendingWrite) (write : PendingWrite) :
    SdCard σ × List PendingWrite :=
  let (s, writes) := loss
  let (outcome, rng) := fate s.profile.cache write s.rng
  let s := { s with rng }
  match outcome with
  | .whole => (s, writes ++ [write])
  | .torn length =>
    (if length ≠ 0 then s.persist ⟨write.offset, write.data.take length⟩ else s, writes)
  | .dropped => (s, writes)

/-- `apply_power_loss`. -/
def applyPowerLoss (s : SdCard σ) : SdCard σ :=
  let (s, writes) := s.pending.foldl lossStep ({ s with pending := [] }, [])
  let (reorder, rng) :=
    if 1 < writes.length then chance s.profile.cache.powerLossReorderProbabilityPpm s.rng
    else (false, s.rng)
  let (writes, rng) := if reorder then shuffle writes rng else (writes, rng)
  let s := writes.foldl persist { s with rng }
  { s with status := .offline, generation := s.generation + 1 }

/-- `power_loss`. -/
def powerLoss (s : SdCard σ) : SdCard σ := s.applyPowerLoss

/-- `detach`. -/
def detach (s : SdCard σ) : SdCard σ := s.applyPowerLoss

/-- `reset`. -/
def reset (s : SdCard σ) : SdCard σ :=
  { s with status := .online, generation := s.generation + 1 }

/-- `set_read_only`. -/
def setReadOnly (s : SdCard σ) (readOnly : Bool) : SdCard σ :=
  { s with status := if readOnly then .readOnly else .online, generation := s.generation + 1 }

/-! ### Operations -/

/-- An injected fault. -/
def injectedError {α : Type} (kind : String) : Device σ α :=
  throw ⟨.io, "injected " ++ kind⟩

/-- `check_range`. -/
def checkRange (offset length : Nat) : Device σ Unit := do
  let size := (← get).profile.device.sizeBytes.toNat
  if 2 ^ 64 ≤ offset + length then throw ⟨.invalid, "request range overflows u64"⟩
  if size < offset + length then
    throw ⟨.noSpace, "request ends at " ++ toString (offset + length) ++ ", past device size "
      ++ toString size⟩

/-- `begin_operation`: the status, and the faults of this operation. -/
def beginOperation : Device σ Unit := do
  if (← get).status = .offline then throw ⟨.disconnected, "device is offline"⟩
  modify fun s => { s with operations := s.operations + 1 }
  let operation := (← get).operations
  let faults := (← get).profile.faults
  if faults.powerLossAfterOps = some operation then
    modify applyPowerLoss
    throw ⟨.disconnected, "scheduled power loss"⟩
  if faults.disappearAfterOps = some operation then
    modify applyPowerLoss
    throw ⟨.disconnected, "scheduled device disappearance"⟩
  if faults.readOnlyAfterOps = some operation then
    modify fun s => { s with status := .readOnly }
  if ← draw (chance faults.eioProbabilityPpm) then injectedError "random_eio"

/-- One round of the loop of `apply_wear`. -/
def wearBlock (s : SdCard σ) (block : Nat) : SdCard σ :=
  let wear := s.profile.wear
  let count := min (s.wearCounts.getD block 0 + wear.acceleratedFactor) (2 ^ 64 - 1)
  let s := { s with
    wearCounts := s.wearCounts.set block count
    maxEraseCount := max s.maxEraseCount count }
  if wear.failureCycles ≤ count ∧ s.badBlocks.getD block false = false then
    { s with badBlocks := s.badBlocks.set block true, badBlockCount := s.badBlockCount + 1 }
  else s

/-- `apply_wear`: blocks age, and may fail. -/
def applyWear (offset length : Nat) : Device σ Unit := do
  let wear := (← get).profile.wear
  if wear.enabled = false ∨ length = 0 then return
  let (first, last) := (← get).eraseBlockRange offset length
  modify fun s => (List.range' first (last + 1 - first)).foldl wearBlock s
  if wear.readOnlyAfterBadBlocks ≤ (← get).badBlockCount ∧ wear.readOnlyAfterBadBlocks ≠ 0 then
    modify fun s => { s with status := .readOnly }
    throw ⟨.readOnly, "wear threshold made the device read-only"⟩
  if wear.warningCycles ≤ (← get).maxEraseCount then
    if ← draw (chance wear.wornEioProbabilityPpm) then injectedError "worn_block_eio"

/-- Copies what the write covers of the range read. -/
def overlay (readOffset : Nat) (data : List UInt8) (write : PendingWrite) : List UInt8 :=
  let readEnd := readOffset + data.length
  let writeEnd := write.offset + write.data.length
  let start := max readOffset write.offset
  let stop := min readEnd writeEnd
  if stop ≤ start then data
  else
    let readStart := start - readOffset
    let writeStart := start - write.offset
    let length := stop - start
    data.take readStart ++ (write.data.drop writeStart).take length
      ++ data.drop (readStart + length)

/-- The bytes on the medium. -/
def readBacking (file : Image) (offset length : Nat) : List UInt8 :=
  (List.range length).map fun k => file (offset + k)

/-- `read`: the medium under the cached writes. -/
def read (offset length : Nat) : Device σ (List UInt8) := do
  checkRange offset length
  beginOperation
  if (← get).touchesBadBlock offset length then injectedError "bad_block_read"
  draw (waitForIo (← get).profile.read)
  let s ← get
  return s.pending.foldl (overlay offset) (readBacking s.file offset length)

/-- Silent corruption of a write: one bit of one byte is flipped. -/
def corrupt (data : List UInt8) : Device σ (List UInt8) := do
  if (← draw (chance (← get).profile.faults.silentCorruptionProbabilityPpm))
      ∧ data.isEmpty = false then
    let index ← draw (below data.length)
    let bit ← draw (below 8)
    return data.modify index (· ^^^ (1 <<< UInt8.ofNat bit))
  return data

/-- Whether a write with the FUA flag is persisted now: no draw is made without the flag. -/
def forced (fua : Bool) : Device σ Bool := do
  if fua then
    return !(← draw (chance (← get).profile.cache.falseFlushProbabilityPpm))
  return false

/-- `write`: to the cache, or through it with `fua`. -/
def write (offset : Nat) (data : List UInt8) (fua : Bool) : Device σ Unit := do
  checkRange offset data.length
  beginOperation
  if (← get).status = .readOnly then throw ⟨.readOnly, "device is read-only"⟩
  if (← get).touchesBadBlock offset data.length then injectedError "bad_block_write"
  draw (waitForIo (← get).profile.write)
  applyWear offset data.length
  if ← draw (chance (← get).profile.faults.tornWriteProbabilityPpm) then
    let length ← draw (tornLength data.length)
    modify (persist · ⟨offset, data.take length⟩)
    throw ⟨.io, "injected torn write returned EIO"⟩
  let data ← corrupt data
  if (← get).profile.cache.enabled then
    if ← forced fua then
      modify persistPending
      modify (persist · ⟨offset, data⟩)
    else
      modify fun s => { s with pending := s.pending ++ [⟨offset, data⟩] }
      modify evictCache
  else
    modify (persist · ⟨offset, data⟩)

/-- `flush`; it may only claim to have written. -/
def flush : Device σ Unit := do
  beginOperation
  draw (waitForIo (← get).profile.write)
  if ← draw (chance (← get).profile.cache.falseFlushProbabilityPpm) then return
  modify persistPending

end SdCard

end Ftwdb.SdEmulator
