import Ftwdb.Shadow.Backend

/-!
# The shadow runtime

`shadow_runtime.rs`: producers, the single worker and the shutdown, as a step
relation over the state they share.  A step is what a thread does between two
points at which another thread can see it: taking the send gate, one locked
change of the health record or of the queue counters, a send, a receive or a
call of the storage.  `Submits` are the steps of `try_submit` and `try_flush`
(`submit_until` and `flush_until` only repeat them), `Works` those of
`worker_loop`, and `ShutsDown` those of `shutdown_inner`.

A reply channel is the number under which its one message is recorded.  The
texts of errors in a health record are kept as the errors themselves.
-/

namespace Ftwdb.Shadow

/-! ## Requests and their answers -/

/-- `ShadowWrite`, a transaction under its ingress identity. -/
structure ShadowWrite where
  identity : IngressIdentity
  transaction : Transaction
  identified : transaction.ingressIdentity = some identity

/-- What the queue takes, beside the shutdown. -/
inductive Submission where
  | write (write : ShadowWrite)
  | flush (sourceId : U128) (throughSequence : UInt64)

/-- The points that a submission reserves. -/
def Submission.points : Submission → Nat
  | .write w => w.transaction.pointCount
  | .flush _ _ => 0

/-- The text of an error, or another text. -/
inductive Cause where
  | error (e : Error)
  | text (message : String)
deriving DecidableEq

/-- `WorkerPoison`. -/
inductive WorkerPoison where
  | error (cause : Error)
  | panic (cause : String)
deriving DecidableEq

/-- `ShadowAck`. -/
structure ShadowAck where
  identity : IngressIdentity
  acceptedThrough : Option UInt64
  durableThrough : Option UInt64
  commit : Commit
deriving DecidableEq

/-- `ShadowWriteFailure`. -/
inductive ShadowWriteFailure where
  | rejected (e : Error)
  | writer (e : Error)
  | poisoned (cause : Error)
  | writerPanicked (cause : String)
deriving DecidableEq

/-- `ShadowFlushAck`. -/
structure ShadowFlushAck where
  sourceId : U128
  throughSequence : UInt64
  acceptedThrough : Option UInt64
  durableThrough : Option UInt64
deriving DecidableEq

/-- `ShadowFlushFailure`. -/
inductive ShadowFlushFailure where
  | notAccepted (sourceId : U128) (throughSequence : UInt64) (acceptedThrough : Option UInt64)
  | rejected (e : Error)
  | writer (e : Error)
  | poisoned (cause : Error)
  | writerPanicked (cause : String)
deriving DecidableEq

/-- What the worker sends back. -/
inductive Answer where
  | write (result : Except ShadowWriteFailure ShadowAck)
  | flush (result : Except ShadowFlushFailure ShadowFlushAck)
deriving DecidableEq

/-- The answer of a poisoned worker. -/
def Submission.refusal (poison : WorkerPoison) : Submission → Answer
  | .write _ => .write (.error (match poison with
      | .error cause => .poisoned cause
      | .panic cause => .writerPanicked cause))
  | .flush _ _ => .flush (.error (match poison with
      | .error cause => .poisoned cause
      | .panic cause => .writerPanicked cause))

/-- `SubmitError`. -/
inductive SubmitError where
  | overloaded
  | pointBudgetExhausted
  | closed
  | poisoned (cause : Cause)
deriving DecidableEq

/-! ## The queue counters -/

/-- `QueueUsage`: requests and points that hold a slot. -/
structure QueueUsage where
  queued : Nat := 0
  points : Nat := 0
deriving DecidableEq

/-- `QueueReservationError`. -/
inductive QueueReservationError where
  | entries
  | points
deriving DecidableEq

namespace QueueUsage

/-- `reserve`: entries are checked before points. -/
def reserve (u : QueueUsage) (queueCapacity maxQueuedPoints points : Nat) :
    Except QueueReservationError QueueUsage :=
  if 2 ^ 64 ≤ u.queued + 1 then .error .entries
  else if queueCapacity < u.queued + 1 then .error .entries
  else if 2 ^ 64 ≤ u.points + points then .error .points
  else if maxQueuedPoints < u.points + points then .error .points
  else .ok ⟨u.queued + 1, u.points + points⟩

/-- Subtraction stops at zero. -/
def release (u : QueueUsage) (points : Nat) : QueueUsage := ⟨u.queued - 1, u.points - points⟩

end QueueUsage

/-- How a failed reservation is reported; a flush has one error for both. -/
def Submission.reservationError : Submission → QueueReservationError → SubmitError
  | .write _, .points => .pointBudgetExhausted
  | _, _ => .overloaded

/-! ## The health record -/

/-- `ShadowRuntimeState`. -/
inductive ShadowRuntimeState where
  | running
  | poisoned
  | closing
  | closed
deriving DecidableEq

/-- `HealthState`, shared by all threads. -/
structure HealthState where
  state : ShadowRuntimeState
  accepted : UInt64
  acknowledged : UInt64
  failed : UInt64
  sourceWatermarks : Std.ExtTreeMap U128 Database.IngressWatermarks
  lastError : Option Cause
  resourceLimit : Option String
  store : StoreOpsSnapshot

/-- `writer_error_requires_poison`. -/
def writerErrorRequiresPoison : Error → Bool
  | .io | .invalidHeader | .unsupportedVersion _ | .corruption _ _ | .poisoned
  | .snapshotPublication _ _ => true
  | _ => false

namespace HealthState

/-- Why a producer is turned away, if it is. -/
def refusal (h : HealthState) : Option SubmitError :=
  match h.state with
  | .running => none
  | .poisoned => some (.poisoned (h.lastError.getD (.text "unknown writer failure")))
  | .closing | .closed => some .closed

/-- One more failure is counted. -/
def fail (h : HealthState) : HealthState := { h with failed := h.failed + 1 }

/-- The health after the writer is poisoned. -/
def poison (h : HealthState) (cause : Cause) : HealthState :=
  { h with state := .poisoned, lastError := some cause }

/-- `observe_source`: the watermarks of a source are copied. -/
def observeSource (h : HealthState) (b : Backend) (sourceId : U128) : HealthState :=
  { h with sourceWatermarks := h.sourceWatermarks.insert sourceId (b.ingressWatermarks sourceId) }

/-- `refresh_store_snapshot`: a failed snapshot keeps the old one. -/
def refreshStoreSnapshot [FileSizes] (h : HealthState) (b : Backend) (lastAckDurable : Bool)
    (io : SnapshotIo) : HealthState :=
  match b.storeSnapshot io with
  | .ok snapshot => { h with store := { snapshot with lastAckDurable := lastAckDurable } }
  | .error _ => { h with store := { h.store with lastAckDurable := lastAckDurable } }

end HealthState

/-! ## Calls of the storage -/

/-- What a guarded call came to. -/
inductive Called (α : Type) where
  | returned (result : Except Error α)
  | panicked (cause : String)

/-- What the system does to a guarded call. -/
inductive Fate (ι : Type) where
  | runs (io : ι)
  | panics (cause : String) (left : Backend)

/-- `catch_unwind` -/
def guarded {ι α : Type} (call : ι → Except Error α × Backend) : Fate ι → Called α × Backend
  | .runs io => (.returned (call io).1, (call io).2)
  | .panics cause left => (.panicked cause, left)

/-- The part of `process_write` behind the commit. -/
def settleWrite [FileSizes] (h : HealthState) (b : Backend) (identity : IngressIdentity)
    (called : Called Commit) (io : SnapshotIo) :
    Except ShadowWriteFailure ShadowAck × HealthState × Option WorkerPoison :=
  match called with
  | .returned (.ok commit) =>
    let watermarks := b.ingressWatermarks identity.sourceId
    let h := (h.observeSource b identity.sourceId).refreshStoreSnapshot b commit.durable io
    (.ok ⟨identity, watermarks.acceptedThrough, watermarks.durableThrough, commit⟩,
      { h with
        acknowledged := h.acknowledged + 1
        resourceLimit := if commit.deduplicated then h.resourceLimit else none },
      none)
  | .returned (.error e) =>
    let h := h.observeSource b identity.sourceId
    if writerErrorRequiresPoison e then
      (.error (.writer e), (h.poison (.error e)).fail, some (.error e))
    else
      (.error (.rejected e),
        { h.fail with
          resourceLimit := match e with
            | .resourceLimit reason => some reason
            | _ => h.resourceLimit },
        none)
  | .panicked cause =>
    (.error (.writerPanicked cause), (h.poison (.text cause)).fail, some (.panic cause))

/-- The part of `process_flush` behind the flush. -/
def settleFlush [FileSizes] (h : HealthState) (b : Backend) (sourceId : U128)
    (throughSequence : UInt64) (called : Called Unit) (io : SnapshotIo) :
    Except ShadowFlushFailure ShadowFlushAck × HealthState × Option WorkerPoison :=
  match called with
  | .returned (.ok ()) =>
    let h := h.sourceWatermarks.keys.foldl (fun h observed => h.observeSource b observed) h
    let watermarks := b.ingressWatermarks sourceId
    (.ok ⟨sourceId, throughSequence, watermarks.acceptedThrough, watermarks.durableThrough⟩,
      h.refreshStoreSnapshot b true io, none)
  | .returned (.error e) =>
    if writerErrorRequiresPoison e then
      (.error (.writer e), (h.poison (.error e)).fail, some (.error e))
    else (.error (.rejected e), h.fail, none)
  | .panicked cause =>
    (.error (.writerPanicked cause), (h.poison (.text cause)).fail, some (.panic cause))

/-- Whether a flush asks for no more than was accepted. -/
def reaches (acceptedThrough : Option UInt64) (throughSequence : UInt64) : Bool :=
  acceptedThrough.any (throughSequence ≤ ·)

/-! ## The worker -/

/-- The local state of the worker. -/
structure Writer where
  backend : Backend
  poison : Option WorkerPoison := none
  /-- A reading of the monotonic clock, in nanoseconds. -/
  lastMaintenance : Option Nat := none

/-- The clocks at a background maintenance, and what the system does to it. -/
structure Tick where
  instant : Nat
  microsSinceEpoch : Nat
  io : MaintenanceIo

/-- The clock of a tick in microseconds, saturated. -/
def Tick.nowMicros (tick : Tick) : Int64 :=
  if tick.microsSinceEpoch < 2 ^ 63 then Int64.ofInt tick.microsSinceEpoch else Int64.maxValue

/-- Whether `maybe_run_background_maintenance` goes on to call the storage. -/
def maintenanceDue (config : ShadowRuntimeConfig) (lastMaintenance : Option Nat) (instant : Nat) :
    Bool :=
  match config.maintenanceInterval with
  | none => false
  | some interval => lastMaintenance.all fun previous => decide (interval ≤ instant - previous)

/-- The rest of it. -/
def backgroundMaintenance [Jiff] (config : ShadowRuntimeConfig) (h : HealthState) (w : Writer)
    (tick : Tick) : HealthState × Writer :=
  match w.backend.backgroundMaintenance tick.nowMicros config tick.io with
  | (.ok (), b) => (h, { w with backend := b, lastMaintenance := some tick.instant })
  | (.error e, b) =>
    if writerErrorRequiresPoison e then
      (h.poison (.error e), { w with backend := b, poison := some (.error e) })
    else (h, { w with backend := b, lastMaintenance := some tick.instant })

/-- Where the worker is. -/
inductive Worker where
  | receiving (w : Writer)
  /-- A command is taken, its slot is still counted. -/
  | releasing (w : Writer) (r : Submission) (reply : Nat)
  | processing (w : Writer) (r : Submission) (reply : Nat)
  | settlingWrite (w : Writer) (write : ShadowWrite) (reply : Nat) (called : Called Commit)
  | settlingFlush (w : Writer) (sourceId : U128) (throughSequence : UInt64) (reply : Nat)
      (called : Called Unit)
  /-- A write is acknowledged but not yet answered. -/
  | maintaining (w : Writer) (reply : Nat) (ack : ShadowAck)
  | replying (w : Writer) (reply : Nat) (answer : Answer)
  | closing (w : Writer)
  | stopped
  /-- A panic outside the guarded calls has ended the thread, with this request in
  hand. -/
  | died (reply : Nat)

def Worker.writer : Worker → Option Writer
  | .receiving w | .releasing w _ _ | .processing w _ _ | .settlingWrite w _ _ _
  | .settlingFlush w _ _ _ _ | .maintaining w _ _ | .replying w _ _ | .closing w => some w
  | .stopped | .died _ => none

/-- The receiving end of the channel is dropped. -/
def Worker.gone (w : Worker) : Bool := w.writer.isNone

/-- The request in whose service the worker runs code outside a guard. -/
def Worker.unguarded : Worker → Option Nat
  | .processing _ _ reply | .settlingWrite _ _ reply _ | .settlingFlush _ _ _ reply _
  | .maintaining _ reply _ => some reply
  | _ => none

/-! ## The whole runtime -/

/-- `Command`: a request with the number of its reply, or the end. -/
inductive Command where
  | request (r : Submission) (reply : Nat)
  | shutdown

/-- Who holds the send gate, and how far it is. -/
inductive Holder where
  | entered (r : Submission)
  /-- The health record said `Running`. -/
  | admitted (r : Submission)
  | reserved (r : Submission)
  /-- The health record counts the write as accepted. -/
  | counted (r : Submission)
  /-- The send has failed; the slot is still reserved. -/
  | unsent (r : Submission) (e : SubmitError)
  /-- The slot is given back. -/
  | released (r : Submission) (e : SubmitError)
  | shutdown
  /-- The health record no longer says `Running`. -/
  | sending

inductive BackendCall where
  | commitIngress (reply : Nat)
  | flush (reply : Nat)
  | maintenance
  | close
deriving DecidableEq

/-- `ShutdownError`. -/
inductive ShutdownError where
  | writerPoisoned (cause : Error)
  | close (e : Error)
  | writerPanicked (cause : String)

/-- The whole runtime: its queue, its worker and what has been sent and answered. -/
structure Runtime where
  config : ShadowRuntimeConfig
  health : HealthState
  usage : QueueUsage
  /-- The holder of `send_gate`. -/
  gate : Option Holder
  channel : List Command
  worker : Worker
  /-- The join handle is still there. -/
  join : Bool
  nextReply : Nat
  /-- The history: every command that was sent, every call of the storage, every
  answer, and what the producers were told. -/
  sent : List Command := []
  calls : List BackendCall := []
  replies : List (Nat × Answer) := []
  outcomes : List (Submission × Except SubmitError Nat) := []
  report : Option (Except ShutdownError Unit) := none

inductive ShadowStartError where
  | zeroQueueCapacity
  | readOnlyBackend
  | invalidStorageLimits
deriving DecidableEq

namespace Runtime

/-- The record and the channel of a runtime over some storage. -/
def initial [FileSizes] (b : Backend) (config : ShadowRuntimeConfig) (io : SnapshotIo) :
    Runtime where
  config := config
  health := {
    state := .running
    accepted := 0
    acknowledged := 0
    failed := 0
    sourceWatermarks := b.allIngressWatermarks
    lastError := none
    resourceLimit := none
    store := (b.storeSnapshot io).toOption.getD {} }
  usage := {}
  gate := none
  channel := []
  worker := .receiving { backend := b }
  join := true
  nextReply := 0

/-- `start_backend`. -/
def startBackend [FileSizes] (b : Backend) (config : ShadowRuntimeConfig) (io : SnapshotIo) :
    Except ShadowStartError Runtime := do
  Check.failIf (config.queueCapacity = 0) ShadowStartError.zeroQueueCapacity
  .ok (initial b config io)

/-- `start_store`. -/
def startStore [FileSizes] (s : Store) (config : ShadowRuntimeConfig) (io : SnapshotIo) :
    Except ShadowStartError Runtime := do
  Check.failIf (s.readOnly = true) ShadowStartError.readOnlyBackend
  Check.failIf (config.storageLimits.isSome = true ∧ (s.manifest.hasActiveRollups = true ∨
      config.maintenanceInterval.isSome = true ∨ config.sealLogBytesThreshold.isSome = true))
    ShadowStartError.invalidStorageLimits
  startBackend (.store ⟨s, config.storageLimits⟩) config io

/-- `start_database`. -/
def startDatabase [FileSizes] (db : Database) (config : ShadowRuntimeConfig) (io : SnapshotIo) :
    Except ShadowStartError Runtime := do
  Check.failIf (db.readOnly = true) ShadowStartError.readOnlyBackend
  Check.failIf (config.storageLimits.isSome = true) ShadowStartError.invalidStorageLimits
  startBackend (.database db) config io

/-- What `try_send` finds: `none` is room for one more command. -/
def sendError (s : Runtime) : Option SubmitError :=
  if s.worker.gone then some .closed
  else if s.config.queueCapacity ≤ s.channel.length then some .overloaded
  else none

/-- The producer at the gate returns. -/
def answered (s : Runtime) (r : Submission) (outcome : Except SubmitError Nat) : Runtime :=
  { s with gate := none, outcomes := s.outcomes ++ [(r, outcome)] }

/-- A command enters the channel. -/
def send (s : Runtime) (c : Command) : Runtime :=
  { s with channel := s.channel ++ [c], sent := s.sent ++ [c] }

/-- One more or one less write in the count of the accepted. -/
def countAccepted (h : HealthState) : Submission → HealthState
  | .write _ => { h with accepted := h.accepted + 1 }
  | .flush _ _ => h

/-- A refused write was not accepted after all. -/
def uncountAccepted (h : HealthState) : Submission → HealthState
  | .write _ => { h with accepted := h.accepted - 1 }
  | .flush _ _ => h

/-- A step of a producer. -/
inductive Submits (s : Runtime) : Runtime → Prop
  | blocked {holder : Holder} (r : Submission) : s.gate = some holder →
      Submits s { s with outcomes := s.outcomes ++ [(r, .error .overloaded)] }
  | enter (r : Submission) : s.gate = none → Submits s { s with gate := some (.entered r) }
  | accept {r : Submission} : s.gate = some (.entered r) → s.health.refusal = none →
      Submits s { s with gate := some (.admitted r) }
  | refuse {r : Submission} {e : SubmitError} : s.gate = some (.entered r) →
      s.health.refusal = some e → Submits s (s.answered r (.error e))
  | reserve {r : Submission} {usage : QueueUsage} : s.gate = some (.admitted r) →
      s.usage.reserve s.config.queueCapacity s.config.maxQueuedPoints r.points = .ok usage →
      Submits s { s with usage := usage, gate := some (.reserved r) }
  | overload {r : Submission} {e : QueueReservationError} : s.gate = some (.admitted r) →
      s.usage.reserve s.config.queueCapacity s.config.maxQueuedPoints r.points = .error e →
      Submits s (s.answered r (.error (r.reservationError e)))
  | count {r : Submission} : s.gate = some (.reserved r) →
      Submits s { s with health := countAccepted s.health r, gate := some (.counted r) }
  | send {r : Submission} : s.gate = some (.counted r) → s.sendError = none →
      Submits s (({ s with nextReply := s.nextReply + 1 }.send (.request r s.nextReply)).answered r
        (.ok s.nextReply))
  | sendFails {r : Submission} {e : SubmitError} :
      s.gate = some (.counted r) → s.sendError = some e →
      Submits s { s with nextReply := s.nextReply + 1, gate := some (.unsent r e) }
  | release {r : Submission} {e : SubmitError} : s.gate = some (.unsent r e) →
      Submits s { s with usage := s.usage.release r.points, gate := some (.released r e) }
  | giveUp {r : Submission} {e : SubmitError} : s.gate = some (.released r e) →
      Submits s ({ s with health := uncountAccepted s.health r }.answered r (.error e))

/-- A step of the worker that is not a panic outside the guarded calls. -/
inductive Works [Jiff] [FileSizes] (s : Runtime) : Runtime → Prop
  | receive {w : Writer} {r : Submission} {reply : Nat} {rest : List Command} :
      s.worker = .receiving w → s.channel = .request r reply :: rest →
      Works s { s with channel := rest, worker := .releasing w r reply }
  | receiveShutdown {w : Writer} {rest : List Command} :
      s.worker = .receiving w → s.channel = .shutdown :: rest →
      Works s { s with channel := rest, worker := .closing w }
  | release {w : Writer} {r : Submission} {reply : Nat} : s.worker = .releasing w r reply →
      Works s { s with usage := s.usage.release r.points, worker := .processing w r reply }
  | refuse {w : Writer} {r : Submission} {reply : Nat} {poison : WorkerPoison} :
      s.worker = .processing w r reply → w.poison = some poison →
      Works s { s with health := s.health.fail, worker := .replying w reply (r.refusal poison) }
  | commit {w : Writer} {write : ShadowWrite} {reply : Nat} {called : Called Commit} {b : Backend}
      (fate : Fate WriteIo) : s.worker = .processing w (.write write) reply → w.poison = none →
      guarded (w.backend.commitIngress write.identity write.transaction) fate = (called, b) →
      Works s { s with
        worker := .settlingWrite { w with backend := b } write reply called
        calls := s.calls ++ [.commitIngress reply] }
  | notAccepted {w : Writer} {sourceId : U128} {throughSequence : UInt64} {reply : Nat}
      {watermarks : Database.IngressWatermarks} :
      s.worker = .processing w (.flush sourceId throughSequence) reply → w.poison = none →
      w.backend.ingressWatermarks sourceId = watermarks →
      reaches watermarks.acceptedThrough throughSequence = false →
      Works s { s with
        health := (s.health.observeSource w.backend sourceId).fail
        worker := .replying w reply
          (.flush (.error (.notAccepted sourceId throughSequence watermarks.acceptedThrough))) }
  | flush {w : Writer} {sourceId : U128} {throughSequence : UInt64} {reply : Nat}
      {called : Called Unit} {b : Backend} (fate : Fate Io) :
      s.worker = .processing w (.flush sourceId throughSequence) reply → w.poison = none →
      reaches (w.backend.ingressWatermarks sourceId).acceptedThrough throughSequence = true →
      guarded w.backend.flush fate = (called, b) →
      Works s { s with
        health := s.health.observeSource w.backend sourceId
        worker := .settlingFlush { w with backend := b } sourceId throughSequence reply called
        calls := s.calls ++ [.flush reply] }
  | acknowledge {w : Writer} {write : ShadowWrite} {reply : Nat} {called : Called Commit}
      {ack : ShadowAck} {health : HealthState} {poison : Option WorkerPoison} (io : SnapshotIo) :
      s.worker = .settlingWrite w write reply called →
      settleWrite s.health w.backend write.identity called io = (.ok ack, health, poison) →
      Works s { s with
        health := health, worker := .maintaining { w with poison := poison } reply ack }
  | fail {w : Writer} {write : ShadowWrite} {reply : Nat} {called : Called Commit}
      {e : ShadowWriteFailure} {health : HealthState} {poison : Option WorkerPoison}
      (io : SnapshotIo) : s.worker = .settlingWrite w write reply called →
      settleWrite s.health w.backend write.identity called io = (.error e, health, poison) →
      Works s { s with
        health := health
        worker := .replying { w with poison := poison } reply (.write (.error e)) }
  | settleFlush {w : Writer} {sourceId : U128} {throughSequence : UInt64} {reply : Nat}
      {called : Called Unit} {result : Except ShadowFlushFailure ShadowFlushAck}
      {health : HealthState} {poison : Option WorkerPoison} (io : SnapshotIo) :
      s.worker = .settlingFlush w sourceId throughSequence reply called →
      Shadow.settleFlush s.health w.backend sourceId throughSequence called io =
        (result, health, poison) →
      Works s { s with
        health := health
        worker := .replying { w with poison := poison } reply (.flush result) }
  | rest {w : Writer} {reply : Nat} {ack : ShadowAck} (instant : Nat) :
      s.worker = .maintaining w reply ack →
      maintenanceDue s.config w.lastMaintenance instant = false →
      Works s { s with worker := .replying w reply (.write (.ok ack)) }
  | maintain {w w' : Writer} {reply : Nat} {ack : ShadowAck} {health : HealthState} (tick : Tick) :
      s.worker = .maintaining w reply ack →
      maintenanceDue s.config w.lastMaintenance tick.instant = true →
      backgroundMaintenance s.config s.health w tick = (health, w') →
      Works s { s with
        health := health
        worker := .replying w' reply (.write (.ok ack))
        calls := s.calls ++ [.maintenance] }
  | reply {w : Writer} {reply : Nat} {answer : Answer} : s.worker = .replying w reply answer →
      Works s { s with worker := .receiving w, replies := s.replies ++ [(reply, answer)] }
  | closePoisoned {w : Writer} {poison : WorkerPoison} : s.worker = .closing w →
      w.poison = some poison →
      Works s { s with
        health := { s.health with state := .closed }
        worker := .stopped
        report := some (.error (match poison with
          | .error cause => .writerPoisoned cause
          | .panic cause => .writerPanicked cause)) }
  | close {w : Writer} {watermarks : Std.ExtTreeMap U128 Database.IngressWatermarks} (io : Io) :
      s.worker = .closing w → w.poison = none → w.backend.close io = .ok watermarks →
      Works s { s with
        health := { s.health with sourceWatermarks := watermarks, state := .closed }
        worker := .stopped
        calls := s.calls ++ [.close]
        report := some (.ok ()) }
  | closeFails {w : Writer} {e : Error} (io : Io) : s.worker = .closing w → w.poison = none →
      w.backend.close io = .error e →
      Works s { s with
        health := { s.health.fail with state := .closed, lastError := some (.error e) }
        worker := .stopped
        calls := s.calls ++ [.close]
        report := some (.error (.close e)) }
  | closePanics {w : Writer} (cause : String) : s.worker = .closing w → w.poison = none →
      Works s { s with
        health := { s.health.fail with state := .closed, lastError := some (.text cause) }
        worker := .stopped
        calls := s.calls ++ [.close]
        report := some (.error (.writerPanicked cause)) }

/-- A panic that nothing catches ends the thread. -/
inductive Dies (s : Runtime) : Runtime → Prop
  | die {reply : Nat} : s.worker.unguarded = some reply →
      Dies s { s with worker := .died reply }

/-- A step of `shutdown_inner`, up to its wait for the worker. -/
inductive ShutsDown (s : Runtime) : Runtime → Prop
  | lock : s.join = true → s.gate = none →
      ShutsDown s { s with join := false, gate := some .shutdown }
  | close : s.gate = some .shutdown →
      ShutsDown s { s with
        health := { s.health with
          state := if s.health.state = .running then .closing else s.health.state }
        gate := some .sending }
  | send : s.gate = some .sending → s.sendError = none →
      ShutsDown s { s.send .shutdown with gate := none }
  | sendFails : s.gate = some .sending → s.worker.gone = true →
      ShutsDown s { s with gate := none }

/-- One step of any thread. -/
inductive Step [Jiff] [FileSizes] (s s' : Runtime) : Prop
  | submits : Submits s s' → Step s s'
  | works : Works s s' → Step s s'
  | dies : Dies s s' → Step s s'
  | shutsDown : ShutsDown s s' → Step s s'

end Runtime

end Ftwdb.Shadow
