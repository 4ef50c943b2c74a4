import Ftwdb.Shadow.Runtime

/-!
# The bounded queue of the shadow runtime

The counters of the queue are those of a list: the request that the worker has
taken and not released, the requests in the channel, and the one for which the
holder of the send gate has reserved a slot.  A step moves a request along this
list, adds one at its end or drops one at either end (`QueueMove`), so that each
reservation is given back once.

The shutdown command is sent through the same gate behind a health record that
no longer says `Running`; no request follows it into the channel (`Gated`).
-/

namespace Ftwdb.Shadow

open List

/-! ## Slots -/

/-- The request of a command. -/
def Command.request? : Command → Option Submission
  | .request r _ => some r
  | .shutdown => none

/-- The ticket of a command. -/
def Command.reply? : Command → Option Nat
  | .request _ reply => some reply
  | .shutdown => none

/-- The requests in a channel. -/
def requests (cs : List Command) : List Submission := cs.filterMap Command.request?

/-- The reply channels of some commands. -/
def tickets (cs : List Command) : List Nat := cs.filterMap Command.reply?

/-- The slot that the worker still holds. -/
def Worker.slots : Worker → List Submission
  | .releasing _ r _ => [r]
  | _ => []

/-- The slot that the holder of the gate has. -/
def Holder.slots : Holder → List Submission
  | .reserved r | .counted r | .unsent r _ => [r]
  | _ => []

/-- The holder has seen a running runtime. -/
def Holder.passed : Holder → Bool
  | .admitted _ | .reserved _ | .counted _ | .unsent _ _ | .released _ _ => true
  | .entered _ | .shutdown | .sending => false

/-- The requests with a slot, from the oldest on. -/
def Runtime.slots (s : Runtime) : List Submission :=
  s.worker.slots ++ requests s.channel ++ (s.gate.map Holder.slots).getD []

namespace QueueUsage

/-- The counters for some requests. -/
def of (rs : List Submission) : QueueUsage := ⟨rs.length, (rs.map Submission.points).sum⟩

theorem of_append (rs : List Submission) (r : Submission) :
    of (rs ++ [r]) = ⟨(of rs).queued + 1, (of rs).points + r.points⟩ := by
  simp [of]

theorem release_cons (r : Submission) (rs : List Submission) :
    (of (r :: rs)).release r.points = of rs := by
  simp [of, release]

theorem release_append (rs : List Submission) (r : Submission) :
    (of (rs ++ [r])).release r.points = of rs := by
  simp [of, release]

/-- A reservation keeps to both limits. -/
theorem reserve_eq_ok {u u' : QueueUsage} {queueCapacity maxQueuedPoints points : Nat}
    (h : u.reserve queueCapacity maxQueuedPoints points = .ok u') :
    u' = ⟨u.queued + 1, u.points + points⟩ ∧ u'.queued ≤ queueCapacity ∧
      u'.points ≤ maxQueuedPoints := by
  rw [reserve] at h
  split at h
  · cases h
  split at h
  · cases h
  next hqueued =>
  split at h
  · cases h
  split at h
  · cases h
  next hpoints =>
  cases h
  exact ⟨rfl, Nat.not_lt.mp hqueued, Nat.not_lt.mp hpoints⟩

end QueueUsage

variable {cs : List Command}

@[simp] theorem requests_nil : requests [] = [] := rfl

@[simp] theorem requests_request (r : Submission) (reply : Nat) (cs : List Command) :
    requests (.request r reply :: cs) = r :: requests cs := rfl

@[simp] theorem requests_shutdown (cs : List Command) : requests (.shutdown :: cs) = requests cs :=
  rfl

@[simp] theorem requests_append (cs ds : List Command) :
    requests (cs ++ ds) = requests cs ++ requests ds := filterMap_append ..

@[simp] theorem tickets_nil : tickets [] = [] := rfl

@[simp] theorem tickets_request (r : Submission) (reply : Nat) (cs : List Command) :
    tickets (.request r reply :: cs) = reply :: tickets cs := rfl

@[simp] theorem tickets_shutdown (cs : List Command) : tickets (.shutdown :: cs) = tickets cs := rfl

@[simp] theorem tickets_append (cs ds : List Command) :
    tickets (cs ++ ds) = tickets cs ++ tickets ds := filterMap_append ..

theorem mem_tickets {reply : Nat} :
    reply ∈ tickets cs ↔ ∃ r, .request r reply ∈ cs := by
  rw [tickets, mem_filterMap]
  constructor
  · rintro ⟨c, hc, hreply⟩
    cases c with
    | request r reply' =>
      cases hreply
      exact ⟨r, hc⟩
    | shutdown => cases hreply
  · rintro ⟨r, hr⟩
    exact ⟨_, hr, rfl⟩

/-- Numbers that increase tell the requests apart. -/
theorem request_unique (h : (tickets cs).Pairwise (· < ·)) {r r' : Submission}
    {reply : Nat} (hr : .request r reply ∈ cs) (hr' : .request r' reply ∈ cs) : r = r' := by
  induction cs with
  | nil => cases hr
  | cons c cs ih =>
    cases c with
    | shutdown =>
      have hshutdown : ∀ {r : Submission}, .request r reply ∈ Command.shutdown :: cs →
          .request r reply ∈ cs := fun hmem => (mem_cons.mp hmem).resolve_left nofun
      exact ih h (hshutdown hr) (hshutdown hr')
    | request r₀ n =>
      rw [tickets_request, pairwise_cons] at h
      rcases mem_cons.mp hr with heq | hmem <;> rcases mem_cons.mp hr' with heq' | hmem'
      · exact (Command.request.inj heq).1.trans (Command.request.inj heq').1.symm
      · obtain ⟨-, rfl⟩ := Command.request.inj heq
        exact absurd (h.1 reply (mem_tickets.mpr ⟨_, hmem'⟩)) (Nat.lt_irrefl _)
      · obtain ⟨-, rfl⟩ := Command.request.inj heq'
        exact absurd (h.1 reply (mem_tickets.mpr ⟨_, hmem⟩)) (Nat.lt_irrefl _)
      · exact ih h.2 hmem hmem'

theorem length_requests (h : Command.shutdown ∉ cs) :
    (requests cs).length = cs.length := by
  induction cs with
  | nil => rfl
  | cons c cs ih =>
    cases c with
    | request r reply =>
      rw [requests_request, length_cons, ih fun hmem => h (mem_cons_of_mem _ hmem),
        length_cons]
    | shutdown => exact absurd mem_cons_self h

namespace Runtime

variable {s s' : Runtime}

/-! ## Steps of the other threads -/

/-- What the worker sees of a step of a producer or of the shutdown. -/
structure Outside (s s' : Runtime) : Prop where
  worker : s'.worker = s.worker
  replies : s'.replies = s.replies
  calls : s'.calls = s.calls
  /-- What is sent enters the channel. -/
  sent : ∃ cs, s'.sent = s.sent ++ cs ∧ s'.channel = s.channel ++ cs
  running : s'.health.state = .running → s.health.state = .running

theorem Submits.outside (h : Submits s s') : Outside s s' := by
  cases h with
  | @send r _ _ => exact ⟨rfl, rfl, rfl, ⟨[.request r s.nextReply], rfl, rfl⟩, id⟩
  | @count r _ | @giveUp r _ _ =>
    exact ⟨rfl, rfl, rfl, ⟨[], by simp [answered]⟩, by cases r <;> exact id⟩
  | _ => exact ⟨rfl, rfl, rfl, ⟨[], by simp [answered]⟩, id⟩

theorem ShutsDown.outside (h : ShutsDown s s') : Outside s s' := by
  cases h with
  | send _ _ => exact ⟨rfl, rfl, rfl, ⟨[.shutdown], rfl, rfl⟩, id⟩
  | close _ =>
    refine ⟨rfl, rfl, rfl, ⟨[], by simp⟩, fun hrunning => ?_⟩
    change (if s.health.state = .running then _ else _) = ShadowRuntimeState.running at hrunning
    split at hrunning
    · cases hrunning
    · exact hrunning
  | _ => exact ⟨rfl, rfl, rfl, ⟨[], by simp⟩, id⟩

theorem Step.cases [Jiff] [FileSizes] (h : Step s s') :
    Outside s s' ∨ Works s s' ∨ Dies s s' := by
  cases h with
  | submits h => exact .inl h.outside
  | works h => exact .inr (.inl h)
  | dies h => exact .inr (.inr h)
  | shutsDown h => exact .inl h.outside

/-! ## The counters -/

/-- What a step does to the counters and to the requests they count. -/
inductive QueueMove (s s' : Runtime) : Prop
  | kept : s'.usage = s.usage → s'.slots = s.slots → QueueMove s s'
  | reserved {r : Submission} :
      s.usage.reserve s.config.queueCapacity s.config.maxQueuedPoints r.points = .ok s'.usage →
      s'.slots = s.slots ++ [r] → QueueMove s s'
  | taken {r : Submission} : s'.usage = s.usage.release r.points → s.slots = r :: s'.slots →
      QueueMove s s'
  | returned {r : Submission} : s'.usage = s.usage.release r.points → s.slots = s'.slots ++ [r] →
      QueueMove s s'

theorem Submits.queueMove (h : Submits s s') : QueueMove s s' := by
  cases h with
  | blocked _ _ => exact .kept rfl rfl
  | reserve hgate hreserve => exact .reserved hreserve (by simp [slots, hgate, Holder.slots])
  | release hgate => exact .returned rfl (by simp [slots, hgate, Holder.slots])
  | _ => exact .kept rfl (by simp [slots, answered, Runtime.send, *, Holder.slots])

theorem Works.queueMove [Jiff] [FileSizes] (h : Works s s') : QueueMove s s' := by
  cases h with
  | release hworker => exact .taken rfl (by simp [slots, hworker, Worker.slots])
  | _ => exact .kept rfl (by simp [slots, *, Worker.slots])

/-- What any step does to the queue. -/
theorem Step.queueMove [Jiff] [FileSizes] (h : Step s s') : QueueMove s s' := by
  cases h with
  | submits h => exact h.queueMove
  | works h => exact h.queueMove
  | dies h =>
    cases h with
    | die hreply =>
      refine .kept rfl ?_
      have hnone : s.worker.slots = [] := by
        cases hworker : s.worker <;> simp_all [Worker.unguarded, Worker.slots]
      rw [slots, slots, hnone]
      rfl
  | shutsDown h =>
    cases h <;> exact .kept rfl (by simp [slots, Runtime.send, *, Holder.slots])

/-- No step changes the settings. -/
theorem Step.config_eq [Jiff] [FileSizes] (h : Step s s') : s'.config = s.config := by
  cases h with
  | submits h | works h | dies h | shutsDown h => cases h <;> rfl

/-- The counters are those of the requests with a slot, and within their limits. -/
structure Counts (s : Runtime) : Prop where
  usage : s.usage = .of s.slots
  queued_le : s.usage.queued ≤ s.config.queueCapacity
  points_le : s.usage.points ≤ s.config.maxQueuedPoints

/-- Counters that do not grow stay within their limits. -/
theorem Counts.shrink (h : Counts s) (hconfig : s'.config = s.config)
    (hqueued : s'.usage.queued ≤ s.usage.queued) (hpoints : s'.usage.points ≤ s.usage.points)
    (husage : s'.usage = .of s'.slots) : Counts s' :=
  ⟨husage, hconfig ▸ hqueued.trans h.queued_le, hconfig ▸ hpoints.trans h.points_le⟩

/-- The counters follow the slots. -/
theorem Counts.step [Jiff] [FileSizes] (h : Counts s) (hstep : Step s s') : Counts s' := by
  have hconfig := hstep.config_eq
  cases hstep.queueMove with
  | kept husage hslots =>
    refine h.shrink hconfig (by rw [husage]) (by rw [husage]) ?_
    rw [husage, hslots, h.usage]
  | @reserved r hreserve hslots =>
    obtain ⟨heq, hqueued, hpoints⟩ := QueueUsage.reserve_eq_ok hreserve
    refine ⟨?_, hconfig ▸ hqueued, hconfig ▸ hpoints⟩
    rw [heq, hslots, QueueUsage.of_append, h.usage]
  | @taken r husage hslots =>
    refine h.shrink hconfig (husage ▸ Nat.sub_le ..) (husage ▸ Nat.sub_le ..) ?_
    rw [husage, h.usage, hslots, QueueUsage.release_cons]
  | @returned r husage hslots =>
    refine h.shrink hconfig (husage ▸ Nat.sub_le ..) (husage ▸ Nat.sub_le ..) ?_
    rw [husage, h.usage, hslots, QueueUsage.release_append]

/-! ## The outcome of a call -/

section Settling

variable {h h' : HealthState} {b : Backend} {io : SnapshotIo} {poison : Option WorkerPoison}

theorem state_refreshStoreSnapshot [FileSizes] (h : HealthState) (b : Backend)
    (lastAckDurable : Bool) (io : SnapshotIo) :
    (h.refreshStoreSnapshot b lastAckDurable io).state = h.state := by
  rw [HealthState.refreshStoreSnapshot]
  split <;> rfl

theorem state_foldl_observeSource (b : Backend) (sources : List U128) (h : HealthState) :
    (sources.foldl (fun h source => h.observeSource b source) h).state = h.state := by
  induction sources generalizing h with
  | nil => rfl
  | cons source sources ih => exact ih _

variable {identity : IngressIdentity} {called : Called Commit}
  {result : Except ShadowFlushFailure ShadowFlushAck} {throughSequence : UInt64}

/-- A write is acknowledged, rejected, or fails and poisons the worker. -/
theorem settleWrite_cases [FileSizes] {result : Except ShadowWriteFailure ShadowAck}
    (heq : settleWrite h b identity called io = (result, h', poison)) :
    (h'.state = h.state ∧ poison = none ∧
      ((∃ commit ack, called = .returned (.ok commit) ∧ result = .ok ack ∧
        ack.identity = identity) ∨
      ∃ e, called = .returned (.error e) ∧ result = .error (.rejected e))) ∨
    h'.state = .poisoned ∧ poison ≠ none ∧ ∃ e, result = .error e := by
  rw [settleWrite.eq_def] at heq
  split at heq
  · next commit =>
    cases heq
    exact .inl ⟨state_refreshStoreSnapshot .., rfl, .inl ⟨commit, _, rfl, rfl, rfl⟩⟩
  · next e =>
    simp only at heq
    split at heq
    · cases heq
      exact .inr ⟨rfl, nofun, _, rfl⟩
    · cases heq
      exact .inl ⟨rfl, rfl, .inr ⟨e, rfl, rfl⟩⟩
  · cases heq
    exact .inr ⟨rfl, nofun, _, rfl⟩

/-- So is a flush; its acknowledgement reads the watermarks. -/
theorem settleFlush_cases [FileSizes] {sourceId : U128} {called : Called Unit}
    (heq : Shadow.settleFlush h b sourceId throughSequence called io = (result, h', poison)) :
    (h'.state = h.state ∧ poison = none ∧ ((called = .returned (.ok ()) ∧
        result = .ok ⟨sourceId, throughSequence, (b.ingressWatermarks sourceId).acceptedThrough,
          (b.ingressWatermarks sourceId).durableThrough⟩) ∨
      ∃ e, called = .returned (.error e) ∧ result = .error (.rejected e))) ∨
    h'.state = .poisoned ∧ poison ≠ none ∧ ∃ e, result = .error e := by
  rw [Shadow.settleFlush.eq_def] at heq
  split at heq
  · cases heq
    rw [state_refreshStoreSnapshot, state_foldl_observeSource]
    exact .inl ⟨rfl, rfl, .inl ⟨rfl, rfl⟩⟩
  · next e =>
    split at heq
    · cases heq
      exact .inr ⟨rfl, nofun, _, rfl⟩
    · cases heq
      exact .inl ⟨rfl, rfl, .inr ⟨e, rfl, rfl⟩⟩
  · cases heq
    exact .inr ⟨rfl, nofun, _, rfl⟩

/-- An acknowledgement does not poison. -/
theorem acknowledged_of_settleWrite [FileSizes] {ack : ShadowAck}
    (heq : settleWrite h b identity called io = (.ok ack, h', poison)) :
    poison = none ∧ ack.identity = identity ∧ ∃ commit, called = .returned (.ok commit) := by
  rcases settleWrite_cases heq with ⟨-, hnone, ⟨commit, ack', hcalled, hack, hidentity⟩ |
    ⟨e, -, he⟩⟩ | ⟨-, -, e, he⟩
  · cases hack
    exact ⟨hnone, hidentity, commit, hcalled⟩
  · cases he
  · cases he

theorem running_of_settleWrite [FileSizes] {result : Except ShadowWriteFailure ShadowAck}
    (heq : settleWrite h b identity called io = (result, h', poison))
    (hrunning : h'.state = .running) : h.state = .running ∧ poison = none := by
  rcases settleWrite_cases heq with ⟨hstate, hnone, -⟩ | ⟨hpoisoned, -⟩
  · exact ⟨hstate.symm.trans hrunning, hnone⟩
  · rw [hpoisoned] at hrunning
    cases hrunning

theorem running_of_settleFlush [FileSizes] {sourceId : U128} {called : Called Unit}
    (heq : Shadow.settleFlush h b sourceId throughSequence called io = (result, h', poison))
    (hrunning : h'.state = .running) : h.state = .running ∧ poison = none := by
  rcases settleFlush_cases heq with ⟨hstate, hnone, -⟩ | ⟨hpoisoned, -⟩
  · exact ⟨hstate.symm.trans hrunning, hnone⟩
  · rw [hpoisoned] at hrunning
    cases hrunning

theorem running_of_backgroundMaintenance [Jiff] {config : ShadowRuntimeConfig}
    {w w' : Writer} {tick : Tick} (heq : backgroundMaintenance config h w tick = (h', w'))
    (hrunning : h'.state = .running) : h.state = .running ∧ w'.poison = w.poison := by
  rw [backgroundMaintenance] at heq
  split at heq
  · cases heq
    exact ⟨hrunning, rfl⟩
  · split at heq
    · cases heq
      cases hrunning
    · cases heq
      exact ⟨hrunning, rfl⟩

end Settling

/-- The worker never sets the state back to `Running`. -/
theorem Works.running [Jiff] [FileSizes] (h : Works s s') (hrunning : s'.health.state = .running) :
    s.health.state = .running := by
  cases h with
  | acknowledge _ _ heq | fail _ _ heq => exact (running_of_settleWrite heq hrunning).1
  | settleFlush _ _ heq => exact (running_of_settleFlush heq hrunning).1
  | maintain _ _ _ heq => exact (running_of_backgroundMaintenance heq hrunning).1
  | closePoisoned _ _ | close _ _ _ _ | closeFails _ _ _ _ | closePanics _ _ _ => cases hrunning
  | _ => exact hrunning

/-! ## The gate -/

/-- Where a shutdown stands.  Once the health record is closed no producer passes
the gate, and the shutdown command is the last one. -/
structure Gated (s : Runtime) : Prop where
  begun : s.join = false → s.gate = some .shutdown ∨
    s.health.state ≠ .running ∧ ∀ holder, s.gate = some holder → holder.passed = false
  joined : s.join = true → s.gate ≠ some .shutdown ∧ s.gate ≠ some .sending
  sent : Command.shutdown ∈ s.sent →
    s.join = false ∧ s.gate ≠ some .shutdown ∧ s.gate ≠ some .sending
  last : ∀ before behind, s.sent = before ++ .shutdown :: behind → behind = []

namespace Gated

theorem join_of_passed (h : Gated s) {holder : Holder} (hgate : s.gate = some holder)
    (hpassed : holder.passed = true) : s.join = true := by
  cases hjoin : s.join with
  | true => rfl
  | false =>
    rcases h.begun hjoin with hshutdown | ⟨-, hnone⟩
    · obtain rfl := Option.some.inj (hgate.symm.trans hshutdown)
      cases hpassed
    · rw [hnone holder hgate] at hpassed
      cases hpassed

/-- A holder past the check finds no shutdown before it. -/
theorem not_sent_of_passed (h : Gated s) {holder : Holder} (hgate : s.gate = some holder)
    (hpassed : holder.passed = true) : Command.shutdown ∉ s.sent := by
  intro hsent
  have hjoin := (h.sent hsent).1
  rw [h.join_of_passed hgate hpassed] at hjoin
  cases hjoin

/-- A step that leaves the shutdown alone. -/
theorem of_gate (h : Gated s) (hjoin : s'.join = s.join) (hsent : s'.sent = s.sent)
    (hstate : s'.health.state = .running → s.health.state = .running)
    (hshutdown : s'.gate = some .shutdown ↔ s.gate = some .shutdown)
    (hsending : s'.gate = some .sending → s.gate = some .sending)
    (hpassed : s.join = false → ∀ holder, s'.gate = some holder → holder.passed = true →
      ∃ holder, s.gate = some holder ∧ holder.passed = true) : Gated s' where
  begun hj := by
    rw [hjoin] at hj
    rcases h.begun hj with hgate | ⟨hclosed, hnone⟩
    · exact .inl (hshutdown.mpr hgate)
    · refine .inr ⟨fun hrunning => hclosed (hstate hrunning), fun holder hgate => ?_⟩
      cases hp : holder.passed with
      | false => rfl
      | true =>
        obtain ⟨holder', hgate', hp'⟩ := hpassed hj holder hgate hp
        rw [hnone holder' hgate'] at hp'
        cases hp'
  joined hj := by
    rw [hjoin] at hj
    obtain ⟨h₁, h₂⟩ := h.joined hj
    exact ⟨fun hgate => h₁ (hshutdown.mp hgate), fun hgate => h₂ (hsending hgate)⟩
  sent hmem := by
    rw [hsent] at hmem
    obtain ⟨hj, h₁, h₂⟩ := h.sent hmem
    exact ⟨hjoin.trans hj, fun hgate => h₁ (hshutdown.mp hgate), fun hgate => h₂ (hsending hgate)⟩
  last := hsent ▸ h.last

/-- A step of the worker does not touch the gate. -/
theorem of_same (h : Gated s) (hjoin : s'.join = s.join) (hsent : s'.sent = s.sent)
    (hgate : s'.gate = s.gate)
    (hstate : s'.health.state = .running → s.health.state = .running) : Gated s' :=
  h.of_gate hjoin hsent hstate (by rw [hgate]) (by rw [hgate]; exact id)
    fun _ holder hholder hpassed => ⟨holder, hgate ▸ hholder, hpassed⟩

theorem submits (h : Gated s) (hstep : Submits s s') : Gated s' := by
  have hrunning := hstep.outside.running
  cases hstep with
  | blocked _ _ => exact h.of_same rfl rfl rfl id
  | enter r hgate =>
    exact h.of_gate rfl rfl id (by simp [hgate]) (by simp) (by simp [Holder.passed])
  | @accept r hgate haccept =>
    refine h.of_gate rfl rfl id (by simp [hgate]) (by simp) fun hjoin => ?_
    -- the record said `Running`, so no shutdown has closed it
    have hopen : s.health.state = .running := by
      rw [HealthState.refusal] at haccept
      split at haccept <;> first | assumption | cases haccept
    rcases h.begun hjoin with hshutdown | ⟨hclosed, -⟩
    · rw [hgate] at hshutdown
      cases hshutdown
    · exact absurd hopen hclosed
  | refuse hgate _ | overload hgate _ | giveUp hgate =>
    exact h.of_gate rfl rfl hrunning (by simp [answered, hgate]) (by simp [answered])
      (by simp [answered])
  | reserve hgate _ | count hgate | sendFails hgate _ | release hgate =>
    exact h.of_gate rfl rfl hrunning (by simp [hgate]) (by simp) fun _ _ _ _ => ⟨_, hgate, rfl⟩
  | @send r hgate _ =>
    have hsent := h.not_sent_of_passed hgate rfl
    have hjoin := h.join_of_passed hgate rfl
    have hstill : Command.shutdown ∉ s.sent ++ [.request r s.nextReply] := by simp [hsent]
    refine ⟨fun hj => ?_, fun _ => by simp [answered], fun hmem => absurd hmem hstill,
      fun before behind heq => ?_⟩
    · change s.join = false at hj
      rw [hjoin] at hj
      cases hj
    · refine absurd ?_ hstill
      change s.sent ++ [.request r s.nextReply] = before ++ .shutdown :: behind at heq
      rw [heq]
      simp

theorem shutsDown (h : Gated s) (hstep : ShutsDown s s') : Gated s' := by
  cases hstep with
  | lock hjoin hgate =>
    have hsent : Command.shutdown ∉ s.sent := by
      intro hmem
      have hj := (h.sent hmem).1
      rw [hjoin] at hj
      cases hj
    exact ⟨fun _ => .inl rfl, fun hj => absurd hj Bool.false_ne_true,
      fun hmem => absurd hmem hsent, h.last⟩
  | close hgate =>
    have hsent : Command.shutdown ∉ s.sent := fun hmem => (h.sent hmem).2.1 hgate
    refine ⟨fun _ => .inr ⟨?_, by simp [Holder.passed]⟩, fun hj => ?_,
      fun hmem => absurd hmem hsent, h.last⟩
    · change (if s.health.state = .running then _ else _) ≠ ShadowRuntimeState.running
      split
      · exact fun hclosing => nomatch hclosing
      · assumption
    · exact absurd hgate (h.joined hj).1
  | send hgate _ =>
    have hsent : Command.shutdown ∉ s.sent := fun hmem => (h.sent hmem).2.2 hgate
    have hjoin : s.join = false := by
      cases hj : s.join with
      | false => rfl
      | true => exact absurd hgate (h.joined hj).2
    have hclosed : s.health.state ≠ .running := by
      rcases h.begun hjoin with hshutdown | ⟨hclosed, -⟩
      · rw [hgate] at hshutdown
        cases hshutdown
      · exact hclosed
    refine ⟨fun _ => .inr ⟨hclosed, by simp⟩, fun _ => by simp, fun _ => ⟨hjoin, by simp⟩,
      fun before behind heq => ?_⟩
    change s.sent ++ [.shutdown] = before ++ .shutdown :: behind at heq
    cases behind.eq_nil_or_concat with
    | inl hnil => exact hnil
    | inr hsome =>
      obtain ⟨rest, c, rfl⟩ := hsome
      refine absurd ?_ hsent
      rw [concat_eq_append, ← cons_append, ← append_assoc] at heq
      rw [(append_inj' heq rfl).1]
      simp
  | sendFails hgate _ =>
    exact h.of_gate rfl rfl id (by simp [hgate]) (by simp) (by simp)

end Gated

/-- One step of any party. -/
theorem Gated.step [Jiff] [FileSizes] (h : Gated s) (hstep : Step s s') : Gated s' := by
  cases hstep with
  | submits hstep => exact h.submits hstep
  | works hstep =>
    refine h.of_same ?_ ?_ ?_ hstep.running
    all_goals cases hstep <;> rfl
  | dies hstep =>
    cases hstep
    exact h.of_same rfl rfl rfl id
  | shutsDown hstep => exact h.shutsDown hstep

end Runtime

end Ftwdb.Shadow
