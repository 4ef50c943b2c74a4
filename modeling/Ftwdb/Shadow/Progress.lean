import Mathlib.Logic.Relation
import Ftwdb.Shadow.Coverage

/-!
# The discipline of the shadow runtime

Every step of the worker brings each request that was sent nearer to its answer
(`wait`), whatever the other threads do in between, and the worker has a step to
take until all are answered.  Together with the invariants of the queue, of the
order of service and of the poisoned worker this gives the discipline that holds
in every state of every run (`Reachable.disciplined`).
-/

namespace Ftwdb.Shadow

open List

/-- The steps that the worker has before it on the request in hand. -/
def Worker.left : Worker → Nat
  | .releasing _ _ _ => 5
  | .processing _ _ _ => 4
  | .settlingWrite _ _ _ _ | .settlingFlush _ _ _ _ _ => 3
  | .maintaining _ _ _ => 2
  | .replying _ _ _ | .closing _ => 1
  | .receiving _ | .stopped | .died _ => 0

namespace Runtime

variable {s s' : Runtime} {taken : List Command}

/-- A bound for the steps of the worker up to an answer. -/
def wait (s : Runtime) (reply : Nat) : Nat :=
  if reply ∈ s.worker.inHand then s.worker.left
  else s.worker.left + 6 * ((s.channel.takeWhile fun c => c.reply? ≠ some reply).length + 1)

/-- Requests that are not answered are in hand or in the channel. -/
theorem Served.tickets_sent (h : Served s taken) :
    tickets s.sent = s.replies.map Prod.fst ++ s.worker.inHand ++ tickets s.channel := by
  rw [h.sent, tickets_append, h.replies]

theorem Served.pending (h : Served s taken) {reply : Nat} (hsent : reply ∈ tickets s.sent)
    (hreply : reply ∉ s.replies.map Prod.fst) :
    reply ∈ s.worker.inHand ∨ reply ∈ tickets s.channel := by
  rw [h.tickets_sent, append_assoc, mem_append] at hsent
  exact mem_append.mp (hsent.resolve_left hreply)

/-- Nothing is behind a shutdown that was taken. -/
theorem Served.channel_eq_nil (h : Served s taken) (hgated : Gated s)
    (hclosed : s.worker.closed = true) : s.channel = [] := by
  obtain ⟨before, behind, rfl⟩ := append_of_mem (h.closed.mp hclosed)
  have hsent := h.sent
  rw [append_assoc, cons_append] at hsent
  exact (append_eq_nil_iff.mp (hgated.last before _ hsent)).2

theorem wait_of_left_lt (hinHand : s'.worker.inHand = s.worker.inHand)
    (hchannel : s'.channel = s.channel) (hleft : s'.worker.left < s.worker.left) (reply : Nat) :
    s'.wait reply < s.wait reply := by
  rw [wait, wait, hinHand, hchannel]
  split <;> omega

/-- A later command keeps nobody waiting. -/
theorem Outside.wait_eq (hout : Outside s s') {reply : Nat} (hserved : Served s taken)
    (hsent : reply ∈ tickets s.sent) (hreply : reply ∉ s.replies.map Prod.fst) :
    s'.wait reply = s.wait reply := by
  obtain ⟨cs, -, hchannel⟩ := hout.sent
  rw [wait, wait, hout.worker]
  split
  · rfl
  next hinHand =>
  obtain ⟨r, hr⟩ := mem_tickets.mp ((hserved.pending hsent hreply).resolve_left hinHand)
  rw [hchannel, takeWhile_append, if_neg]
  intro hlength
  have hall := takeWhile_eq_self_iff.mp (( takeWhile_prefix _).eq_of_length hlength)
  simpa [Command.reply?] using hall _ hr

/-! ## Runs -/

variable [Jiff] [FileSizes]

/-- A runtime that has just been started. -/
inductive Started : Runtime → Prop
  | store {store : Store} {config : ShadowRuntimeConfig} {io : SnapshotIo} {s : Runtime} :
      store.database.Reachable → startStore store config io = .ok s → Started s
  | database {db : Database} {config : ShadowRuntimeConfig} {io : SnapshotIo} {s : Runtime} :
      db.Reachable → startDatabase db config io = .ok s → Started s

/-- The states of all runs. -/
inductive Reachable : Runtime → Prop
  | started {s : Runtime} : Started s → Reachable s
  | step {s s' : Runtime} : Reachable s → Step s s' → Reachable s'

theorem Reachable.steps (h : Reachable s) (hsteps : Relation.ReflTransGen Step s s') :
    Reachable s' := by
  induction hsteps with
  | refl => exact h
  | tail _ hstep ih => exact ih.step hstep

theorem Started.eq_initial (h : Started s) :
    ∃ b config io, b.handle.Reachable ∧ config.queueCapacity ≠ 0 ∧ s = initial b config io := by
  cases h with
  | @store store config io _ hreachable hstart =>
    simp only [startStore, startBackend, Check.bind_eq_ok, Check.failIf_eq_ok] at hstart
    obtain ⟨_, -, _, -, _, hcapacity, hstart⟩ := hstart
    cases hstart
    exact ⟨.store ⟨store, config.storageLimits⟩, config, io, hreachable, hcapacity, rfl⟩
  | @database db config io _ hreachable hstart =>
    simp only [startDatabase, startBackend, Check.bind_eq_ok, Check.failIf_eq_ok] at hstart
    obtain ⟨_, -, _, -, _, hcapacity, hstart⟩ := hstart
    cases hstart
    exact ⟨.database db, config, io, hreachable, hcapacity, rfl⟩

/-- Everything that every step keeps. -/
structure Invariant (s : Runtime) : Prop where
  counts : Counts s
  gated : Gated s
  numbered : Numbered s
  served : ∃ taken, Served s taken
  marked : Marked s
  answered : Answered s
  reported : Reported s
  covering : Covering s

theorem Invariant.step (h : Invariant s) (hstep : Step s s') : Invariant s' := by
  obtain ⟨taken, hserved⟩ := h.served
  exact ⟨h.counts.step hstep, h.gated.step hstep, h.numbered.step hstep, hserved.step hstep,
    h.marked.step hstep, h.answered.step hserved hstep, h.reported.step hstep,
    h.covering.step hstep⟩

theorem Started.invariant (h : Started s) : Invariant s := by
  obtain ⟨b, config, io, hreachable, -, rfl⟩ := h.eq_initial
  exact {
    counts := ⟨rfl, Nat.zero_le _, Nat.zero_le _⟩
    gated := ⟨fun hjoin => (nomatch hjoin), fun _ => ⟨by simp [initial], by simp [initial]⟩,
      fun hsent => (nomatch hsent), fun before behind heq => by simp [initial] at heq⟩
    numbered := ⟨.nil, fun _ hreply => (nomatch hreply), rfl⟩
    served := ⟨[], rfl, rfl, by simp [initial, Worker.closed], .slnil⟩
    marked := ⟨fun _ hw => (nomatch hw), fun w hw hpoison => by
      cases hw
      exact absurd rfl hpoison⟩
    answered := ⟨fun _ _ hmem => (nomatch hmem), trivial⟩
    reported := ⟨fun _ _ hmem => (nomatch hmem), fun _ hcall => (nomatch hcall)⟩
    covering := fun _ => ⟨hreachable, fun _ hanswer => (nomatch hanswer)⟩ }

theorem Reachable.invariant (h : Reachable s) : Invariant s := by
  induction h with
  | started h => exact h.invariant
  | step _ hstep ih => exact ih.step hstep

/-! ## Waiting -/

/-- The worker always has a next step, but for a command to wait for. -/
theorem exists_works (s : Runtime) (hgone : s.worker.gone = false)
    (hwork : s.channel ≠ [] ∨ ∀ w, s.worker ≠ .receiving w) : ∃ s', Works s s' := by
  cases hworker : s.worker with
  | receiving w =>
    cases hchannel : s.channel with
    | nil =>
      rcases hwork with hne | hne
      · exact absurd hchannel hne
      · exact absurd hworker (hne w)
    | cons c rest =>
      cases c with
      | request r reply => exact ⟨_, .receive hworker hchannel⟩
      | shutdown => exact ⟨_, .receiveShutdown hworker hchannel⟩
  | releasing w r reply => exact ⟨_, .release hworker⟩
  | processing w r reply =>
    cases hpoison : w.poison with
    | some poison => exact ⟨_, .refuse hworker hpoison⟩
    | none =>
      cases r with
      | write write => exact ⟨_, .commit (.runs {}) hworker hpoison rfl⟩
      | flush sourceId throughSequence =>
        cases hreaches : reaches (w.backend.ingressWatermarks sourceId).acceptedThrough
          throughSequence with
        | false => exact ⟨_, .notAccepted hworker hpoison rfl hreaches⟩
        | true => exact ⟨_, .flush (.runs {}) hworker hpoison hreaches rfl⟩
  | settlingWrite w write reply called =>
    cases hsettled : settleWrite s.health w.backend write.identity called {} with
    | mk result rest =>
      cases result with
      | error e => exact ⟨_, .fail {} hworker hsettled⟩
      | ok ack => exact ⟨_, .acknowledge {} hworker hsettled⟩
  | settlingFlush w sourceId throughSequence reply called => exact ⟨_, .settleFlush {} hworker rfl⟩
  | maintaining w reply ack =>
    cases hdue : maintenanceDue s.config w.lastMaintenance 0 with
    | false => exact ⟨_, .rest 0 hworker hdue⟩
    | true => exact ⟨_, .maintain ⟨0, 0, {}⟩ hworker hdue rfl⟩
  | replying w reply answer => exact ⟨_, .reply hworker⟩
  | closing w =>
    cases hpoison : w.poison with
    | some poison => exact ⟨_, .closePoisoned hworker hpoison⟩
    | none => exact ⟨_, .closePanics "" hworker hpoison⟩
  | stopped | died reply =>
    rw [hworker] at hgone
    cases hgone

theorem Works.wait_lt (hstep : Works s s') {reply : Nat} (hserved : Served s taken)
    (hgated : Gated s) (hsent : reply ∈ tickets s.sent) (hreply : reply ∉ s.replies.map Prod.fst) :
    reply ∈ s'.replies.map Prod.fst ∨ s'.wait reply < s.wait reply := by
  have hpending := hserved.pending hsent hreply
  -- a worker that has taken the shutdown has answered everything
  have hclosing : ∀ w, s.worker = .closing w → False := by
    intro w hworker
    rw [hserved.channel_eq_nil hgated (by rw [hworker]; rfl), hworker] at hpending
    rcases hpending with hnone | hnone <;> cases hnone
  cases hstep with
  | @receive w r reply' rest hworker hchannel =>
    refine .inr ?_
    simp only [wait, hworker, hchannel, Worker.inHand, Worker.left, mem_singleton,
      not_mem_nil, if_false, takeWhile_cons, Command.reply?]
    by_cases heq : reply' = reply
    · subst heq
      simp
    · rw [if_neg fun h => heq h.symm]
      simp [heq]
      omega
  | @receiveShutdown w rest hworker hchannel =>
    have hnil : rest = [] := by
      refine hgated.last taken rest ?_
      rw [hserved.sent, hchannel]
    rw [hworker, hchannel, hnil] at hpending
    rcases hpending with hnone | hnone <;> cases hnone
  | @reply w reply' answer hworker =>
    by_cases heq : reply = reply'
    · subst heq
      exact .inl (by simp)
    · refine .inr ?_
      simp [wait, hworker, Worker.inHand, Worker.left, heq]
  | closePoisoned hworker _ | close _ hworker _ _ | closeFails _ hworker _ _
  | closePanics _ hworker _ => exact (hclosing _ hworker).elim
  | _ =>
    refine .inr ?_
    refine wait_of_left_lt ?_ ?_ ?_ reply
    · simp [*, Worker.inHand]
    · rfl
    · simp [*, Worker.left]

/-! ## The discipline -/

/-- What holds in every state of a run: the bounds of the queue, the order of
service, the answers, and the end of all calls behind a failure. -/
structure Disciplined (s : Runtime) : Prop where
  queued_le : s.usage.queued ≤ s.config.queueCapacity
  points_le : s.usage.points ≤ s.config.maxQueuedPoints
  waiting_le : (requests s.channel).length ≤ s.usage.queued
  /-- A send behind a reservation finds room. -/
  room : ∀ r, s.gate = some (.counted r) → s.sendError ≠ some .overloaded
  /-- The counters are those of the requests that hold a slot. -/
  slots : s.usage = .of s.slots
  drained : s.channel = [] → s.worker.inHand = [] → s.gate = none → s.usage = {}
  /-- Successful submissions are numbered in their order. -/
  submissions : s.outcomes.filterMap submitted = s.sent.filterMap Command.submission? ∧
    (tickets s.sent).Pairwise (· < ·)
  order : (s.calls.filterMap BackendCall.reply?).Sublist (tickets s.sent)
  called : ∀ reply answer, (reply, answer) ∈ s.replies →
    ∀ call, answer.call? reply = some call → call ∈ s.calls
  replied : s.replies.map Prod.fst ++ s.worker.inHand ++ tickets s.channel = tickets s.sent
  /-- Unless the worker has died, every step of it brings an answer nearer, and no
  step of another thread puts it off. -/
  progress : ∀ reply ∈ tickets s.sent, (∀ lost, s.worker ≠ .died lost) →
    reply ∈ s.replies.map Prod.fst ∨ (∃ s', Works s s') ∧
      (∀ s', Works s s' → reply ∈ s'.replies.map Prod.fst ∨ s'.wait reply < s.wait reply) ∧
      ∀ s', Submits s s' ∨ ShutsDown s s' → s'.wait reply = s.wait reply
  /-- When a flush is acknowledged, all writes sent before it are answered: they
  are durable or were rejected. -/
  flushes : ∀ w reply ack, s.worker = .replying w reply (.flush (.ok ack)) →
    reaches ack.durableThrough ack.throughSequence = true ∧
      ∀ write k, .request (.write write) k ∈ s.sent → k < reply →
        ∃ result, (k, .write result) ∈ s.replies ∧ ((∃ e, result = .error (.rejected e)) ∨
          (∃ ack', result = .ok ack') ∧ reaches
            (w.backend.ingressWatermarks write.identity.sourceId).durableThrough
            write.identity.sequence = true)
  failStop : ∀ w poison, s.worker.writer = some w → w.poison = some poison →
    s.health.state ≠ .running ∧ ∀ s', Relation.ReflTransGen Step s s' → Stopped poison s s'

namespace Invariant

variable (h : Invariant s)

include h

omit [FileSizes]

theorem waiting_le : (requests s.channel).length ≤ s.usage.queued := by
  rw [h.counts.usage]
  change _ ≤ s.slots.length
  simp only [Runtime.slots, length_append]
  omega

theorem room {r : Submission} (hgate : s.gate = some (.counted r)) :
    s.sendError ≠ some .overloaded := by
  obtain ⟨taken, hserved⟩ := h.served
  rw [sendError]
  split
  · exact fun hclosed => by cases hclosed
  split
  · next hfull =>
    -- the reserved slot and those in the channel are within the capacity
    have hqueued : s.slots.length ≤ s.config.queueCapacity := by
      have hle := h.counts.queued_le
      rwa [h.counts.usage] at hle
    have hnone : Command.shutdown ∉ s.channel := by
      intro hmem
      refine h.gated.not_sent_of_passed hgate rfl ?_
      rw [hserved.sent]
      exact mem_append_right _ hmem
    simp only [Runtime.slots, hgate, Option.map_some, Option.getD_some, Holder.slots,
      length_append, length_singleton, length_requests hnone] at hqueued
    omega
  · exact fun hnone => by cases hnone

theorem drained (hchannel : s.channel = []) (hworker : s.worker.inHand = [])
    (hgate : s.gate = none) : s.usage = {} := by
  have hslots : s.worker.slots = [] := by
    cases hw : s.worker <;> simp_all [Worker.inHand, Worker.slots]
  rw [h.counts.usage, Runtime.slots, hslots, hchannel, hgate]
  rfl

theorem order : (s.calls.filterMap BackendCall.reply?).Sublist (tickets s.sent) := by
  obtain ⟨taken, hserved⟩ := h.served
  rw [hserved.tickets_sent]
  refine (hserved.calls.trans ?_).trans (sublist_append_left _ _)
  refine (List.Sublist.refl _).append ?_
  cases s.worker <;> simp [Worker.begun, Worker.inHand]

theorem acknowledged {w : Writer} {reply : Nat} {ack : ShadowFlushAck}
    (hworker : s.worker = .replying w reply (.flush (.ok ack))) :
    (w.poison = none →
      w.backend.Accounts (s.replies.map Prod.snd ++ [.flush (.ok ack)])) ∧ w.poison = none ∧
      w.backend.Synced ∧ reaches ack.durableThrough ack.throughSequence = true := by
  have hcovering := h.covering
  rw [Covering, hworker] at hcovering
  exact ⟨hcovering.1, hcovering.2 ack rfl⟩

theorem flushes {w : Writer} {reply : Nat} {ack : ShadowFlushAck}
    (hworker : s.worker = .replying w reply (.flush (.ok ack))) {write : ShadowWrite} {k : Nat}
    (hsent : .request (.write write) k ∈ s.sent) (hlt : k < reply) :
    ∃ result, (k, .write result) ∈ s.replies ∧ ((∃ e, result = .error (.rejected e)) ∨
      (∃ ack', result = .ok ack') ∧ reaches
        (w.backend.ingressWatermarks write.identity.sourceId).durableThrough
        write.identity.sequence = true) := by
  obtain ⟨taken, hserved⟩ := h.served
  obtain ⟨haccounts, hpoison, hsynced, -⟩ := h.acknowledged hworker
  -- the tickets increase, so a smaller one than that in hand is answered
  have hanswered : k ∈ s.replies.map Prod.fst := by
    have hmem := mem_tickets.mpr ⟨_, hsent⟩
    have hincreasing := h.numbered.increasing
    rw [hserved.tickets_sent, hworker] at hmem hincreasing
    rw [append_assoc, mem_append] at hmem
    rcases hmem with hold | hlater
    · exact hold
    · have hle : reply ≤ k := by
        rcases mem_cons.mp hlater with heq | hchannel
        · exact heq.ge
        · exact ((pairwise_append.mp hincreasing).2.2 reply (by simp [Worker.inHand]) k
            hchannel).le
      omega
  obtain ⟨⟨k', answer⟩, hmem, rfl⟩ := mem_map.mp hanswered
  obtain ⟨r, hr, hanswers⟩ := h.answered.replies k' answer hmem
  obtain rfl := request_unique h.numbered.increasing hsent hr
  obtain ⟨hdefinite, hcovers⟩ := (haccounts hpoison).acks answer
    (mem_append_left _ (mem_map_of_mem hmem))
  cases answer with
  | flush result => exact hanswers.elim
  | write result =>
    refine ⟨result, hmem, ?_⟩
    cases result with
    | error e =>
      cases e with
      | rejected e => exact .inl ⟨e, rfl⟩
      | _ => cases hdefinite
    | ok ack' =>
      refine .inr ⟨⟨ack', rfl⟩, ?_⟩
      obtain ⟨last, hlast, hle⟩ := hcovers ack' rfl
      rw [hanswers ack' rfl] at hlast hle
      change (w.backend.handle.ingressDurableSequences[write.identity.sourceId]?).any _ = true
      rw [hsynced, hlast]
      exact decide_eq_true hle

end Invariant

theorem Invariant.stopped (h : Invariant s) {w : Writer} {poison : WorkerPoison}
    (hworker : s.worker.writer = some w) (hpoison : w.poison = some poison)
    (hsteps : Relation.ReflTransGen Step s s') : Stopped poison s s' := by
  have hboth : Invariant s' ∧ Stopped poison s s' := by
    induction hsteps with
    | refl =>
      refine ⟨h, .refl fun w' hw' => ?_⟩
      obtain rfl := Option.some.inj (hworker.symm.trans hw')
      exact hpoison
    | tail _ hstep ih => exact ⟨ih.1.step hstep, ih.2.step ih.1.marked ih.1.answered hstep⟩
  exact hboth.2

theorem Reachable.disciplined (hreachable : Reachable s) : Disciplined s := by
  have h := hreachable.invariant
  obtain ⟨taken, hserved⟩ := h.served
  exact {
    queued_le := h.counts.queued_le
    points_le := h.counts.points_le
    waiting_le := h.waiting_le
    room := fun r hgate => h.room hgate
    slots := h.counts.usage
    drained := h.drained
    submissions := ⟨h.numbered.outcomes, h.numbered.increasing⟩
    order := h.order
    called := h.reported.replies
    replied := hserved.tickets_sent.symm
    progress := fun reply hsent halive => by
      by_cases hreply : reply ∈ s.replies.map Prod.fst
      · exact .inl hreply
      refine .inr ⟨?_, fun s' hstep => hstep.wait_lt hserved h.gated hsent hreply,
        fun s' hstep => (hstep.elim Submits.outside ShutsDown.outside).wait_eq hserved hsent hreply⟩
      · have hpending := hserved.pending hsent hreply
        refine exists_works s ?_ ?_
        · cases hworker : s.worker with
          | stopped =>
            rw [hserved.channel_eq_nil h.gated (by rw [hworker]; rfl), hworker] at hpending
            rcases hpending with hnone | hnone <;> cases hnone
          | died lost => exact absurd hworker (halive lost)
          | _ => rfl
        · rcases hpending with hinHand | hchannel
          · refine .inr fun w hworker => ?_
            rw [hworker] at hinHand
            cases hinHand
          · refine .inl fun hnil => ?_
            rw [hnil] at hchannel
            cases hchannel
    flushes := fun w reply ack hworker =>
      ⟨(h.acknowledged hworker).2.2.2, fun _ _ hsent hlt =>
        h.flushes hworker hsent hlt⟩
    failStop := fun w poison hworker hpoison =>
      ⟨h.marked.state w hworker (by rw [hpoison]; exact nofun), fun _ hsteps =>
        h.stopped hworker hpoison hsteps⟩ }

/-! ## Requests that are served -/

/-- Nobody is at the gate, and the worker waits for its next command. -/
structure Idle (s : Runtime) (w : Writer) : Prop where
  gate : s.gate = none
  running : s.health.state = .running
  usage : s.usage = {}
  channel : s.channel = []
  worker : s.worker = .receiving w
  poison : w.poison = none
  capacity : s.config.queueCapacity ≠ 0
  interval : s.config.maintenanceInterval = none

/-- The worker of an idle runtime has taken a request in hand. -/
def inService (s : Runtime) (w : Writer) (r : Submission) : Runtime :=
  { s with
    health := countAccepted s.health r
    worker := .processing w r s.nextReply
    nextReply := s.nextReply + 1
    sent := s.sent ++ [.request r s.nextReply]
    outcomes := s.outcomes ++ [(r, .ok s.nextReply)] }

variable {w : Writer} {b : Backend}

/-- A request within the point budget reaches the worker of an idle runtime. -/
theorem Idle.takes (h : s.Idle w) {r : Submission} (hpoints : r.points ≤ s.config.maxQueuedPoints)
    (hsmall : r.points < 2 ^ 64) : Relation.ReflTransGen Step s (s.inService w r) := by
  obtain ⟨config, health, usage, gate, channel, worker, join, nextReply, sent, calls, replies,
    outcomes, report⟩ := s
  obtain ⟨rfl, hrunning, rfl, rfl, rfl, -, hcapacity, -⟩ := h
  have hone : 1 ≤ config.queueCapacity := Nat.one_le_iff_ne_zero.mpr hcapacity
  have hreserve : QueueUsage.reserve {} config.queueCapacity config.maxQueuedPoints r.points =
      .ok ⟨1, r.points⟩ := by
    simp only [QueueUsage.reserve, Nat.zero_add]
    rw [if_neg (by omega), if_neg (Nat.not_lt.mpr hone), if_neg (Nat.not_le.mpr hsmall),
      if_neg (Nat.not_lt.mpr hpoints)]
  have hrefusal : health.refusal = none := by rw [HealthState.refusal, hrunning]
  refine .head (.submits (.enter r rfl)) <| .head (.submits (.accept rfl hrefusal)) <|
    .head (.submits (.reserve rfl hreserve)) <| .head (.submits (.count rfl)) <|
    .head (.submits (.send rfl ?_)) <| .head (.works (.receive rfl rfl)) ?_
  · rw [sendError, if_neg (by simp [Worker.gone, Worker.writer]), if_neg]
    exact Nat.not_le.mpr hone
  -- the slot is given back
  have hrelease : QueueUsage.release ⟨1, r.points⟩ r.points = {} := by
    rw [QueueUsage.release, Nat.sub_self, Nat.sub_self]
  have hlast : Works _ _ := .release (s := { inService ⟨config, health, ⟨1, r.points⟩, none, [],
    .receiving w, join, nextReply, sent, calls, replies, outcomes, report⟩ w r with
      worker := .releasing w r nextReply }) rfl
  simp only [inService, hrelease] at hlast
  exact .single (.works hlast)

/-- A write that the storage commits is acknowledged with its receipt. -/
theorem Idle.write (h : s.Idle w) (write : ShadowWrite) (io : WriteIo) {commit : Commit}
    (hpoints : write.transaction.pointCount ≤ s.config.maxQueuedPoints)
    (hsmall : write.transaction.pointCount < 2 ^ 64)
    (hcommit : w.backend.commitIngress write.identity write.transaction io = (.ok commit, b)) :
    ∃ s' ack, Relation.ReflTransGen Step s s' ∧ s'.Idle { w with backend := b } ∧
      ack.commit = commit ∧ s'.config = s.config ∧
      s'.nextReply = s.nextReply + 1 ∧
      s'.replies = s.replies ++ [(s.nextReply, .write (.ok ack))] := by
  have hcall : guarded (w.backend.commitIngress write.identity write.transaction) (.runs io) =
      (.returned (.ok commit), b) := by
    rw [guarded, hcommit]
  have hdue : maintenanceDue s.config w.lastMaintenance 0 = false := by
    rw [maintenanceDue, h.interval]
  have hpoison : ({ w with backend := b, poison := none } : Writer) = { w with backend := b } := by
    rw [← h.poison]
  refine ⟨_, _, (h.takes (r := .write write) hpoints hsmall).trans <|
    .head (.works (.commit (.runs io) rfl h.poison hcall)) <|
    .head (.works (.acknowledge {} rfl rfl)) <| .head (.works (.rest 0 rfl hdue)) <|
    .single (.works (.reply rfl)), ?_, rfl, rfl, rfl, rfl⟩
  refine ⟨h.gate, ?_, h.usage, h.channel, congrArg Worker.receiving hpoison, h.poison, h.capacity,
    h.interval⟩
  exact (state_refreshStoreSnapshot ..).trans h.running

/-- So is a flush of what was accepted. -/
theorem Idle.flush (h : s.Idle w) {sourceId : U128} {throughSequence : UInt64} (io : Io)
    (haccepted : reaches (w.backend.ingressWatermarks sourceId).acceptedThrough throughSequence =
      true) (hflush : w.backend.flush io = (.ok (), b)) :
    ∃ s' ack, Relation.ReflTransGen Step s s' ∧ s'.Idle { w with backend := b } ∧
      s'.replies = s.replies ++ [(s.nextReply, .flush (.ok ack))] := by
  have hcall : guarded w.backend.flush (.runs io) = (.returned (.ok ()), b) := by
    rw [guarded, hflush]
  have hpoison : ({ w with backend := b, poison := none } : Writer) = { w with backend := b } := by
    rw [← h.poison]
  refine ⟨_, _, (h.takes (r := .flush sourceId throughSequence) (Nat.zero_le _)
    (Nat.two_pow_pos 64)).trans <|
    .head (.works (.flush (.runs io) rfl h.poison haccepted hcall)) <|
    .head (.works (.settleFlush {} rfl rfl)) <| .single (.works (.reply rfl)), ?_, rfl⟩
  refine ⟨h.gate, ?_, h.usage, h.channel, congrArg Worker.receiving hpoison, h.poison, h.capacity,
    h.interval⟩
  exact (state_refreshStoreSnapshot ..).trans ((state_foldl_observeSource ..).trans h.running)

end Runtime

/-- The write of the one batch of `siteBatch`. -/
def siteWrite : ShadowWrite := ⟨⟨1, 5, 105⟩, siteBatch, rfl⟩

set_option maxRecDepth 20000 in
/-- A new runtime over an empty database serves a write and the flush behind it. -/
theorem disciplined_writeAndFlush :
    letI := Jiff.withoutZones
    letI := FileSizes.logOnly
    ∃ (s : Runtime) (ack : ShadowAck) (done : ShadowFlushAck), s.Reachable ∧
      s.replies = [(0, .write (.ok ack)), (1, .flush (.ok done))] ∧ s.Disciplined := by
  let _ := Jiff.withoutZones
  let _ := FileSizes.logOnly
  obtain ⟨db, hopen, hrun⟩ := Check.map_eq_ok.mp
    (show (Database.openMode {} false [] .empty {}).1.map (fun db =>
        let written := db.commitIngress ⟨1, 5, 105⟩ siteBatch {}
        (db.readOnly, written.1.map fun _ => (),
          reaches (written.2.ingressWatermarks 1).acceptedThrough 5, (written.2.flush {}).1)) =
      .ok (false, .ok (), true, .ok ()) by decide +kernel)
  simp only [Prod.mk.injEq] at hrun
  obtain ⟨hwritable, hok, haccepted, hflushed⟩ := hrun
  obtain ⟨commit, hcommit, -⟩ := Check.map_eq_ok.mp hok
  have hstart : Runtime.startDatabase db {} {} = .ok (Runtime.initial (.database db) {} {}) := by
    rw [Runtime.startDatabase, hwritable]
    rfl
  have hidle : (Runtime.initial (.database db) {} {}).Idle { backend := .database db } :=
    ⟨rfl, rfl, rfl, rfl, rfl, rfl, Nat.succ_ne_zero 63, rfl⟩
  obtain ⟨s, ack, hwrite, hidle, -, -, hnext, hreplies⟩ := hidle.write siteWrite {}
    (b := .database (db.commitIngress ⟨1, 5, 105⟩ siteBatch {}).2) (Nat.zero_le _)
    (Nat.two_pow_pos 64) (Prod.ext hcommit rfl)
  obtain ⟨s', done, hflush, -, hreplies'⟩ := hidle.flush {} haccepted
    (b := .database ((db.commitIngress ⟨1, 5, 105⟩ siteBatch {}).2.flush {}).2)
    (Prod.ext hflushed rfl)
  have hreachable : s'.Reachable :=
    (Runtime.Reachable.started (.database (.opened (Prod.ext hopen rfl)) hstart)).steps
      (hwrite.trans hflush)
  refine ⟨s', ack, done, hreachable, ?_, hreachable.disciplined⟩
  rw [hreplies', hreplies, hnext]
  rfl

end Ftwdb.Shadow
