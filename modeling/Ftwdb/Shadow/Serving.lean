import Ftwdb.Shadow.Queue

/-!
# What the worker does with the commands

Reply channels are numbered in the order of the sends.  The worker takes the
commands in that order, and the answered ones, the one in hand and those in the
channel are all that were sent (`Served`).  It calls the storage for a command at
most once, in the same order, and not at all once it is poisoned (`Stopped`).
-/

namespace Ftwdb.Shadow

open List

/-- The request that the worker has taken and not answered. -/
def Worker.inHand : Worker → List Nat
  | .releasing _ _ reply | .processing _ _ reply | .settlingWrite _ _ reply _
  | .settlingFlush _ _ _ reply _ | .maintaining _ reply _ | .replying _ reply _ | .died reply =>
    [reply]
  | .receiving _ | .closing _ | .stopped => []

/-- The same, once its processing has begun. -/
def Worker.begun : Worker → List Nat
  | .settlingWrite _ _ reply _ | .settlingFlush _ _ _ reply _ | .maintaining _ reply _
  | .replying _ reply _ | .died reply => [reply]
  | _ => []

/-- The worker between a call of the storage and the answer to it. -/
def Worker.active : Worker → Option Writer
  | .settlingWrite w _ _ _ | .settlingFlush w _ _ _ _ | .maintaining w _ _ => some w
  | _ => none

/-- The worker has left its loop. -/
def Worker.closed : Worker → Bool
  | .closing _ | .stopped => true
  | _ => false

/-- The ticket that a call answers. -/
def BackendCall.reply? : BackendCall → Option Nat
  | .commitIngress reply | .flush reply => some reply
  | .maintenance | .close => none

/-- The answer is one to the request. -/
def Answer.Answers : Answer → Submission → Prop
  | .write result, .write w => ∀ ack, result = .ok ack → ack.identity = w.identity
  | .flush result, .flush sourceId throughSequence =>
    ∀ ack, result = .ok ack → ack.sourceId = sourceId ∧ ack.throughSequence = throughSequence
  | _, _ => False

/-- The call of the storage that an answer reports on. -/
def Answer.call? (reply : Nat) : Answer → Option BackendCall
  | .write (.ok _) | .write (.error (.rejected _)) | .write (.error (.writer _)) =>
    some (.commitIngress reply)
  | .flush (.ok _) | .flush (.error (.rejected _)) | .flush (.error (.writer _)) =>
    some (.flush reply)
  | _ => none

/-- The call that the worker is busy with or about to report on. -/
def Worker.call? : Worker → Option BackendCall
  | .settlingWrite _ _ reply _ | .maintaining _ reply _ => some (.commitIngress reply)
  | .settlingFlush _ _ _ reply _ => some (.flush reply)
  | .replying _ reply answer => answer.call? reply
  | _ => none

/-- The worker is at work on a command that was sent. -/
def Worker.Serves (sent : List Command) : Worker → Prop
  | .releasing _ r reply | .processing _ r reply => .request r reply ∈ sent
  | .settlingWrite _ write reply _ => .request (.write write) reply ∈ sent
  | .settlingFlush _ sourceId throughSequence reply _ =>
    .request (.flush sourceId throughSequence) reply ∈ sent
  | .maintaining _ reply ack =>
    ∃ r, .request r reply ∈ sent ∧ (Answer.write (.ok ack)).Answers r
  | .replying _ reply answer => ∃ r, .request r reply ∈ sent ∧ answer.Answers r
  | .receiving _ | .closing _ | .stopped | .died _ => True

/-- The submission behind an outcome, if it was successful. -/
def submitted : Submission × Except SubmitError Nat → Option (Submission × Nat)
  | (r, .ok reply) => some (r, reply)
  | (_, .error _) => none

/-- The submission of a command with its ticket. -/
def Command.submission? : Command → Option (Submission × Nat)
  | .request r reply => some (r, reply)
  | .shutdown => none

namespace Runtime

variable {s s' : Runtime} {taken : List Command}

/-! ## The order of the commands -/

/-- Reply channels are numbered as the commands are sent, and the producers were
told of just these. -/
structure Numbered (s : Runtime) : Prop where
  increasing : (tickets s.sent).Pairwise (· < ·)
  fresh : ∀ reply ∈ tickets s.sent, reply < s.nextReply
  outcomes : s.outcomes.filterMap submitted = s.sent.filterMap Command.submission?

theorem Numbered.send (h : Numbered s) (r : Submission) :
    Numbered (({ s with nextReply := s.nextReply + 1 }.send (.request r s.nextReply)).answered r
      (.ok s.nextReply)) where
  increasing := by
    change (tickets (s.sent ++ [.request r s.nextReply])).Pairwise (· < ·)
    rw [tickets_append, pairwise_append]
    refine ⟨h.increasing, pairwise_singleton .., fun reply hreply n hn => ?_⟩
    obtain rfl := mem_singleton.mp hn
    exact h.fresh reply hreply
  fresh reply hreply := by
    change reply ∈ tickets (s.sent ++ [.request r s.nextReply]) at hreply
    rw [tickets_append, mem_append] at hreply
    rcases hreply with hold | hnew
    · exact Nat.lt_succ_of_lt (h.fresh reply hold)
    · obtain rfl := mem_singleton.mp hnew
      exact Nat.lt_succ_self _
  outcomes := by
    change List.filterMap submitted (s.outcomes ++ [(r, .ok s.nextReply)]) =
      List.filterMap Command.submission? (s.sent ++ [.request r s.nextReply])
    rw [filterMap_append, filterMap_append, h.outcomes]
    rfl

/-- An outcome that is an error. -/
theorem Numbered.refused (h : Numbered s) (r : Submission) (e : SubmitError) :
    List.filterMap submitted (s.outcomes ++ [(r, .error e)]) =
      s.sent.filterMap Command.submission? := by
  rw [filterMap_append, h.outcomes]
  exact append_nil _

theorem Numbered.step [Jiff] [FileSizes] (h : Numbered s) (hstep : Step s s') : Numbered s' := by
  cases hstep with
  | submits hstep =>
    cases hstep with
    | blocked _ _ | refuse _ _ | overload _ _ | giveUp _ =>
      exact ⟨h.increasing, h.fresh, h.refused _ _⟩
    | send _ _ => exact h.send _
    | sendFails _ _ =>
      exact ⟨h.increasing, fun reply hreply => Nat.lt_succ_of_lt (h.fresh reply hreply),
        h.outcomes⟩
    | _ => exact ⟨h.increasing, h.fresh, h.outcomes⟩
  | works hstep | dies hstep => cases hstep <;> exact ⟨h.increasing, h.fresh, h.outcomes⟩
  | shutsDown hstep =>
    cases hstep with
    | send _ _ =>
      have htickets : tickets (s.sent ++ [.shutdown]) = tickets s.sent := by simp
      have hsame : (s.sent ++ [Command.shutdown]).filterMap Command.submission? =
          s.sent.filterMap Command.submission? := by
        rw [filterMap_append]
        exact append_nil _
      exact ⟨htickets ▸ h.increasing, htickets ▸ h.fresh, h.outcomes.trans hsame.symm⟩
    | _ => exact ⟨h.increasing, h.fresh, h.outcomes⟩

/-! ## Commands taken and answered -/

/-- The worker has taken `taken`, and answered all of it but the request in hand. -/
structure Served (s : Runtime) (taken : List Command) : Prop where
  sent : s.sent = taken ++ s.channel
  replies : s.replies.map Prod.fst ++ s.worker.inHand = tickets taken
  closed : s.worker.closed = true ↔ Command.shutdown ∈ taken
  calls : (s.calls.filterMap BackendCall.reply?).Sublist
    (s.replies.map Prod.fst ++ s.worker.begun)

namespace Served

variable {worker worker' : Worker} {calls : List BackendCall}

/-- A step of the worker on the request in hand, with at most the one call. -/
theorem working (h : Served s taken) {health : HealthState} {usage : QueueUsage}
    {report : Option (Except ShutdownError Unit)} (hworker : s.worker = worker)
    (hinHand : worker'.inHand = worker.inHand) (hclosed : worker'.closed = worker.closed)
    (hcalls : (calls.filterMap BackendCall.reply?).Sublist
      (s.replies.map Prod.fst ++ worker'.begun)) :
    Served { s with
      worker := worker'
      calls := calls
      health := health
      usage := usage
      report := report } taken := by
  subst hworker
  refine ⟨h.sent, ?_, ?_, hcalls⟩
  · change s.replies.map Prod.fst ++ worker'.inHand = _
    rw [hinHand, h.replies]
  · change worker'.closed = true ↔ _
    rw [hclosed, h.closed]

/-- A call on behalf of no request. -/
theorem calls_other (h : Served s taken) (hworker : s.worker = worker)
    (hbegun : worker'.begun = worker.begun) (hcalls : calls.filterMap BackendCall.reply? = []) :
    ((s.calls ++ calls).filterMap BackendCall.reply?).Sublist
      (s.replies.map Prod.fst ++ worker'.begun) := by
  subst hworker
  rw [filterMap_append, hcalls, append_nil, hbegun]
  exact h.calls

/-- Before a call nothing has begun. -/
theorem calls_first (h : Served s taken) (hworker : s.worker = worker)
    (hbegun : worker.begun = [])
    (hcalls : (calls.filterMap BackendCall.reply?).Sublist worker'.begun) :
    ((s.calls ++ calls).filterMap BackendCall.reply?).Sublist
      (s.replies.map Prod.fst ++ worker'.begun) := by
  subst hworker
  have hbefore := h.calls
  rw [hbegun, append_nil] at hbefore
  rw [filterMap_append]
  exact hbefore.append hcalls

/-- The worker takes a command from the channel. -/
theorem receive (h : Served s taken) {w : Writer} {c : Command} {rest : List Command}
    (hworker : s.worker = .receiving w) (hchannel : s.channel = c :: rest)
    (hinHand : worker.inHand = tickets [c]) (hclosed : worker.closed = true ↔ c = .shutdown)
    (hbegun : worker.begun = []) :
    Served { s with channel := rest, worker := worker } (taken ++ [c]) := by
  have hreplies := h.replies
  have hopen := h.closed
  have hcalls := h.calls
  rw [hworker] at hreplies hopen hcalls
  refine ⟨?_, ?_, ?_, ?_⟩
  · rw [h.sent, hchannel, append_assoc]
    rfl
  · change s.replies.map Prod.fst ++ worker.inHand = _
    rw [tickets_append, ← hreplies, hinHand]
    simp [Worker.inHand]
  · change worker.closed = true ↔ _
    rw [hclosed, mem_append, ← hopen, mem_singleton]
    simp [Worker.closed, eq_comm]
  · change List.Sublist _ (s.replies.map Prod.fst ++ worker.begun)
    rw [hbegun]
    exact hcalls

theorem works [Jiff] [FileSizes] (h : Served s taken) (hstep : Works s s') :
    ∃ taken', Served s' taken' := by
  have hnone := s.calls.append_nil
  cases hstep with
  | receive hworker hchannel | receiveShutdown hworker hchannel =>
    exact ⟨_, h.receive hworker hchannel rfl (by simp [Worker.closed]) rfl⟩
  | release hworker | refuse hworker _ | notAccepted hworker _ _ _ =>
    refine ⟨taken, h.working hworker rfl rfl ?_⟩
    exact hnone ▸ h.calls_first hworker rfl (nil_sublist _)
  | commit _ hworker _ _ | flush _ hworker _ _ _ =>
    exact ⟨taken, h.working hworker rfl rfl (h.calls_first hworker rfl (.refl _))⟩
  | maintain _ hworker _ _ | close _ hworker _ _ | closeFails _ hworker _ _
  | closePanics _ hworker _ =>
    exact ⟨taken, h.working hworker rfl rfl (h.calls_other hworker rfl rfl)⟩
  | acknowledge _ hworker _ | fail _ hworker _ | settleFlush _ hworker _ | rest _ hworker _
  | closePoisoned hworker _ =>
    exact ⟨taken, h.working hworker rfl rfl (hnone ▸ h.calls_other hworker rfl rfl)⟩
  | @reply w reply answer hworker =>
    have hreplies := h.replies
    have hcalls := h.calls
    have hclosed := h.closed
    rw [hworker] at hreplies hcalls hclosed
    refine ⟨taken, h.sent, ?_, hclosed, ?_⟩
    · rw [map_append]
      exact (append_nil _).trans hreplies
    · rw [map_append]
      exact hcalls.trans (by simp [Worker.begun])

theorem step [Jiff] [FileSizes] (h : Served s taken) (hstep : Step s s') :
    ∃ taken', Served s' taken' := by
  rcases hstep.cases with hout | hworks | hdies
  · obtain ⟨cs, hsent, hchannel⟩ := hout.sent
    refine ⟨taken, ?_, ?_, ?_, ?_⟩
    · rw [hsent, hchannel, h.sent, append_assoc]
    · rw [hout.replies, hout.worker, h.replies]
    · rw [hout.worker, h.closed]
    · rw [hout.calls, hout.replies, hout.worker]
      exact h.calls
  · exact h.works hworks
  · cases hdies with
    | @die reply hreply =>
      have hsame : s.worker.inHand = [reply] ∧ s.worker.closed = false ∧
          s.worker.begun.Sublist [reply] := by
        cases hworker : s.worker <;> simp_all [Worker.unguarded, Worker.inHand, Worker.closed,
          Worker.begun]
      refine ⟨taken, h.working rfl hsame.1.symm hsame.2.1.symm ?_⟩
      exact h.calls.trans ((List.Sublist.refl _).append hsame.2.2)

end Served

/-! ## The poisoned worker -/

/-- Before the outcome of a call is settled the worker is not poisoned, and a
poisoned worker has left its mark in the health record. -/
structure Marked (s : Runtime) : Prop where
  active : ∀ w, s.worker.active = some w → w.poison = none
  state : ∀ w, s.worker.writer = some w → w.poison ≠ none → s.health.state ≠ .running

namespace Marked

theorem works [Jiff] [FileSizes] (h : Marked s) (hstep : Works s s') : Marked s' := by
  have hrunning := hstep.running
  cases hstep with
  | commit _ _ hpoison _ | flush _ _ hpoison _ _ =>
    refine ⟨fun w hw => ?_, fun w hw hsome => ?_⟩
    · cases hw
      exact hpoison
    · cases hw
      exact absurd hpoison hsome
  | acknowledge _ hworker heq =>
    have hnone := (acknowledged_of_settleWrite heq).1
    refine ⟨fun w' hw' => ?_, fun w' hw' hpoison => ?_⟩
    · cases hw'
      exact hnone
    · cases hw'
      exact absurd hnone hpoison
  | fail _ _ heq =>
    refine ⟨fun w' hw' => (nomatch hw'), fun w' hw' hpoison hstate => ?_⟩
    cases hw'
    exact hpoison (running_of_settleWrite heq hstate).2
  | settleFlush _ _ heq =>
    refine ⟨fun w' hw' => (nomatch hw'), fun w' hw' hpoison hstate => ?_⟩
    cases hw'
    exact hpoison (running_of_settleFlush heq hstate).2
  | @maintain w w' _ _ _ _ hworker _ heq =>
    refine ⟨fun w' hw' => (nomatch hw'), fun w'' hw'' hpoison hstate => ?_⟩
    cases hw''
    have hnone := h.active w (by rw [hworker]; rfl)
    exact hpoison ((running_of_backgroundMaintenance heq hstate).2.trans hnone)
  | _ =>
    -- the worker is as it was, and nothing is settled
    refine ⟨fun w hw => (nomatch hw), fun w hw hpoison hstate => ?_⟩
    refine h.state w ?_ hpoison (hrunning hstate)
    simp_all [Worker.writer]

theorem step [Jiff] [FileSizes] (h : Marked s) (hstep : Step s s') : Marked s' := by
  rcases hstep.cases with hout | hworks | hdies
  · refine ⟨fun w hw => h.active w (hout.worker ▸ hw), fun w hw hpoison hrunning => ?_⟩
    exact h.state w (hout.worker ▸ hw) hpoison (hout.running hrunning)
  · exact h.works hworks
  · cases hdies
    exact ⟨fun w hw => (nomatch hw), fun w hw => (nomatch hw)⟩

end Marked

/-! ## Answers -/

/-- Every answer is one to the request of its reply channel. -/
structure Answered (s : Runtime) : Prop where
  replies : ∀ reply answer, (reply, answer) ∈ s.replies →
    ∃ r, .request r reply ∈ s.sent ∧ answer.Answers r
  worker : s.worker.Serves s.sent

theorem serves_append {worker : Worker} {sent : List Command} (h : worker.Serves sent)
    (cs : List Command) : worker.Serves (sent ++ cs) := by
  cases worker with
  | releasing _ _ _ | processing _ _ _ | settlingWrite _ _ _ _ | settlingFlush _ _ _ _ _ =>
    exact mem_append_left _ h
  | maintaining _ _ _ | replying _ _ _ =>
    obtain ⟨r, hr, hanswers⟩ := h
    exact ⟨r, mem_append_left _ hr, hanswers⟩
  | _ => trivial

namespace Answered

theorem works [Jiff] [FileSizes] (h : Answered s) (hserved : Served s taken)
    (hstep : Works s s') : Answered s' := by
  have hserves := h.worker
  cases hstep with
  | @receive w r reply rest hworker hchannel =>
    refine ⟨h.replies, ?_⟩
    change .request r reply ∈ s.sent
    rw [hserved.sent, hchannel]
    simp
  | release hworker | commit _ hworker _ _ | flush _ hworker _ _ _ | rest _ hworker _
  | maintain _ hworker _ _ =>
    rw [hworker] at hserves
    exact ⟨h.replies, hserves⟩
  | @refuse w r reply poison hworker _ =>
    rw [hworker] at hserves
    refine ⟨h.replies, r, hserves, ?_⟩
    cases r with
    | write _ | flush _ _ => exact fun ack hack => nomatch hack
  | notAccepted hworker _ _ _ | fail _ hworker _ =>
    rw [hworker] at hserves
    exact ⟨h.replies, _, hserves, fun ack hack => nomatch hack⟩
  | acknowledge _ hworker heq =>
    rw [hworker] at hserves
    refine ⟨h.replies, _, hserves, fun ack' hack => ?_⟩
    cases hack
    exact (acknowledged_of_settleWrite heq).2.1
  | settleFlush _ hworker heq =>
    rw [hworker] at hserves
    refine ⟨h.replies, _, hserves, fun ack hack => ?_⟩
    subst hack
    rcases settleFlush_cases heq with ⟨-, -, ⟨-, hok⟩ | ⟨e, -, he⟩⟩ | ⟨-, -, e, he⟩
    · cases hok
      exact ⟨rfl, rfl⟩
    · cases he
    · cases he
  | @reply w reply answer hworker =>
    rw [hworker] at hserves
    refine ⟨fun reply' answer' hmem => ?_, trivial⟩
    rcases mem_append.mp hmem with hold | hnew
    · exact h.replies reply' answer' hold
    · obtain ⟨rfl, rfl⟩ := Prod.mk.inj (mem_singleton.mp hnew)
      exact hserves
  | _ => exact ⟨h.replies, trivial⟩

theorem step [Jiff] [FileSizes] (h : Answered s) (hserved : Served s taken)
    (hstep : Step s s') : Answered s' := by
  rcases hstep.cases with hout | hworks | hdies
  · obtain ⟨cs, hsent, -⟩ := hout.sent
    refine ⟨fun reply answer hmem => ?_, ?_⟩
    · rw [hout.replies] at hmem
      obtain ⟨r, hr, hanswers⟩ := h.replies reply answer hmem
      exact ⟨r, hsent ▸ mem_append_left _ hr, hanswers⟩
    · rw [hsent, hout.worker]
      exact serves_append h.worker cs
  · exact h.works hserved hworks
  · cases hdies
    exact ⟨h.replies, trivial⟩

end Answered

/-- What an answer reports on was called. -/
structure Reported (s : Runtime) : Prop where
  replies : ∀ reply answer, (reply, answer) ∈ s.replies →
    ∀ call, answer.call? reply = some call → call ∈ s.calls
  worker : ∀ call, s.worker.call? = some call → call ∈ s.calls

namespace Reported

/-- More is called, and nothing answered. -/
theorem more (h : Reported s) (hreplies : s'.replies = s.replies) {calls : List BackendCall}
    (hcalls : s'.calls = s.calls ++ calls)
    (hworker : ∀ call, s'.worker.call? = some call → s.worker.call? = some call ∨ call ∈ calls) :
    Reported s' where
  replies reply answer hmem call hcall := by
    rw [hreplies] at hmem
    rw [hcalls]
    exact mem_append_left _ (h.replies reply answer hmem call hcall)
  worker call hcall := by
    rw [hcalls, mem_append]
    exact (hworker call hcall).imp (h.worker call) id

theorem works [Jiff] [FileSizes] (h : Reported s) (hstep : Works s s') : Reported s' := by
  have hnone := s.calls.append_nil.symm
  cases hstep with
  | commit _ _ _ _ | flush _ _ _ _ _ =>
    refine h.more rfl rfl fun call hcall => .inr ?_
    cases hcall
    exact mem_singleton_self _
  | @refuse w r reply poison _ _ =>
    refine h.more rfl hnone fun call hcall => ?_
    cases r <;> cases poison <;> cases hcall
  | acknowledge _ heq _ | rest _ heq _ =>
    exact h.more rfl hnone fun call hcall => .inl (by rw [heq]; exact hcall)
  | @fail w write reply called e _ _ _ heq _ =>
    refine h.more rfl hnone fun call hcall => .inl ?_
    rw [heq]
    cases e <;> first | exact hcall | cases hcall
  | @settleFlush w _ _ reply called result _ _ _ heq _ =>
    refine h.more rfl hnone fun call hcall => .inl ?_
    rw [heq]
    rcases result with e | ack
    · cases e <;> first | exact hcall | cases hcall
    · exact hcall
  | maintain _ heq _ _ => exact h.more rfl rfl fun call hcall => .inl (by rw [heq]; exact hcall)
  | @reply w reply answer heq =>
    have hworker := h.worker
    rw [heq] at hworker
    refine ⟨fun reply' answer' hmem call hcall => ?_, fun call hcall => nomatch hcall⟩
    rcases mem_append.mp hmem with hold | hnew
    · exact h.replies reply' answer' hold call hcall
    · obtain ⟨rfl, rfl⟩ := Prod.mk.inj (mem_singleton.mp hnew)
      exact hworker call hcall
  | close _ _ _ _ | closeFails _ _ _ _ | closePanics _ _ _ =>
    exact h.more rfl rfl fun call hcall => nomatch hcall
  | _ => exact h.more rfl hnone fun call hcall => nomatch hcall

theorem step [Jiff] [FileSizes] (h : Reported s) (hstep : Step s s') : Reported s' := by
  rcases hstep.cases with hout | hworks | hdies
  · refine h.more hout.replies (hout.calls.trans s.calls.append_nil.symm) ?_
    rw [hout.worker]
    exact fun call hcall => .inl hcall
  · exact h.works hworks
  · cases hdies
    exact ⟨h.replies, fun call hcall => nomatch hcall⟩

end Reported

/-! ## Nothing is called behind a failure -/

/-- What can have happened since `s₀`, where the worker was poisoned: no call, and
refusals for all that was answered since. -/
structure Stopped (p : WorkerPoison) (s₀ s : Runtime) : Prop where
  calls : s.calls = s₀.calls
  poison : ∀ w, s.worker.writer = some w → w.poison = some p
  inHand : ∀ w reply answer, s.worker = .replying w reply answer →
    s₀.worker.inHand = [reply] ∨ ∃ r, .request r reply ∈ s.sent ∧ answer = r.refusal p
  replies : ∀ reply answer, (reply, answer) ∈ s.replies → (reply, answer) ∈ s₀.replies ∨
    s₀.worker.inHand = [reply] ∨ ∃ r, .request r reply ∈ s.sent ∧ answer = r.refusal p

namespace Stopped

variable {p : WorkerPoison} {s₀ : Runtime}

theorem refl (hpoison : ∀ w, s.worker.writer = some w → w.poison = some p) :
    Stopped p s s where
  calls := rfl
  poison := hpoison
  inHand w reply answer hworker := .inl (by rw [hworker]; rfl)
  replies _ _ hmem := .inl hmem

theorem outside (h : Stopped p s₀ s) (hout : Outside s s') : Stopped p s₀ s' := by
  obtain ⟨cs, hsent, -⟩ := hout.sent
  have hmore : ∀ {reply answer}, (∃ r, .request r reply ∈ s.sent ∧ answer = r.refusal p) →
      ∃ r, .request r reply ∈ s'.sent ∧ answer = r.refusal p := by
    rintro reply answer ⟨r, hr, hanswer⟩
    exact ⟨r, hsent ▸ mem_append_left _ hr, hanswer⟩
  refine ⟨hout.calls.trans h.calls, hout.worker ▸ h.poison, fun w reply answer hw => ?_,
    fun reply answer hmem => ?_⟩
  · exact (h.inHand w reply answer (hout.worker ▸ hw)).imp_right hmore
  · exact (h.replies reply answer (hout.replies ▸ hmem)).imp_right (.imp_right hmore)

/-- A poisoned worker is not about to settle a call. -/
theorem not_active (h : Stopped p s₀ s) (hmarked : Marked s) {worker : Worker} {w : Writer}
    (hworker : s.worker = worker) (hactive : worker.active = some w) : False := by
  subst hworker
  have hwriter : s.worker.writer = some w := by
    cases hworker : s.worker <;> simp_all [Worker.active, Worker.writer]
  have hnone := hmarked.active w hactive
  rw [h.poison w hwriter] at hnone
  cases hnone

/-- Nor to make one. -/
theorem not_sound (h : Stopped p s₀ s) {worker : Worker} {w : Writer}
    (hworker : s.worker = worker) (hwriter : worker.writer = some w) (hnone : w.poison = none) :
    False := by
  rw [h.poison w (hworker ▸ hwriter)] at hnone
  cases hnone

theorem works [Jiff] [FileSizes] (h : Stopped p s₀ s) (hmarked : Marked s)
    (hanswered : Answered s) (hstep : Works s s') : Stopped p s₀ s' := by
  have hserves := hanswered.worker
  cases hstep with
  | receive hworker _ | receiveShutdown hworker _ | release hworker =>
    exact ⟨h.calls, fun w hw => h.poison w (by rw [hworker]; exact hw),
      fun _ _ _ hw => (nomatch hw), h.replies⟩
  | @refuse w r reply poison' hworker hpoison =>
    have hsame := h.poison w (by rw [hworker]; rfl)
    obtain rfl := Option.some.inj (hpoison.symm.trans hsame)
    rw [hworker] at hserves
    refine ⟨h.calls, fun w hw => h.poison w (by rw [hworker]; exact hw),
      fun w' reply' answer hw => .inr ?_, h.replies⟩
    obtain ⟨-, rfl, rfl⟩ := by simpa using hw
    exact ⟨r, hserves, rfl⟩
  | commit _ hworker hnone _ | notAccepted hworker hnone _ _ | flush _ hworker hnone _ _
  | close _ hworker hnone _ | closeFails _ hworker hnone _ | closePanics _ hworker hnone =>
    exact (h.not_sound hworker rfl hnone).elim
  | acknowledge _ hworker _ | fail _ hworker _ | settleFlush _ hworker _ | rest _ hworker _
  | maintain _ hworker _ _ => exact (h.not_active hmarked hworker rfl).elim
  | @reply w reply answer hworker =>
    refine ⟨h.calls, fun w hw => h.poison w (by rw [hworker]; exact hw),
      fun _ _ _ hw => (nomatch hw), fun reply' answer' hmem => ?_⟩
    rcases mem_append.mp hmem with hold | hnew
    · exact h.replies reply' answer' hold
    · obtain ⟨rfl, rfl⟩ := Prod.mk.inj (mem_singleton.mp hnew)
      exact .inr (h.inHand w reply' answer' hworker)
  | closePoisoned hworker _ =>
    exact ⟨h.calls, fun w hw => (nomatch hw), fun _ _ _ hw => (nomatch hw), h.replies⟩

theorem step [Jiff] [FileSizes] (h : Stopped p s₀ s) (hmarked : Marked s)
    (hanswered : Answered s) (hstep : Step s s') : Stopped p s₀ s' := by
  rcases hstep.cases with hout | hworks | hdies
  · exact h.outside hout
  · exact h.works hmarked hanswered hworks
  · cases hdies
    exact ⟨h.calls, fun w hw => (nomatch hw), fun _ _ _ hw => (nomatch hw), h.replies⟩

end Stopped

end Runtime

end Ftwdb.Shadow
