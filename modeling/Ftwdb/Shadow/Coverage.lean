import Ftwdb.Shadow.Serving
import Ftwdb.Store.Cursors

/-!
# What a flush acknowledgement covers

As long as nothing has poisoned the worker, the cursor of a source in the storage
stands at or behind every acknowledged write of that source.  A flush that
succeeds makes all cursors durable; when it is acknowledged, every write that was
sent before it has its answer, and is durable or was rejected.
-/

namespace Ftwdb.Shadow

namespace Backend

variable {b b' : Backend}

/-- The cursor of the source is at the identity or behind it. -/
def Covers (b : Backend) (identity : IngressIdentity) : Prop :=
  ∃ last, b.handle.ingressLastSequences[identity.sourceId]? = some last ∧ identity.sequence ≤ last

/-- All accepted cursors are durable. -/
def Synced (b : Backend) : Prop :=
  b.handle.ingressDurableSequences = b.handle.ingressLastSequences

/-- A cursor that moves on still covers what it did. -/
theorem Covers.advance [Jiff] {identity : IngressIdentity} (h : b.Covers identity)
    (hadvances : b.handle.Advances b'.handle) : b'.Covers identity := by
  obtain ⟨last, hlast, hle⟩ := h
  obtain ⟨last', hlast', hle'⟩ := hadvances.cursors _ last hlast
  exact ⟨last', hlast', UInt64.le_trans hle hle'⟩

theorem commitIngress_advances [Jiff] [FileSizes] (h : b.handle.Reachable)
    (identity : IngressIdentity) (t : Transaction) (io : WriteIo) :
    b.handle.Advances (b.commitIngress identity t io).2.handle := by
  cases b with
  | store w =>
    change w.store.database.Advances (w.commitIngress identity t io).2.store.database
    rw [StoreWriter.commitIngress]
    simp only
    split
    · exact .refl h
    · exact Store.commit_advances h ..
  | database db => exact .commit h ..

theorem flush_advances [Jiff] (h : b.handle.Reachable) (io : Io) :
    b.handle.Advances (b.flush io).2.handle := by
  cases b with
  | store w => exact Store.flush_advances h io
  | database db => exact .flush h io

theorem backgroundMaintenance_advances [Jiff] (h : b.handle.Reachable) (nowMicros : Int64)
    (config : ShadowRuntimeConfig) (io : MaintenanceIo) :
    b.handle.Advances (b.backgroundMaintenance nowMicros config io).2.handle := by
  cases b with
  | store w =>
    change w.store.database.Advances (w.backgroundMaintenance nowMicros config io).2.store.database
    have hmaintain := Store.maintain_advances h nowMicros io.maintain
    rw [StoreWriter.backgroundMaintenance]
    split
    · next heq => rwa [heq] at hmaintain
    next store heq =>
    rw [heq] at hmaintain
    split
    · exact hmaintain
    split
    · exact hmaintain
    split
    · exact hmaintain.trans (Store.sealAndReclaim_advances hmaintain.reachable _)
    · exact hmaintain
  | database db => exact .refl h

/-- What is acknowledged is covered. -/
theorem commitIngress_covers [Jiff] [FileSizes] (h : b.handle.Reachable)
    {identity : IngressIdentity} {t : Transaction} {io : WriteIo} {commit : Commit}
    (hcommit : (b.commitIngress identity t io).1 = .ok commit) :
    (b.commitIngress identity t io).2.Covers identity := by
  cases b with
  | store w =>
    change (w.commitIngress identity t io).1 = .ok commit at hcommit
    change (Backend.store (w.commitIngress identity t io).2).Covers identity
    rw [StoreWriter.commitIngress] at hcommit ⊢
    simp only at hcommit ⊢
    split at hcommit
    · cases hcommit
    · exact Store.commit_eq_ok_cursor h rfl (Prod.ext hcommit rfl)
  | database db => exact Database.commit_eq_ok_cursor h rfl (Prod.ext hcommit rfl)

/-- Behind a flush nothing is left to sync. -/
theorem flush_synced {io : Io} (h : (b.flush io).1 = .ok ()) : (b.flush io).2.Synced := by
  have hdatabase : ∀ db : Database, (db.flush io).1 = .ok () →
      (db.flush io).2.ingressDurableSequences = (db.flush io).2.ingressLastSequences := by
    intro db hok
    rcases db.flush_cases io with ⟨e, poison, heq, -⟩ | ⟨-, -, heq⟩
    · rw [heq] at hok
      cases hok
    · rw [heq]
  cases b with
  | store w =>
    change (w.store.flush io).1 = .ok () at h
    change (w.store.flush io).2.database.ingressDurableSequences =
      (w.store.flush io).2.database.ingressLastSequences
    rw [Store.flush] at h ⊢
    split at h
    · cases h
    · exact hdatabase _ h
  | database db => exact hdatabase db h

theorem reaches_of_advances [Jiff] {sourceId : U128} {throughSequence : UInt64}
    (h : reaches (b.ingressWatermarks sourceId).acceptedThrough throughSequence = true)
    (hadvances : b.handle.Advances b'.handle) :
    reaches (b'.ingressWatermarks sourceId).acceptedThrough throughSequence = true := by
  rw [reaches, Option.any_eq_true] at h ⊢
  obtain ⟨last, hlast, hle⟩ := h
  obtain ⟨last', hlast', hle'⟩ := hadvances.cursors sourceId last hlast
  exact ⟨last', hlast', decide_eq_true (UInt64.le_trans (of_decide_eq_true hle) hle')⟩

/-- What was accepted of a synced storage is durable. -/
theorem Synced.durableThrough (h : b.Synced) (sourceId : U128) :
    (b.ingressWatermarks sourceId).durableThrough =
      (b.ingressWatermarks sourceId).acceptedThrough := by
  change b.handle.ingressDurableSequences[sourceId]? = _
  rw [h]
  rfl

end Backend

/-! ## Acknowledged writes -/

/-- The acknowledgement in an answer. -/
def Answer.ack? : Answer → Option ShadowAck
  | .write (.ok ack) => some ack
  | _ => none

/-- The answer leaves no doubt about what is stored. -/
def Answer.definite : Answer → Bool
  | .write (.ok _) | .write (.error (.rejected _)) | .flush _ => true
  | .write (.error _) => false

/-- The storage bears out the answers. -/
structure Backend.Accounts [Jiff] (b : Backend) (answers : List Answer) : Prop where
  reachable : b.handle.Reachable
  acks : ∀ answer ∈ answers, answer.definite = true ∧
    ∀ ack, answer.ack? = some ack → b.Covers ack.identity

namespace Backend.Accounts

variable [Jiff] {b b' : Backend} {answers : List Answer}

theorem advance (h : b.Accounts answers) (hadvances : b.handle.Advances b'.handle) :
    b'.Accounts answers where
  reachable := hadvances.reachable
  acks answer hanswer := by
    obtain ⟨hdefinite, hcovers⟩ := h.acks answer hanswer
    exact ⟨hdefinite, fun ack hack => (hcovers ack hack).advance hadvances⟩

/-- One more answer. -/
theorem concat (h : b.Accounts answers) {answer : Answer} (hdefinite : answer.definite = true)
    (hcovers : ∀ ack, answer.ack? = some ack → b.Covers ack.identity) :
    b.Accounts (answers ++ [answer]) where
  reachable := h.reachable
  acks answer' hanswer := by
    rcases List.mem_append.mp hanswer with hold | hnew
    · exact h.acks answer' hold
    · obtain rfl := List.mem_singleton.mp hnew
      exact ⟨hdefinite, hcovers⟩

end Backend.Accounts

/-- What is known at each point of the worker, as long as nothing has poisoned it;
`answers` are those given so far. -/
def Worker.Covering [Jiff] (answers : List Answer) : Worker → Prop
  | .receiving w | .releasing w _ _ | .processing w _ _ | .closing w =>
    w.poison = none → w.backend.Accounts answers
  | .settlingWrite w write _ (.returned result) =>
    w.backend.Accounts answers ∧ ∀ commit, result = .ok commit → w.backend.Covers write.identity
  | .settlingFlush w sourceId throughSequence _ (.returned result) =>
    w.backend.Accounts answers ∧ (result = .ok () → w.backend.Synced ∧
      reaches (w.backend.ingressWatermarks sourceId).acceptedThrough throughSequence = true)
  | .maintaining w _ ack => w.backend.Accounts (answers ++ [.write (.ok ack)])
  | .replying w _ answer =>
    (w.poison = none → w.backend.Accounts (answers ++ [answer])) ∧
      ∀ ack, answer = .flush (.ok ack) → w.poison = none ∧ w.backend.Synced ∧
        reaches ack.durableThrough ack.throughSequence = true
  | .settlingWrite _ _ _ (.panicked _) | .settlingFlush _ _ _ _ (.panicked _) | .stopped
  | .died _ => True

namespace Worker.Covering

variable [Jiff] {w : Writer} {write : ShadowWrite} {sourceId : U128} {throughSequence : UInt64}
  {reply : Nat} {answers : List Answer} {b : Backend} {health health' : HealthState}
  {poison : Option WorkerPoison} {io : SnapshotIo}

/-- The storage is called for a write. -/
theorem commit [FileSizes] (h : w.backend.Accounts answers) {fate : Fate WriteIo}
    {called : Called Commit}
    (hcall : guarded (w.backend.commitIngress write.identity write.transaction) fate =
      (called, b)) :
    (settlingWrite { w with backend := b } write reply called).Covering answers := by
  cases fate with
  | panics cause left =>
    cases hcall
    trivial
  | runs io =>
    cases hcall
    exact ⟨h.advance (Backend.commitIngress_advances h.reachable ..), fun commit hok =>
      Backend.commitIngress_covers h.reachable hok⟩

/-- The storage is called for a flush of what it has accepted. -/
theorem flush (h : w.backend.Accounts answers) {fate : Fate Io} {called : Called Unit}
    (hreaches : reaches (w.backend.ingressWatermarks sourceId).acceptedThrough throughSequence =
      true) (hcall : guarded w.backend.flush fate = (called, b)) :
    (settlingFlush { w with backend := b } sourceId throughSequence reply called).Covering
      answers := by
  cases fate with
  | panics cause left =>
    cases hcall
    trivial
  | runs io =>
    cases hcall
    have hadvances := Backend.flush_advances h.reachable io
    exact ⟨h.advance hadvances, fun hok =>
      ⟨Backend.flush_synced hok, Backend.reaches_of_advances hreaches hadvances⟩⟩

/-- An answer that acknowledges nothing. -/
theorem refused (h : w.poison = none → w.backend.Accounts answers) {answer : Answer}
    (hdefinite : w.poison = none → answer.definite = true) (hwrite : answer.ack? = none)
    (hflush : ∀ ack, answer ≠ .flush (.ok ack)) : (replying w reply answer).Covering answers := by
  refine ⟨fun hnone => (h hnone).concat (hdefinite hnone) fun ack hack => ?_, fun ack hack =>
    absurd hack (hflush ack)⟩
  rw [hwrite] at hack
  cases hack

theorem acknowledge [FileSizes] {called : Called Commit} {ack : ShadowAck}
    (h : (settlingWrite w write reply called).Covering answers)
    (heq : settleWrite health w.backend write.identity called io = (.ok ack, health', poison)) :
    (maintaining { w with poison := poison } reply ack).Covering answers := by
  obtain ⟨rfl, hidentity, commit, rfl⟩ := Runtime.acknowledged_of_settleWrite heq
  refine h.1.concat rfl fun ack' hack => ?_
  cases hack
  rw [hidentity]
  exact h.2 commit rfl

theorem fail [FileSizes] {called : Called Commit} {e : ShadowWriteFailure}
    (h : (settlingWrite w write reply called).Covering answers)
    (heq : settleWrite health w.backend write.identity called io = (.error e, health', poison)) :
    (replying { w with poison := poison } reply (.write (.error e))).Covering answers := by
  rcases Runtime.settleWrite_cases heq with ⟨-, rfl, ⟨commit, ack, -, hack, -⟩ |
    ⟨err, rfl, he⟩⟩ | ⟨-, hpoisoned, -⟩
  · cases hack
  · cases he
    exact ⟨fun _ => h.1.concat rfl nofun, nofun⟩
  · exact refused (fun hnone => absurd hnone hpoisoned) (fun hnone => absurd hnone hpoisoned) rfl
      nofun

theorem settleFlush [FileSizes] {called : Called Unit}
    {result : Except ShadowFlushFailure ShadowFlushAck}
    (h : (settlingFlush w sourceId throughSequence reply called).Covering answers)
    (heq : Shadow.settleFlush health w.backend sourceId throughSequence called io =
      (result, health', poison)) :
    (replying { w with poison := poison } reply (.flush result)).Covering answers := by
  rcases Runtime.settleFlush_cases heq with ⟨-, rfl, ⟨rfl, rfl⟩ | ⟨e, rfl, rfl⟩⟩ |
    ⟨-, hpoisoned, e, rfl⟩
  · obtain ⟨hsynced, hreaches⟩ := h.2 rfl
    refine ⟨fun _ => h.1.concat rfl nofun, fun ack hack => ⟨rfl, hsynced, ?_⟩⟩
    obtain rfl := Except.ok.inj (Answer.flush.inj hack)
    rwa [hsynced.durableThrough]
  · exact ⟨fun _ => h.1.concat rfl nofun, nofun⟩
  · exact refused (fun hnone => absurd hnone hpoisoned) (fun _ => rfl) rfl nofun

theorem maintain {config : ShadowRuntimeConfig} {ack : ShadowAck} {w' : Writer} {tick : Tick}
    (h : (maintaining w reply ack).Covering answers)
    (heq : backgroundMaintenance config health w tick = (health', w')) :
    (replying w' reply (.write (.ok ack))).Covering answers := by
  have hadvances := Backend.backgroundMaintenance_advances h.reachable tick.nowMicros config tick.io
  refine ⟨fun _ => h.advance ?_, nofun⟩
  rw [backgroundMaintenance] at heq
  split at heq
  · next hcall =>
    cases heq
    rwa [hcall] at hadvances
  · next hcall =>
    rw [hcall] at hadvances
    split at heq
    · cases heq
      exact hadvances
    · cases heq
      exact hadvances

end Worker.Covering

namespace Runtime

variable [Jiff] {s s' : Runtime}

/-- What a runtime owes to its acknowledgements. -/
def Covering (s : Runtime) : Prop := s.worker.Covering (s.replies.map Prod.snd)

/-- One step of the worker. -/
theorem Covering.works [FileSizes] (h : Covering s) (hstep : Works s s') : Covering s' := by
  rw [Covering] at h
  cases hstep with
  | receive hworker _ | receiveShutdown hworker _ | release hworker =>
    rw [hworker] at h
    exact h
  | @refuse w r reply poison hworker hpoison =>
    rw [hworker] at h
    have hpoisoned : w.poison ≠ none := by rw [hpoison]; nofun
    cases r with
    | write _ | flush _ _ =>
      exact .refused h (fun hnone => absurd hnone hpoisoned) rfl nofun
  | commit fate hworker hpoison hcall =>
    rw [hworker] at h
    exact .commit (h hpoison) hcall
  | notAccepted hworker _ _ _ =>
    rw [hworker] at h
    exact .refused h (fun _ => rfl) rfl nofun
  | flush fate hworker hpoison hreaches hcall =>
    rw [hworker] at h
    exact .flush (h hpoison) hreaches hcall
  | acknowledge io hworker heq =>
    rw [hworker] at h
    exact h.acknowledge heq
  | fail io hworker heq =>
    rw [hworker] at h
    exact h.fail heq
  | settleFlush io hworker heq =>
    rw [hworker] at h
    exact h.settleFlush heq
  | rest instant hworker _ =>
    rw [hworker] at h
    exact ⟨fun _ => h, nofun⟩
  | maintain tick hworker _ heq =>
    rw [hworker] at h
    exact h.maintain heq
  | reply hworker =>
    rw [hworker] at h
    rw [Covering, List.map_append]
    exact h.1
  | _ => trivial

/-- One step of any party. -/
theorem Covering.step [FileSizes] (h : Covering s) (hstep : Step s s') : Covering s' := by
  rcases hstep.cases with hout | hworks | hdies
  · rw [Covering, hout.worker, hout.replies]
    exact h
  · exact h.works hworks
  · cases hdies
    trivial

end Runtime

end Ftwdb.Shadow
