import Ftwdb.Storage.Durability
import Ftwdb.Storage.ReclaimLaws
import Ftwdb.Store.Maintain

/-!
# Cursors along a run

Whatever its result, a call on a database or on a store leaves a handle that a
run of the database can lead to, and no source's cursor goes back.  A commit
that is answered `Ok` leaves the cursor of its source at or behind its sequence.
-/

namespace Ftwdb

open Check KeyedMap

namespace Database

theorem cursors_flush (db : Database) (io : Io) :
    (db.flush io).2.ingressLastSequences = db.ingressLastSequences := by
  rcases db.flush_cases io with ⟨e, poison, heq, -⟩ | ⟨-, -, heq⟩ <;> rw [heq]

theorem cursors_writeFrame (db : Database) (frame : Frame) (io : Io) :
    (db.writeFrame frame io).2.ingressLastSequences = db.ingressLastSequences := by
  cases hwrite : db.writeFrame frame io with
  | mk result db' =>
    cases result with
    | error e => exact congrArg Tables.ingressLastSequences (writeFrame_eq_error hwrite).2.tables
    | ok durable => exact congrArg Tables.ingressLastSequences (writeFrame_eq_ok hwrite).2

variable [Jiff] {db db' db'' : Database}

/-- A later handle of the same run. -/
structure Advances (db db' : Database) : Prop where
  reachable : db'.Reachable
  cursors : ∀ (sourceId : U128) (last : UInt64), db.ingressLastSequences[sourceId]? = some last →
    ∃ last', db'.ingressLastSequences[sourceId]? = some last' ∧ last ≤ last'

namespace Advances

theorem of_same (h : db'.Reachable) (heq : db'.ingressLastSequences = db.ingressLastSequences) :
    Advances db db' where
  reachable := h
  cursors sourceId last hlast := by
    rw [← heq] at hlast
    exact ⟨last, hlast, UInt64.le_refl last⟩

theorem refl (h : db.Reachable) : Advances db db := of_same h rfl

theorem trans (h : Advances db db') (h' : Advances db' db'') : Advances db db'' where
  reachable := h'.reachable
  cursors sourceId last hlast := by
    obtain ⟨last', hlast', hle⟩ := h.cursors sourceId last hlast
    obtain ⟨last'', hlast'', hle'⟩ := h'.cursors sourceId last' hlast'
    exact ⟨last'', hlast'', UInt64.le_trans hle hle'⟩

theorem flush (h : db.Reachable) (io : Io) : Advances db (db.flush io).2 :=
  of_same (h.flush io) (db.cursors_flush io)

/-- A commit may raise the cursor of its source. -/
theorem commit (h : db.Reachable) (t : Transaction) (io : Io) : Advances db (db.commit t io).2 := by
  have hreachable := h.commit t io
  have hacted := commit_acted db t io
  generalize db.commit t io = outcome at hreachable hacted
  cases hacted with
  | answered _ => exact .refl h
  | refused _ => exact .of_same hreachable rfl
  | broke _ hbroke => exact .of_same hreachable (congrArg Tables.ingressLastSequences hbroke.tables)
  | @accepted frame catalog durable db' hwrite _ htables =>
    have hrequested := requested_commit hwrite durable
    refine ⟨hreachable, fun sourceId last hlast => ?_⟩
    rw [htables, hrequested.cursors]
    exact raiseCursor_mono hrequested.fresh hlast

theorem writeSealCheckpoint (h : db.Reachable) (generation points : UInt64) (io flushIo : Io) :
    Advances db (db.writeSealCheckpoint generation points io flushIo).2 := by
  refine of_same (h.writeSealCheckpoint generation points io flushIo) ?_
  exact writeSealCheckpoint_preserves
    (P := fun db' => db'.ingressLastSequences = db.ingressLastSequences) rfl
    (db.cursors_writeFrame _ io) (fun db' h => (db'.cursors_flush flushIo).trans h) fun _ h => h

/-- The new log has the cursors of the old one. -/
theorem reclaimLiveLog (h : db.Reachable) (order : List UInt64) (io : ReclaimIo) :
    Advances db (db.reclaimLiveLog order io).2 := by
  refine of_same (h.reclaimLiveLog order io) ?_
  refine (reclaimLiveLog_preserves
    (P := fun db' => db'.ingressLastSequences = db.ingressLastSequences ∧ db'.Sound)
    ⟨rfl, h.sound⟩ ⟨db.cursors_flush io.flush, h.sound.flush io.flush⟩ (fun _ h => h) ?_).1
  intro db' file scan hflushed hcompact
  have hsame := HoldsSame.of_logical (logical_adopt hflushed.2 hcompact)
  exact ⟨hsame.cursors.trans hflushed.1, Sound.compactLog_adopt hcompact _⟩

end Advances

/-- The cursor of a source covers what was accepted for it. -/
theorem commit_eq_ok_cursor (h : db.Reachable) {t : Transaction} {identity : IngressIdentity}
    (hidentity : t.ingressIdentity = some identity) {io : Io} {commit : Commit}
    (hcommit : db.commit t io = (.ok commit, db')) :
    ∃ last, db'.ingressLastSequences[identity.sourceId]? = some last ∧
      identity.sequence ≤ last := by
  have hid : transactionIdentity t = .ingress identity := by rw [transactionIdentity, hidentity]
  have hacted := commit_acted db t io
  rw [hcommit] at hacted
  generalize hresult : (Except.ok commit : Except Error Commit) = result at hacted
  cases hacted with
  | answered hanswer =>
    obtain ⟨-, -, hanswered⟩ := decide_eq_answer hanswer
    cases hanswered with
    | empty _ hnone => rw [hidentity] at hnone; cases hnone
    | identified hplain => rw [hid] at hplain; cases hplain
    | ingress hsame hreceipt =>
      obtain rfl := Tables.FrameIdentity.ingress.inj (hid.symm.trans hsame)
      refine h.sound.cursor identity.key ?_
      rw [Std.ExtTreeMap.mem_iff_isSome_getElem?, hreceipt]
      rfl
  | refused _ => cases hresult
  | broke _ _ => cases hresult
  | @accepted frame catalog durable db' hwrite _ htables =>
    have hcursors := (requested_commit hwrite durable).cursors
    refine ⟨identity.sequence, ?_, UInt64.le_refl _⟩
    rw [htables]
    rw [hcursors, Call.identity, hid, raiseCursor]
    exact Std.ExtTreeMap.getElem?_insert_self

end Database

/-! ## Stores -/

namespace Store

/-- A publication does not touch the log. -/
theorem database_publishOrPoison (s : Store) (next : Manifest) (io : PublishIo) :
    (s.publishOrPoison next io).2.database = s.database := by
  rw [publishOrPoison]
  simp only
  split <;> rfl

theorem database_finishMaintain (s : Store) (now : Int64) (io : MaintainIo) (w : Work) :
    (s.finishMaintain now io w).2.database = s.database := by
  rw [finishMaintain]
  cases w.changed with
  | false => rfl
  | true =>
    have hsame := database_publishOrPoison
      { s with directory := { s.directory with rollups := w.files } }
      { s.manifest with
        generation := nextGeneration s.manifest.generation
        rollups := w.rollups } io.publish
    simp only [if_true]
    split
    · next hpublish => rwa [hpublish] at hsame
    · next hpublish => rwa [hpublish] at hsame

theorem database_createSegment (s : Store) (live : List Point) (io : SealIo) :
    (s.createSegment live io).2.database = s.database := by
  rw [createSegment]
  simp only
  split
  · rfl
  split
  · rfl
  split
  · rfl
  split <;> rfl

variable [Jiff] {s s' : Store}

/-- The flush and the publication behind a frame. -/
theorem afterFrame_advances (h : s.database.Reachable) (commit : Commit) (points : List Point)
    (io : CommitIo) : s.database.Advances (s.afterFrame commit points io).2.database := by
  have hflush := Database.Advances.flush h io.flush
  rw [afterFrame]
  split
  · -- the flush is only called for a frame that is not durable yet
    have hflushed : s.database.Advances
        (if commit.durable then (.ok (), s.database) else s.database.flush io.flush :
          Except Error Unit × Database).2 := by
      split
      · exact .refl h
      · exact hflush
    split
    · next heq => rwa [heq] at hflushed
    next db heq =>
    rw [heq] at hflushed
    split
    · exact hflushed
    have hsame :
        ({ s with database := db }.advanceAfterPoints points io.publish).2.database = db := by
      rw [advanceAfterPoints]
      split
      · exact database_publishOrPoison ..
      · rfl
    split
    · next hadvance =>
      rw [hadvance] at hsame
      exact hsame ▸ hflushed
    · next hadvance =>
      rw [hadvance] at hsame
      exact hsame ▸ hflushed
  · exact .refl h

/-- No step of a commit lowers a cursor. -/
theorem commit_advances (h : s.database.Reachable) (t : Transaction) (io : CommitIo) :
    s.database.Advances (s.commit t io).2.database := by
  have hcommit := Database.Advances.commit h t io.frame
  rw [Store.commit]
  split
  · exact .refl h
  simp only
  split
  · next heq => rwa [heq] at hcommit
  next db heq =>
  rw [heq] at hcommit
  split
  · exact hcommit
  · exact hcommit.trans (afterFrame_advances (s := { s with database := db }) hcommit.reachable ..)

theorem flush_advances (h : s.database.Reachable) (io : Io) :
    s.database.Advances (s.flush io).2.database := by
  rw [Store.flush]
  split
  · exact .refl h
  · exact .flush h io

theorem maintain_advances (h : s.database.Reachable) (now : Int64) (io : MaintainIo) :
    s.database.Advances (s.maintain now io).2.database := by
  have hflush := Database.Advances.flush h io.flush
  rw [maintain]
  split
  · exact .refl h
  split
  · next heq => rwa [heq] at hflush
  next db heq =>
  rw [heq] at hflush
  simp only
  split
  · exact hflush
  split
  · exact hflush
  · exact hflush
  split
  · exact hflush
  next w _ =>
  have hsame := database_finishMaintain { s with database := db } now io w
  exact hsame ▸ hflush

theorem reclaimSealed_advances (h : s.database.Reachable) (io : SealIo) :
    s.database.Advances (s.reclaimSealed io).2.database := by
  have hattach : s.database.Advances s.attachPublishedSegments.2.database := by
    rw [attachPublishedSegments]
    split
    · exact .refl h
    · exact .of_same (h.attachSealedSegments _) rfl
  rw [reclaimSealed]
  split
  · next heq => rwa [heq] at hattach
  next s₁ heq =>
  rw [heq] at hattach
  have hclear : s₁.database.Advances s₁.database.clearLiveIndex :=
    .of_same hattach.reachable.clearLiveIndex rfl
  exact hattach.trans (hclear.trans (.reclaimLiveLog hclear.reachable ..))

theorem publishSealed_advances (h : s.database.Reachable) (segment : Segment) (first : Point)
    (rest : List Point) (points commits : UInt64) (io : SealIo) :
    s.database.Advances (s.publishSealed segment first rest points commits io).2.database := by
  have hcheckpoint := Database.Advances.writeSealCheckpoint h (nextGeneration s.manifest.generation)
    (UInt64.ofNat (first :: rest).length) io.checkpoint io.checkpointFlush
  rw [publishSealed]
  simp only
  split
  · next heq => rwa [heq] at hcheckpoint
  · next heq =>
    rw [heq] at hcheckpoint
    rwa [database_publishOrPoison]

/-- No step of a seal lowers a cursor. -/
theorem sealAndReclaim_advances (h : s.database.Reachable) (io : SealIo) :
    s.database.Advances (s.sealAndReclaim io).2.database := by
  have hflush := Database.Advances.flush h io.flush
  rw [sealAndReclaim]
  split
  · exact .refl h
  split
  · next heq => rwa [heq] at hflush
  next db heq =>
  rw [heq] at hflush
  simp only
  split
  · exact hflush
  split
  · exact hflush
  next first rest _ =>
  have hcreate := database_createSegment { s with database := db } (first :: rest) io
  split
  · next hcreated =>
    rw [hcreated] at hcreate
    exact hcreate ▸ hflush
  next segment s₁ hcreated =>
  rw [hcreated] at hcreate
  have hstart : s.database.Advances s₁.database := hcreate ▸ hflush
  have hpublish := publishSealed_advances hstart.reachable segment first rest db.statPoints
    db.statCommits io
  split
  · next hpublished =>
    rw [hpublished] at hpublish
    exact hstart.trans hpublish
  next s₂ hpublished =>
  rw [hpublished] at hpublish
  have hreclaim := reclaimSealed_advances hpublish.reachable io
  split
  · next hreclaimed =>
    rw [hreclaimed] at hreclaim
    exact hstart.trans (hpublish.trans hreclaim)
  · next hreclaimed =>
    rw [hreclaimed] at hreclaim
    exact hstart.trans (hpublish.trans hreclaim)

/-- The cursor of a source has reached every committed sequence. -/
theorem commit_eq_ok_cursor (h : s.database.Reachable) {t : Transaction}
    {identity : IngressIdentity} (hidentity : t.ingressIdentity = some identity) {io : CommitIo}
    {commit : Commit} (hcommit : s.commit t io = (.ok commit, s')) :
    ∃ last, s'.database.ingressLastSequences[identity.sourceId]? = some last ∧
      identity.sequence ≤ last := by
  rw [Store.commit] at hcommit
  split at hcommit
  · cases hcommit
  simp only at hcommit
  split at hcommit
  · cases hcommit
  next commit₀ db heq =>
  obtain ⟨last, hlast, hle⟩ := Database.commit_eq_ok_cursor h hidentity heq
  have hreachable : db.Reachable := by
    have := h.commit t io.frame
    rwa [heq] at this
  split at hcommit
  · rw [← (Prod.mk.inj hcommit).2]
    exact ⟨last, hlast, hle⟩
  · have hafter := afterFrame_advances (s := { s with database := db }) hreachable commit₀
      (if s.manifest.hasActiveRollups = true then t.records.flatMap Record.pointList else []) io
    rw [hcommit] at hafter
    obtain ⟨last', hlast', hle'⟩ := hafter.cursors _ last hlast
    exact ⟨last', hlast', UInt64.le_trans hle hle'⟩

end Store

end Ftwdb
