import Ftwdb.Store.Collection
import Ftwdb.Store.Maintain

/-!
# What a call does to the generations of a store

`Store.Op` are the calls on a running store in which no read or write fails;
what such a call gets from outside, the time stamps in new names and the order
in which a hash map gives its series, is part of it.  Each of them publishes at
most one generation, the one behind the current one (`Op.turn`).
-/

namespace Ftwdb

open Check

namespace Store

/-- A result without its report. -/
def Result.forget {α : Type} (r : Result α) : Result Unit := (r.1.map fun _ => (), r.2)

/-- The calls of a store. -/
inductive Op where
  | commit (transaction : Transaction)
  | append (points : List Point)
  | flush
  | maintain (now : Int64) (nonce : Nat → Nat)
  | sealAndReclaim (order : List UInt64) (nonce : Nat) (contentCrc32 : UInt32)
      (reclaimOrder : List UInt64)

/-- A call, without its answer. -/
def Op.apply [Jiff] (s : Store) : Op → Result Unit
  | .commit t => (s.commit t {}).forget
  | .append points => (s.append points {}).forget
  | .flush => s.flush {}
  | .maintain now nonce => (s.maintain now { nonce := nonce }).forget
  | .sealAndReclaim order nonce contentCrc32 reclaimOrder =>
    (s.sealAndReclaim { order, nonce, contentCrc32, reclaimOrder }).forget

/-- The parts of a store that a publication reads and changes. -/
structure SameGenerations (s s' : Store) : Prop where
  manifest : s'.manifest = s.manifest
  manifests : s'.directory.manifests = s.directory.manifests
  poisoned : s'.poisoned = s.poisoned

theorem SameGenerations.refl (s : Store) : SameGenerations s s := ⟨rfl, rfl, rfl⟩

theorem SameGenerations.trans {s s₁ s₂ : Store} (h : SameGenerations s s₁)
    (h' : SameGenerations s₁ s₂) : SameGenerations s s₂ :=
  ⟨h'.manifest.trans h.manifest, h'.manifests.trans h.manifests, h'.poisoned.trans h.poisoned⟩

/-- What one call does to the generations: nothing, or it publishes the next
one, or it fails to. -/
inductive Turn (s : Store) : Result Unit → Prop
  | kept {r : Except Error Unit} {s' : Store} : SameGenerations s s' → Turn s (r, s')
  | refused {next : Manifest} {e : Error} {s' : Store} :
      next.generation = nextGeneration s.manifest.generation →
      s.directory.manifests.publish next .done = (.error e, s.directory.manifests) →
      s'.manifest = s.manifest → s'.directory.manifests = s.directory.manifests →
      s'.poisoned = true → Turn s (.error e, s')
  | published {next : Manifest} {dir : Manifests} {r : Except Error Unit} {s' : Store} :
      next.generation = nextGeneration s.manifest.generation →
      s.directory.manifests.publish next .done = (.ok (), dir) → s'.manifest = next →
      s'.directory.manifests = dir.prune next.generation [] → s'.poisoned = s.poisoned →
      Turn s (r, s')

namespace Turn

variable {s s₁ s₂ : Store} {r : Result Unit}

/-- A turn only looks at the generations. -/
theorem of_same (h : SameGenerations s s₁) (hturn : Turn s₁ r) : Turn s r := by
  cases hturn with
  | kept hsame => exact .kept (h.trans hsame)
  | refused hgeneration hpublish hmanifest hmanifests hpoisoned =>
    rw [h.manifest] at hgeneration hmanifest
    rw [h.manifests] at hpublish hmanifests
    exact .refused hgeneration hpublish hmanifest hmanifests hpoisoned
  | published hgeneration hpublish hmanifest hmanifests hpoisoned =>
    rw [h.manifest] at hgeneration
    rw [h.manifests] at hpublish
    exact .published hgeneration hpublish hmanifest hmanifests (hpoisoned.trans h.poisoned)

/-- A call that goes on with a changed handle. -/
theorem of_database {db : Database} (hturn : Turn { s with database := db } r) : Turn s r := by
  refine of_same ?_ hturn
  exact ⟨rfl, rfl, rfl⟩

/-- A call that goes on behind a successful part. -/
theorem andThen {r' : Except Error Unit} (hturn : Turn s (.ok (), s₁))
    (h : SameGenerations s₁ s₂) : Turn s (r', s₂) := by
  cases hturn with
  | kept hsame => exact .kept (hsame.trans h)
  | published hgeneration hpublish hmanifest hmanifests hpoisoned =>
    exact .published hgeneration hpublish (h.manifest.trans hmanifest)
      (h.manifests.trans hmanifests) (h.poisoned.trans hpoisoned)

end Turn

/-! ## The calls -/

/-- What `publish_or_poison` writes of a manifest. -/
def published (next : Manifest) : Manifest :=
  { next with rollups := next.rollups.filter RollupDescriptor.active }

/-- A successful publication, followed by a collection. -/
theorem publishOrPoison_eq_ok {s s' : Store} {next : Manifest} {io : PublishIo} :
    s.publishOrPoison next io = (.ok (), s') ↔ ∃ dir,
      s.directory.manifests.publish (published next) io.link = (.ok (), dir) ∧
      s' = { s with
        directory := { s.directory with manifests := dir }
        manifest := published next }.removeUnreferencedFiles io.gc := by
  rw [publishOrPoison, ← published]
  cases s.directory.manifests.publish (published next) io.link with
  | mk result dir =>
    cases result with
    | error e => simp
    | ok _ => simp [eq_comm]

/-- A publication is one turn. -/
theorem publishOrPoison_turn (s : Store) (next : Manifest)
    (hgeneration : next.generation = nextGeneration s.manifest.generation) :
    Turn s (s.publishOrPoison next {}) := by
  rw [publishOrPoison]
  -- only the active rollups are published
  generalize hactive : { next with rollups := next.rollups.filter RollupDescriptor.active } = next'
  have hnext : next'.generation = nextGeneration s.manifest.generation := by
    rw [← hactive, hgeneration]
  cases hpublish : s.directory.manifests.publish next' .done with
  | mk result dir =>
    cases result with
    | error e =>
      obtain ⟨rfl, -⟩ := Manifests.publish_done_eq_error hpublish
      exact .refused hnext hpublish rfl rfl rfl
    | ok _ =>
      refine .published hnext hpublish rfl ?_ rfl
      rw [removeUnreferencedFiles, Directory.manifests_removeUnreferencedFiles]
      rfl

theorem advanceAfterPoints_turn (s : Store) (points : List Point) :
    Turn s (s.advanceAfterPoints points {}) := by
  rw [advanceAfterPoints]
  split
  · exact publishOrPoison_turn s _ rfl
  · exact .kept (.refl s)

theorem afterFrame_turn (s : Store) (commit : Commit) (points : List Point) :
    Turn s (s.afterFrame commit points {}).forget := by
  rw [afterFrame]
  split
  · cases hflush : (if commit.durable then (.ok (), s.database) else s.database.flush {}) with
    | mk flushed db =>
      cases flushed with
      | error e => exact .kept ⟨rfl, rfl, rfl⟩
      | ok _ =>
        have hturn := Turn.of_database (advanceAfterPoints_turn { s with database := db } points)
        simp only [Bool.false_eq_true, if_false]
        cases hadvance : advanceAfterPoints { s with database := db } points {} with
        | mk advanced s' =>
          rw [hadvance] at hturn
          cases advanced with
          | error e => exact hturn
          | ok _ => exact hturn.andThen (.refl s')
  · exact .kept (.refl s)

theorem append_turn (s : Store) (points : List Point) : Turn s (s.append points {}).forget := by
  rw [append]
  cases s.ensureWritable with
  | error e => exact .kept (.refl s)
  | ok _ =>
    cases s.database.append points {} with
    | mk appended db =>
      cases appended with
      | error e => exact .kept ⟨rfl, rfl, rfl⟩
      | ok commit => exact .of_database (afterFrame_turn _ commit points)

theorem flush_turn (s : Store) : Turn s (s.flush {}) := by
  rw [flush]
  cases s.ensureWritable with
  | error e => exact .kept (.refl s)
  | ok _ => exact .kept ⟨rfl, rfl, rfl⟩

theorem finishMaintain_turn (s : Store) (now : Int64) (nonce : Nat → Nat) (w : Work) :
    Turn s (s.finishMaintain now { nonce } w).forget := by
  rw [finishMaintain]
  let s₁ : Store := { s with directory := { s.directory with rollups := w.files } }
  have hsame : SameGenerations s s₁ := ⟨rfl, rfl, rfl⟩
  cases w.changed with
  | false => exact .kept ⟨rfl, rfl, rfl⟩
  | true =>
    let next : Manifest := { s.manifest with
      generation := nextGeneration s.manifest.generation
      rollups := w.rollups }
    have hturn := Turn.of_same hsame (publishOrPoison_turn s₁ next rfl)
    rw [if_pos rfl]
    split
    · next e s' hpublish =>
        rw [hpublish] at hturn
        exact hturn
    · next s' hpublish =>
        rw [hpublish] at hturn
        exact hturn.andThen ⟨rfl, rfl, rfl⟩

theorem createSegment_same (s : Store) (live : List Point) (io : SealIo) :
    SameGenerations s (s.createSegment live io).2 := by
  rw [createSegment]
  dsimp only
  split
  · exact .refl s
  · split
    · exact .refl s
    · split
      · exact .refl s
      · split <;> exact ⟨rfl, rfl, rfl⟩

theorem attachPublishedSegments_same (s : Store) :
    SameGenerations s s.attachPublishedSegments.2 := by
  rw [attachPublishedSegments]
  split <;> exact ⟨rfl, rfl, rfl⟩

theorem publishSealed_turn (s : Store) (segment : Segment) (first : Point) (rest : List Point)
    (points commits : UInt64) {io : SealIo} (hio : io.publish = {}) :
    Turn s (s.publishSealed segment first rest points commits io) := by
  rw [publishSealed]
  dsimp only
  split
  · exact .kept ⟨rfl, rfl, rfl⟩
  · next db _ =>
    rw [hio]
    exact .of_database (publishOrPoison_turn { s with database := db } _ rfl)

section Calls
variable [Jiff]

theorem commit_turn (s : Store) (t : Transaction) : Turn s (s.commit t {}).forget := by
  rw [commit]
  cases s.ensureWritable with
  | error e => exact .kept (.refl s)
  | ok _ =>
    dsimp only
    cases s.database.commit t {} with
    | mk committed db =>
      cases committed with
      | error e => exact .kept ⟨rfl, rfl, rfl⟩
      | ok commit =>
        dsimp only
        split
        · exact .kept ⟨rfl, rfl, rfl⟩
        · exact .of_database (afterFrame_turn _ commit _)

theorem maintain_turn (s : Store) (now : Int64) (nonce : Nat → Nat) :
    Turn s (s.maintain now { nonce }).forget := by
  rw [maintain]
  cases s.ensureWritable with
  | error e => exact .kept (.refl s)
  | ok _ =>
    dsimp only
    cases s.database.flush {} with
    | mk flushed db =>
      cases flushed with
      | error e => exact .kept ⟨rfl, rfl, rfl⟩
      | ok _ =>
        refine @Turn.of_database s _ db ?_
        simp only [Bool.false_eq_true, if_false]
        split
        · exact .kept (.refl _)
        · exact .kept ⟨rfl, rfl, rfl⟩
        · split
          · exact .kept ⟨rfl, rfl, rfl⟩
          · exact finishMaintain_turn _ now nonce _

theorem reclaimSealed_same (s : Store) (io : SealIo) :
    SameGenerations s (s.reclaimSealed io).2 := by
  have hattach := attachPublishedSegments_same s
  rw [reclaimSealed]
  cases hresult : s.attachPublishedSegments with
  | mk attached s₁ =>
    rw [hresult] at hattach
    cases attached with
    | error e => exact hattach
    | ok _ => exact hattach.trans ⟨rfl, rfl, rfl⟩

/-- A seal publishes at most once. -/
theorem sealAndReclaim_turn (s : Store) {io : SealIo} (hstats : io.statsFails = false)
    (hio : io.publish = {}) : Turn s (s.sealAndReclaim io).forget := by
  rw [sealAndReclaim]
  cases s.ensureWritable with
  | error e => exact .kept (.refl s)
  | ok _ =>
    dsimp only
    cases s.database.flush io.flush with
    | mk flushed db =>
      cases flushed with
      | error e => exact .kept ⟨rfl, rfl, rfl⟩
      | ok _ =>
        refine @Turn.of_database s _ db ?_
        simp only [hstats, Bool.false_eq_true, if_false]
        cases Database.livePointsSnapshot db.index io.order with
        | nil => exact .kept (.refl _)
        | cons first rest =>
          generalize { s with database := db } = s₁
          have hcreate := createSegment_same s₁ (first :: rest) io
          dsimp only
          cases hcreated : s₁.createSegment (first :: rest) io with
          | mk created s₂ =>
            rw [hcreated] at hcreate
            refine .of_same hcreate ?_
            cases created with
            | error e => exact .kept (.refl s₂)
            | ok segment =>
              have hturn := publishSealed_turn s₂ segment first rest db.statPoints db.statCommits
                hio
              dsimp only
              cases hpublish : s₂.publishSealed segment first rest db.statPoints db.statCommits
                  io with
              | mk published s₃ =>
                rw [hpublish] at hturn
                cases published with
                | error e => exact hturn
                | ok _ =>
                  have hreclaim := reclaimSealed_same s₃ io
                  dsimp only
                  cases hreclaimed : s₃.reclaimSealed io with
                  | mk reclaimed s₄ =>
                    rw [hreclaimed] at hreclaim
                    cases reclaimed with
                    | error e => exact hturn.andThen hreclaim
                    | ok _ => exact hturn.andThen hreclaim

/-- Every operation is one turn. -/
theorem Op.turn (s : Store) (op : Op) : Turn s (op.apply s) := by
  cases op with
  | commit t => exact commit_turn s t
  | append points => exact append_turn s points
  | flush => exact flush_turn s
  | maintain now nonce => exact maintain_turn s now nonce
  | sealAndReclaim order nonce contentCrc32 reclaimOrder =>
    exact sealAndReclaim_turn s rfl rfl

end Calls

/-! ## Opening -/

/-- Every rollup is verified; a stale one asks for a new generation. -/
theorem verifyAndReconcileManifest_eq_ok {s s' : Store} {io : PublishIo} :
    s.verifyAndReconcileManifest io = (.ok (), s') ↔
      (∀ d ∈ s.manifest.rollups,
        verifyDescriptor s.database.statPoints s.directory.rollups d = .ok ()) ∧
      if s.manifest.rollups.any (isStale s.database.statPoints) then
        s.publishOrPoison { s.manifest with
          generation := nextGeneration s.manifest.generation
          rollups := s.manifest.rollups.map fun d =>
            if isStale s.database.statPoints d then { d with active := false } else d } io =
          (.ok (), s')
      else s' = s := by
  rw [verifyAndReconcileManifest, ← each_eq_ok (u := ())]
  cases each (verifyDescriptor s.database.statPoints s.directory.rollups) s.manifest.rollups with
  | error e => simp
  | ok _ =>
    simp only [true_and]
    split
    · rfl
    · simp [eq_comm]

theorem verifyAndReconcileManifest_turn (s : Store) :
    Turn s (s.verifyAndReconcileManifest {}) := by
  rw [verifyAndReconcileManifest]
  dsimp only
  split
  · exact .kept (.refl s)
  · split
    · exact publishOrPoison_turn s _ rfl
    · exact .kept (.refl s)

section Opens
variable [Jiff]

/-- The reclaim at the end of an open. -/
def FinishesReclaim (s : Store) (io : OpenIo) (s' : Store) : Prop :=
  if s.database.pendingReclaim then
    ∃ db, s.database.reclaimLiveLog io.order io.reclaim = (.ok (), db) ∧
      s' = { s with database := db }
  else s' = s

theorem FinishesReclaim.exists_eq {s s' : Store} {io : OpenIo} (h : FinishesReclaim s io s') :
    ∃ db, s' = { s with database := db } := by
  rw [FinishesReclaim] at h
  split at h
  · obtain ⟨db, -, rfl⟩ := h
    exact ⟨db, rfl⟩
  · exact ⟨s.database, h⟩

/-- The steps of an open behind the log. -/
theorem finishOpen_eq_ok {s s' : Store} {io : OpenIo} :
    finishOpen s io = (.ok (), s') ↔ io.statsFails = false ∧ ∃ segments s₁,
      publishedSegments s.directory.segments s.manifest.segments = .ok segments ∧
      verifyAndReconcileManifest { s with
        database := s.database.attachSealedSegments segments } io.publish = (.ok (), s₁) ∧
      FinishesReclaim (s₁.removeUnreferencedFiles io.gc) io s' := by
  rw [finishOpen, attachPublishedSegments]
  cases publishedSegments s.directory.segments s.manifest.segments with
  | error e => simp
  | ok segments =>
    cases io.statsFails with
    | true => simp
    | false =>
      simp only [Bool.false_eq_true, if_false, true_and, Except.ok.injEq, exists_and_left,
        exists_eq_left']
      cases verifyAndReconcileManifest { s with
          database := s.database.attachSealedSegments segments } io.publish with
      | mk reconciled s₁ =>
        cases reconciled with
        | error e => simp
        | ok _ =>
          simp only [Prod.mk.injEq, true_and, exists_eq_left', FinishesReclaim]
          split
          · cases hreclaim : (s₁.removeUnreferencedFiles io.gc).database.reclaimLiveLog io.order
                io.reclaim with
            | mk reclaimed db => simp [eq_comm]
          · simp [eq_comm]

/-- The steps of an open. -/
theorem openWith_eq_ok {config : Config} {disk disk' : Disk} {io : OpenIo} {s : Store} :
    openWith config disk io = (.ok s, disk') ↔ disk' = s.disk ∧ ∃ m db file,
      disk.directory.manifests.load = .ok m ∧
      Database.openMode config false m.publishedSeals disk.log io.log = (.ok db, file) ∧
      finishOpen (ofDatabase db disk.directory m false) io = (.ok (), s) := by
  rw [openWith]
  cases disk.directory.manifests.load with
  | error e => simp
  | ok m =>
    simp only [Except.ok.injEq, exists_and_left, exists_eq_left']
    cases Database.openMode config false m.publishedSeals disk.log io.log with
    | mk opened file =>
      cases opened with
      | error e => simp
      | ok db =>
        simp only [Prod.mk.injEq, Except.ok.injEq, and_assoc, exists_eq_left', exists_and_left]
        cases finishOpen (ofDatabase db disk.directory m false) io with
        | mk finished s' =>
          cases finished with
          | error e => simp
          | ok _ =>
            simp only [Prod.mk.injEq, Except.ok.injEq, true_and]
            constructor
            · rintro ⟨rfl, rfl⟩
              exact ⟨rfl, rfl⟩
            · rintro ⟨rfl, rfl⟩
              exact ⟨rfl, rfl⟩

end Opens

end Store

end Ftwdb
