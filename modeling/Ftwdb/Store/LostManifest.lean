import Ftwdb.Store.Descriptors

/-!
# A store that loses its newest manifest

An open that cannot read the newest manifest goes on with the one before it
(`Manifests.load`).  If the newest one was published by a seal, the older one does
not name the last segment, and the log no longer holds its points.  A rollup in
use gives this away: it has seen more points than are left, and the open is
refused.  Without one the store opens without the points of the segment.

`Backup` says what the two newest manifests of a run are to each other.
-/

namespace Ftwdb

open ByteCodec Check List StableSort

/-! ## The newest files -/

namespace Manifests

variable {dir : Manifests}

theorem eq_of_descending {l l' : List (UInt64 × Bytes)} (hl : l.Pairwise fun a b => b.1 < a.1)
    (hl' : l'.Pairwise fun a b => b.1 < a.1) (hmem : ∀ f, f ∈ l ↔ f ∈ l') : l = l' :=
  eq_of_strict hl hl' hmem (fun _ => Std.lt_irrefl) fun hab hbc => Std.lt_trans hbc hab

/-- A new generation comes first. -/
theorem candidates_insert {generation : UInt64} (bytes : Bytes)
    (h : ∀ f ∈ dir.candidates, f.1 < generation) :
    Manifests.candidates (dir.insert generation bytes) = (generation, bytes) :: dir.candidates := by
  refine eq_of_descending (descending_candidates _)
    (pairwise_cons.mpr ⟨h, descending_candidates dir⟩) fun f => ?_
  obtain ⟨k, content⟩ := f
  rw [mem_candidates, KeyedMap.getElem?_insert_eq, mem_cons, mem_candidates, Prod.mk.injEq]
  split
  · next heq =>
    subst heq
    have hfree : dir[generation]? ≠ some content := fun hget =>
      absurd (h _ (mem_candidates.mpr hget)) Std.lt_irrefl
    simp [hfree, eq_comm]
  · next hne => simp [Ne.symm hne]

/-- Pruning keeps the three newest files in their places. -/
theorem getElem?_candidates_prune (loaded : UInt64) (stuck : List UInt64) {i : Nat} (hi : i < 3) :
    (dir.prune loaded stuck).candidates[i]? = dir.candidates[i]? := by
  let keep : UInt64 × Bytes → Bool := fun f => decide (f ∈ dir.retained loaded ∨ f.1 ∈ stuck)
  have hfilter : (dir.prune loaded stuck).candidates = dir.candidates.filter keep := by
    refine eq_of_descending (descending_candidates _) ((descending_candidates dir).filter _)
      fun f => ?_
    rw [mem_candidates, getElem?_prune, mem_filter, mem_candidates, decide_eq_true_eq]
  have hkept : (dir.candidates.take 3).filter keep = dir.candidates.take 3 := by
    refine filter_eq_self.mpr fun f hf => decide_eq_true (.inl ?_)
    rw [retained]
    exact mem_append_left _ hf
  rw [hfilter, ← take_append_drop 3 dir.candidates, filter_append, hkept]
  by_cases hlength : i < (dir.candidates.take 3).length
  · rw [getElem?_append_left hlength, getElem?_append_left hlength]
  · have hshort : dir.candidates.length ≤ 3 := by
      rw [length_take] at hlength
      omega
    rw [drop_eq_nil_of_le hshort, filter_nil]

/-- The manifest an open goes on with if the newest file cannot be read. -/
def fallback (dir : Manifests) : Except Error Manifest := loadFirst none dir.candidates.tail

variable {newest : UInt64 × Bytes} {rest : List (UInt64 × Bytes)}

variable {bytes : Bytes}

/-- The newest file with another content. -/
theorem candidates_replace (h : dir.candidates = newest :: rest) :
    Manifests.candidates (dir.insert newest.1 bytes) = (newest.1, bytes) :: rest := by
  have hdescending := descending_candidates dir
  rw [h, pairwise_cons] at hdescending
  refine eq_of_descending (descending_candidates _) (pairwise_cons.mpr hdescending) fun f => ?_
  obtain ⟨k, content⟩ := f
  have hmem : (k, content) ∈ dir.candidates ↔ dir[k]? = some content := mem_candidates
  rw [h, mem_cons] at hmem
  rw [mem_candidates, KeyedMap.getElem?_insert_eq, mem_cons, Prod.mk.injEq]
  split
  · next heq =>
    subst heq
    have hnot : (newest.1, content) ∉ rest := fun hrest =>
      absurd (hdescending.1 _ hrest) Std.lt_irrefl
    simp [hnot, eq_comm]
  · next hne =>
    rw [← hmem]
    have hother : (k, content) ≠ newest := fun heq => hne (congrArg Prod.fst heq).symm
    simp [hother, Ne.symm hne]

/-- An open behind the loss of the newest file. -/
theorem load_replace (h : dir.candidates = newest :: rest)
    (hbad : ∀ m, Manifest.read bytes newest.1 ≠ .ok m) {m : Manifest}
    (hload : Manifests.load (dir.insert newest.1 bytes) = .ok m) :
    dir.fallback = .ok m := by
  rw [load, candidates_replace h] at hload
  obtain ⟨before, content, after, heq, hread, hbefore⟩ := loadFirst_eq_ok.mp hload
  rw [fallback, h, tail_cons, loadFirst_eq_ok]
  cases before with
  | nil =>
    obtain ⟨hfirst, -⟩ := List.cons.inj heq
    obtain ⟨hgeneration, rfl⟩ := Prod.mk.inj hfirst
    rw [← hgeneration] at hread
    exact absurd hread (hbad m)
  | cons c before =>
    obtain ⟨-, hrest⟩ := List.cons.inj heq
    exact ⟨before, content, after, hrest, hread, fun f hf => hbefore f (mem_cons_of_mem _ hf)⟩

theorem load_replace_of_fallback (h : dir.candidates = newest :: rest)
    (hbad : Manifest.Unreadable bytes newest.1) {m : Manifest} (hfallback : dir.fallback = .ok m) :
    Manifests.load (dir.insert newest.1 bytes) = .ok m := by
  rw [fallback, h, tail_cons, loadFirst_eq_ok] at hfallback
  obtain ⟨before, content, after, hrest, hread, hbefore⟩ := hfallback
  rw [load, candidates_replace h]
  refine loadFirst_eq_ok.mpr ⟨(newest.1, bytes) :: before, content, after, ?_, hread, ?_⟩
  · rw [hrest]
    rfl
  · exact forall_mem_cons.mpr ⟨hbad, hbefore⟩

end Manifests

namespace Manifest

theorem validate_of_read {bytes : Bytes} {generation : UInt64} {m : Manifest}
    (h : read bytes generation = .ok m) : m.validate = .ok () := by
  simp only [read, bind_eq_ok, failIf_eq_ok, mapError_eq_ok, not_not, Except.ok.injEq] at h
  obtain ⟨_, -, _, -, _, -, _, -, _, -, _, -, _, -, m', -, _, -, _, hvalid, rfl⟩ := h
  exact hvalid

/-- The segments of a valid manifest have points, and these can be counted. -/
theorem points_of_validateSegments {generation previous : UInt64} {files : List String}
    {cumulative : Nat} {ds : List RawSegmentDescriptor} (hlt : cumulative < 2 ^ 64)
    (h : validateSegments generation files previous cumulative ds = .ok ()) :
    (∀ d ∈ ds, 0 < d.points.toNat) ∧
      cumulative + (ds.map fun d => d.points.toNat).sum < 2 ^ 64 := by
  induction ds generalizing files previous cumulative with
  | nil => exact ⟨nofun, hlt⟩
  | cons d ds ih =>
    rw [validateSegments] at h
    obtain ⟨_, -, h⟩ := bind_eq_ok.mp h
    obtain ⟨_, hfits, h⟩ := bind_eq_ok.mp h
    obtain ⟨_, hvalid, h⟩ := bind_eq_ok.mp h
    rw [failIf_eq_ok, Nat.not_le] at hfits
    rw [failIf_eq_ok] at hvalid
    obtain ⟨hpoints, hsum⟩ := ih hfits h
    have hpos : 0 < d.points.toNat := by
      rw [Nat.pos_iff_ne_zero]
      intro hzero
      have hpoints : d.points = 0 := UInt64.toNat_inj.mp hzero
      exact hvalid (by simp [hpoints])
    refine ⟨forall_mem_cons.mpr ⟨hpos, hpoints⟩, ?_⟩
    rw [map_cons, sum_cons]
    omega

end Manifest

namespace Store

/-! ## The two newest manifests of a run -/

/-- What an older manifest is to a store: it names the same segments, or it lacks the
last one.  In that case its rollups in use have seen all points, and all of them
are sealed. -/
def Older (s : Store) (m : Manifest) : Prop :=
  m.segments = s.manifest.segments ∨ ∃ d, s.manifest.segments = m.segments ++ [d] ∧
    (m.hasActiveRollups = true → s.manifest.hasActiveRollups = true ∧ s.database.points = 0 ∧
      ∀ r ∈ m.rollups, r.active = true → r.sourcePoints = s.database.statPoints)

/-- The newest manifest is that of the store, and the one before it can be read. -/
structure Backup (s : Store) : Prop where
  newest : ∀ {f}, s.directory.manifests.candidates[0]? = some f →
    Manifest.read f.2 f.1 = .ok s.manifest
  older : ∀ {f}, s.directory.manifests.candidates[1]? = some f →
    ∃ m, Manifest.read f.2 f.1 = .ok m ∧ s.Older m

theorem candidates_removeUnreferencedFiles (dir : Directory) (m : Manifest) (io : GcIo) {i : Nat}
    (hi : i < 3) : (dir.removeUnreferencedFiles m io).manifests.candidates[i]? =
      dir.manifests.candidates[i]? := by
  rw [Directory.manifests_removeUnreferencedFiles]
  split
  · rfl
  · exact Manifests.getElem?_candidates_prune _ _ hi

theorem candidates_publish {s s' : Store} {next : Manifest} {io : PublishIo}
    (hgeneration : next.generation = nextGeneration s.manifest.generation)
    (hnewest : ∀ {f}, s.directory.manifests.candidates[0]? = some f →
      Manifest.read f.2 f.1 = .ok s.manifest)
    (h : s.publishOrPoison next io = (.ok (), s')) :
    (∀ {f}, s'.directory.manifests.candidates[0]? = some f →
      Manifest.read f.2 f.1 = .ok s'.manifest) ∧
    s'.directory.manifests.candidates[1]? = s.directory.manifests.candidates[0]? := by
  obtain ⟨dir, hpublish, rfl⟩ := publishOrPoison_eq_ok.mp h
  obtain ⟨bytes, hencode, hfree, -, rfl⟩ := Manifests.publish_eq_ok hpublish
  have hgreater : ∀ f ∈ s.directory.manifests.candidates, f.1 < (published next).generation := by
    intro f hf
    cases hcandidates : s.directory.manifests.candidates with
    | nil =>
      rw [hcandidates] at hf
      cases hf
    | cons first rest =>
      have hfirst := Manifest.generation_of_read (hnewest (f := first) (by rw [hcandidates]; rfl))
      have hmem : first ∈ s.directory.manifests.candidates := by
        rw [hcandidates]
        exact mem_cons_self
      have hlt : s.manifest.generation < (published next).generation := by
        show s.manifest.generation < next.generation
        rw [hgeneration]
        refine Directory.lt_nextGeneration fun heq => hfree ?_
        show next.generation ∈ s.directory.manifests
        rw [hgeneration, heq, hfirst]
        exact KeyedMap.mem_of_getElem? (Manifests.mem_candidates.mp hmem)
      have hdescending := Manifests.descending_candidates s.directory.manifests
      rw [hcandidates] at hf hdescending
      rcases mem_cons.mp hf with rfl | hf
      · rwa [← hfirst]
      · refine Std.lt_trans ((pairwise_cons.mp hdescending).1 f hf) ?_
        rwa [← hfirst]
  have hinsert := Manifests.candidates_insert bytes hgreater
  have htop : ∀ {i : Nat}, i < 3 → ({ s with
      directory := { s.directory with
        manifests := s.directory.manifests.insert (published next).generation bytes }
      manifest := published next }.removeUnreferencedFiles
        io.gc).directory.manifests.candidates[i]? =
          (((published next).generation, bytes) :: s.directory.manifests.candidates)[i]? := by
    intro i hi
    rw [← hinsert]
    exact candidates_removeUnreferencedFiles _ _ _ hi
  constructor
  · intro f hf
    rw [htop (by decide)] at hf
    cases hf
    exact Manifest.read_encodeFile hencode
  · rw [htop (by decide)]
    rfl

/-- What a successful call that does not seal does to the manifests: nothing, or it
publishes the same segments again.  Without a publication no point is added behind
the rollups in use. -/
inductive Republishes (s s' : Store) : Prop
  | kept : s'.manifest = s.manifest →
      (∀ i < 2, s'.directory.manifests.candidates[i]? = s.directory.manifests.candidates[i]?) →
      (s.manifest.hasActiveRollups = true → s'.database.points = s.database.points ∧
        s'.database.statPoints = s.database.statPoints) → Republishes s s'
  | renewed {s₁ s₂ : Store} {next : Manifest} {io : PublishIo} :
      s₁.publishOrPoison next io = (.ok (), s₂) → s₁.manifest = s.manifest →
      s₁.directory.manifests = s.directory.manifests →
      next.generation = nextGeneration s.manifest.generation →
      next.segments = s.manifest.segments → s'.manifest = s₂.manifest →
      (∀ i < 2, s'.directory.manifests.candidates[i]? = s₂.directory.manifests.candidates[i]?) →
      Republishes s s'

theorem Backup.advanced {s s' : Store} (h : s.Backup) (hstep : Republishes s s') : s'.Backup := by
  cases hstep with
  | kept hmanifest htop hpoints =>
    constructor
    · intro f hf
      rw [htop 0 (by decide)] at hf
      rw [hmanifest]
      exact h.newest hf
    · intro f hf
      rw [htop 1 (by decide)] at hf
      obtain ⟨m, hread, holder⟩ := h.older hf
      refine ⟨m, hread, ?_⟩
      rw [Older, hmanifest]
      refine holder.imp_right ?_
      rintro ⟨d, hsegments, hactive⟩
      refine ⟨d, hsegments, fun hm => ?_⟩
      obtain ⟨hs, hzero, hseen⟩ := hactive hm
      rw [(hpoints hs).1, (hpoints hs).2]
      exact ⟨hs, hzero, hseen⟩
  | @renewed s₁ s₂ next io hpublish hmanifest hmanifests hgeneration hsegments hsame htop =>
    rw [← hmanifest] at hgeneration
    obtain ⟨hnewest, holder⟩ := candidates_publish hgeneration
      (by rw [hmanifests, hmanifest]; exact h.newest) hpublish
    constructor
    · intro f hf
      rw [htop 0 (by decide)] at hf
      rw [hsame]
      exact hnewest hf
    · intro f hf
      rw [htop 1 (by decide), holder, hmanifests] at hf
      refine ⟨s.manifest, h.newest hf, .inl ?_⟩
      rw [hsame, (Renews.of_publish hpublish).manifest]
      exact hsegments.symm

/-! ## The calls -/

section Calls

theorem pointCount_of_published {files : SegmentFiles} {ds : List RawSegmentDescriptor}
    {segments : List Segment} (h : publishedSegments files ds = .ok segments) :
    (segments.map Segment.pointCount).sum = (ds.map fun d => d.points.toNat).sum := by
  rw [publishedSegments, mapM_eq_ok] at h
  induction h with
  | nil => rfl
  | @cons d segment ds segments hd _ ih =>
    rw [map_cons, map_cons, sum_cons, sum_cons, ih]
    split at hd
    · obtain ⟨_, hverified, rfl⟩ := map_eq_ok.mp hd
      rw [verifyRawSegmentDescriptor, failIf_eq_ok, not_or, not_not] at hverified
      rw [hverified.1]
    · cases hd

variable [Jiff] {s s' : Store} {history : List Point}

variable {points : List Point} {config : Config} {db : Database}

theorem points_of_grows {db' : Database} (h : db.Grows db' []) :
    db'.points = db.points ∧ db'.statPoints = db.statPoints :=
  ⟨h.count, statPoints_of_grows h⟩

theorem Effect.republishes (h : Effect s s' points) : Republishes s s' := by
  cases h with
  | kept hgrows hnone =>
    refine .kept rfl (fun _ _ => rfl) fun hactive => ?_
    rw [hnone hactive] at hgrows
    exact points_of_grows hgrows
  | advanced _ hpublish => exact .renewed hpublish rfl rfl rfl rfl rfl fun _ _ => rfl
  | maintained hgrows _ hpublish =>
    split at hpublish
    · exact .renewed hpublish rfl rfl rfl rfl rfl fun _ _ => rfl
    · cases hpublish
      exact .kept rfl (fun _ _ => rfl) fun _ => points_of_grows hgrows

/-- A seal leaves the manifest without the new segment behind its own. -/
theorem Backup.sealed {io : SealIo} (h : s.Backup) (hcarries : s.Carries history)
    (htidy : s.Tidy) (hseals : Seals s s' io) : s'.Backup := by
  have hdirectory := (congrArg Store.directory hseals.done :)
  have hmanifest := (congrArg Store.manifest hseals.done :)
  have hrenews := Renews.of_publish hseals.publishes
  obtain ⟨hnewest, holder⟩ := candidates_publish (s := { s.withSegment hseals.segment io with
    database := hseals.marked }) rfl h.newest hseals.publishes
  constructor
  · intro f hf
    rw [hdirectory] at hf
    rw [hmanifest]
    exact hnewest hf
  · intro f hf
    rw [hdirectory] at hf
    have hsegments := congrArg Manifest.segments (hmanifest.trans hrenews.manifest)
    have hrollups := congrArg Manifest.rollups (hmanifest.trans hrenews.manifest)
    refine ⟨s.manifest, h.newest (holder.symm.trans hf),
      .inr ⟨_, hsegments, fun hactive => ⟨?_, ?_, ?_⟩⟩⟩
    · rw [Manifest.hasActiveRollups, hrollups]
      obtain ⟨d, hd, hactive⟩ := any_eq_true.mp hactive
      exact any_eq_true.mpr ⟨d, mem_filter.mpr ⟨hd, hactive⟩, hactive⟩
    · exact hcarries.points_of_seals hseals
    · intro r hr hactive
      rw [htidy.current r hr hactive, statPoints_of_carries (hcarries.sealed hseals),
        statPoints_of_carries hcarries]

/-! ## Opening -/

/-- The points of a store are those of its segments and the live ones. -/
theorem live_of_carries (h : s.Carries history) :
    s.database.points + (s.manifest.segments.map fun d => d.points.toNat).sum = history.length := by
  rw [← pointCount_of_published h.attached, ← h.sealedPoints]
  exact h.count

theorem reopen_manifests (hcarries : s.Carries history) {io : OpenIo}
    {disk' : Disk} (hopen : openWith config s.disk io = (.ok s', disk')) : Republishes s s' := by
  have hcarries' := hcarries.reopened hopen
  obtain ⟨db, segments, hreopens, hfinish⟩ := hcarries.opens hopen
  obtain ⟨-, segments', s₁, -, hreconcile, hreclaim⟩ := finishOpen_eq_ok.mp hfinish
  have hsame : s'.manifest = s₁.manifest ∧
      s'.directory = (s₁.removeUnreferencedFiles io.gc).directory := by
    obtain ⟨db', rfl⟩ := hreclaim.exists_eq
    exact ⟨rfl, rfl⟩
  have htop : ∀ i < 2, s'.directory.manifests.candidates[i]? =
      s₁.directory.manifests.candidates[i]? := by
    intro i hi
    rw [hsame.2]
    exact candidates_removeUnreferencedFiles _ _ _ (by omega)
  have hcases := (verifyAndReconcileManifest_eq_ok.mp hreconcile).2
  split at hcases
  · exact .renewed hcases rfl rfl rfl rfl hsame.1 htop
  · subst hcases
    refine .kept hsame.1 htop fun _ => ⟨?_, ?_⟩
    · have hlive := live_of_carries hcarries
      have hlive' := live_of_carries hcarries'
      rw [hsame.1] at hlive'
      exact Nat.add_right_cancel (hlive'.trans hlive.symm)
    · rw [statPoints_of_carries hcarries', statPoints_of_carries hcarries]

theorem Backup.created {io : OpenIo} {disk' : Disk}
    (hopen : openWith config ⟨.empty, {}⟩ io = (.ok s, disk')) : s.Backup := by
  obtain ⟨-, m, db, file, hload, hlog, hfinish⟩ := openWith_eq_ok.mp hopen
  obtain rfl := Except.ok.inj (hload.symm.trans rfl)
  obtain ⟨-, segments, s₁, -, hreconcile, hreclaim⟩ := finishOpen_eq_ok.mp hfinish
  obtain rfl := (verifyAndReconcileManifest_eq_ok.mp hreconcile).2
  have hnone : ∀ i < 2, s.directory.manifests.candidates[i]? = none := by
    intro i hi
    obtain ⟨db', rfl⟩ := hreclaim.exists_eq
    exact candidates_removeUnreferencedFiles {} {} io.gc (show i < 3 by omega)
  constructor
  · intro f hf
    rw [hnone 0 (by decide)] at hf
    cases hf
  · intro f hf
    rw [hnone 1 (by decide)] at hf
    cases hf

theorem Run.backup (h : Run s history) : s.Backup :=
  h.invariant .created (fun _ ih heffect => ih.advanced heffect.republishes)
    (fun hrun ih hseals => ih.sealed hrun.carries hrun.tidy hseals)
    fun hrun ih hopen => ih.advanced (reopen_manifests hrun.carries hopen)

/-! ## The log of a run -/

/-- A log without checkpoints, so that a scan does not depend on the manifest. -/
def Unmarked (s : Store) : Prop :=
  ∃ fs t, s.database.file.bytes = logBytes fs ∧ s.database.Rebuilt [] fs t ∧
    ∀ f ∈ fs, f.kind ≠ .sealCheckpoint

theorem Unmarked.extended (h : s.Unmarked) (heffect : Effect s s' points) : s'.Unmarked := by
  obtain ⟨db, hgrows, hfollows⟩ := heffect.follows
  obtain ⟨fs, t, hbytes, hrebuilt, hkinds⟩ := h
  obtain ⟨more, t', hbytes', hrebuilt', hmore⟩ := hgrows.log hbytes hrebuilt
  rw [Unmarked, hfollows.database]
  refine ⟨fs ++ more, t', hbytes', hrebuilt', fun f hf => ?_⟩
  exact (mem_append.mp hf).elim (hkinds f) (hmore f)

theorem Unmarked.rewritten (hrewrites : s.database.Rewrites db) :
    Unmarked { s with database := db } := by
  obtain ⟨fs, t, hbytes, hkinds, hrebuilt⟩ := hrewrites.log
  exact ⟨fs, t, hbytes, hrebuilt, hkinds⟩

theorem Unmarked.sealed {io : SealIo} (hcarries : s.Carries history) (hseals : Seals s s' io) :
    s'.Unmarked := by
  rw [hseals.done]
  exact .rewritten (s := { hseals.published with database :=
    (hseals.published.database.attachSealedSegments hseals.segments).clearLiveIndex })
    (hcarries.rewrites_of_seals hseals).2.1

/-- The steps of an open behind its log. -/
theorem Unmarked.finished {s₀ : Store} {io : OpenIo} (h : s₀.Unmarked)
    (hreachable : s₀.database.Reachable) (hfinish : finishOpen s₀ io = (.ok (), s)) :
    s.Unmarked := by
  obtain ⟨-, segments, s₁, -, hreconcile, hreclaim⟩ := finishOpen_eq_ok.mp hfinish
  have hdatabase : s₁.database = s₀.database.attachSealedSegments segments :=
    database_of_reconciled hreconcile
  rw [FinishesReclaim] at hreclaim
  split at hreclaim
  · obtain ⟨db, hdone, rfl⟩ := hreclaim
    have hsound : (s₁.removeUnreferencedFiles io.gc).database.Sound := by
      show s₁.database.Sound
      rw [hdatabase]
      exact (hreachable.attachSealedSegments segments).sound
    exact .rewritten (.of_reclaim hsound hdone)
  · obtain ⟨fs, t, hbytes, hrebuilt, hkinds⟩ := h
    rw [hreclaim]
    refine ⟨fs, t, ?_, ?_, hkinds⟩
    · show s₁.database.file.bytes = _
      rw [hdatabase]
      exact hbytes
    · show s₁.database.Rebuilt [] fs t
      rw [hdatabase]
      exact ⟨hrebuilt.fits, hrebuilt.replay, hrebuilt.tables⟩

/-- A log without checkpoints is read in the same way under every manifest. -/
theorem Unmarked.opens (h : s.Unmarked) {readOnly : Bool} {published : List UInt64}
    {io : Ftwdb.OpenIo} {file : File}
    (hlog : Database.openMode config readOnly published s.database.file io = (.ok db, file)) :
    ∃ fs t, s.database.file.bytes = logBytes fs ∧ db.Opened config published fs t [] ∧
      db.file.bytes = logBytes fs ∧ db.Rebuilt [] fs t ∧ s.database.Rebuilt [] fs t ∧
      ∀ f ∈ fs, f.kind ≠ .sealCheckpoint := by
  obtain ⟨fs, t, hbytes, hrebuilt, hkinds⟩ := h
  obtain ⟨t', hopened, hfile⟩ := Database.openMode_logBytes hbytes hlog
  have hreplay := hopened.replay
  rw [replay_published hkinds] at hreplay
  obtain rfl := replay_limits hrebuilt.replay hreplay
  exact ⟨fs, t, hbytes, hopened, hfile, ⟨hopened.fits, hreplay, hopened.tables⟩, hrebuilt, hkinds⟩

theorem Run.unmarked (h : Run s history) : s.Unmarked := by
  refine h.invariant (fun hopen => ?_) (fun _ ih heffect => ih.extended heffect)
    (fun hrun _ hseals => .sealed hrun.carries hseals) fun _ ih hopen => ?_
  · obtain ⟨-, m, db, file, hload, hlog, hfinish⟩ := openWith_eq_ok.mp hopen
    obtain rfl := Except.ok.inj (hload.symm.trans rfl)
    obtain ⟨-, hopened, hbytes⟩ := opened_new hlog
    exact .finished ⟨[], _, hbytes, hopened.toRebuilt, nofun⟩ (.opened hlog) hfinish
  · obtain ⟨-, m, db, file, -, hlog, hfinish⟩ := openWith_eq_ok.mp hopen
    obtain ⟨fs, t, -, hopened, hbytes, hrebuilt, -, hkinds⟩ := ih.opens hlog
    exact .finished ⟨fs, t, hbytes, hrebuilt, hkinds⟩ (.opened hlog) hfinish

end Calls

end Store

/-! ## Losing the newest manifest -/

/-- The directory with another content in one manifest. -/
def Disk.replacing (disk : Disk) (generation : UInt64) (bytes : Bytes) : Disk :=
  { disk with directory := { disk.directory with
    manifests := disk.directory.manifests.insert generation bytes } }

/-- The handle has exactly these points. -/
structure Database.Exposes (db : Database) (history : List Point) : Prop where
  answers : db.Answers history
  count : db.points + db.sealedPoints = history.length

namespace Store

section Loss

/-- What the fallback of a run is: the manifest behind the newest one. -/
theorem Backup.fallback {s : Store} {m : Manifest} (h : s.Backup)
    (hfallback : s.directory.manifests.fallback = .ok m) : s.Older m := by
  rw [Manifests.fallback] at hfallback
  cases htail : s.directory.manifests.candidates.tail with
  | nil =>
    rw [htail] at hfallback
    cases hfallback
  | cons f rest =>
    have hsecond : s.directory.manifests.candidates[1]? = some f := by
      rw [← getElem?_tail, htail]
      rfl
    obtain ⟨m', hread, holder⟩ := h.older hsecond
    rw [htail, Manifests.loadFirst, hread] at hfallback
    rwa [← Except.ok.inj hfallback]

variable [Jiff] {s s' : Store} {history : List Point}

/-- However the newest manifest becomes unreadable: an open fails, or the store has the
whole history. -/
def NoSilentLoss (s : Store) (history : List Point) : Prop :=
  ∀ newest bytes, s.directory.manifests.candidates.head? = some newest →
    (∀ m, Manifest.read bytes newest.1 ≠ .ok m) →
    (∀ config io s' disk', openWith config (s.disk.replacing newest.1 bytes) io = (.ok s', disk') →
      s'.database.Exposes history) ∧
    ∀ s', openReadOnly (s.disk.replacing newest.1 bytes) = .ok s' → s'.database.Exposes history

theorem openReadOnly_eq_ok {disk : Disk} (h : openReadOnly disk = .ok s) : ∃ m db segments,
    disk.directory.manifests.load = .ok m ∧
    (Database.openMode {} true m.publishedSeals disk.log {}).1 = .ok db ∧
    publishedSegments disk.directory.segments m.segments = .ok segments ∧
    (∀ d ∈ m.rollups, verifyDescriptor (db.attachSealedSegments segments).statPoints
      disk.directory.rollups d = .ok ()) ∧ s.database = db.attachSealedSegments segments := by
  obtain ⟨m, hload, h⟩ := bind_eq_ok.mp h
  obtain ⟨db, hlog, h⟩ := bind_eq_ok.mp h
  cases hsegments : publishedSegments disk.directory.segments m.segments with
  | error e =>
    simp only [attachPublishedSegments, ofDatabase, hsegments] at h
    cases h
  | ok segments =>
    simp only [attachPublishedSegments, ofDatabase, hsegments] at h
    obtain ⟨_, hverified, h⟩ := bind_eq_ok.mp h
    cases h
    exact ⟨m, db, segments, hload, hlog, hsegments, each_eq_ok.mp hverified, rfl⟩

variable {m : Manifest} {config : Config} {readOnly : Bool} {io : Ftwdb.OpenIo} {db : Database}
  {d : RawSegmentDescriptor} {newest : UInt64 × Bytes}

variable {file : File} {segments : List Segment}

/-- A log of a run, read under a manifest with the same segments. -/
theorem carries_of_same (hrun : Run s history) {bytes : Bytes} {generation : UInt64}
    (hload : Manifests.load (s.directory.manifests.insert generation bytes) = .ok m)
    (hsame : m.segments = s.manifest.segments)
    (hlog : Database.openMode config readOnly m.publishedSeals s.database.file io =
      (.ok db, file)) :
    Carries { ofDatabase db (s.disk.replacing generation bytes).directory m false with
      database := db.attachSealedSegments s.database.sealed } history := by
  obtain ⟨fs, t, hbytes, hopened, hfile, -, hrebuilt, -⟩ := hrun.unmarked.opens hlog
  have hholds : Disk.Holds ⟨s.database.file, (s.disk.replacing generation bytes).directory⟩ m
      s.database.sealed fs t history := {
    loads := hload
    published := by
      rw [hsame]
      exact hrun.carries.attached
    made := hrun.carries.made
    log := hbytes
    replays := ⟨_, hopened.replay⟩
    series := fun seriesId => by
      rw [← hrebuilt.tables.index]
      exact hrun.carries.series seriesId
    count := by
      rw [← hrebuilt.tables.points, ← hrun.carries.sealedPoints]
      exact hrun.carries.count }
  exact .of_holds (.opened hlog) hfile hopened.toRebuilt hholds

/-- The points of a log of a run under a manifest without the last segment. -/
theorem points_without (hrun : Run s history) (hlacks : s.manifest.segments = m.segments ++ [d])
    (hlog : Database.openMode config readOnly m.publishedSeals s.database.file io = (.ok db, file))
    (hsegments : publishedSegments s.directory.segments m.segments = .ok segments) :
    (db.attachSealedSegments segments).points +
      (db.attachSealedSegments segments).sealedPoints + d.points.toNat = history.length ∧
    (db.attachSealedSegments segments).points = s.database.points := by
  obtain ⟨fs, t, -, hopened, -, hdb, hrebuilt, -⟩ := hrun.unmarked.opens hlog
  have hpoints : db.points = s.database.points := by
    rw [hopened.tables.points, hrebuilt.tables.points]
  have hlive := live_of_carries hrun.carries
  rw [hlacks, map_append, sum_append, ← pointCount_of_published hsegments] at hlive
  refine ⟨?_, hpoints⟩
  show db.points + (segments.map Segment.pointCount).sum + d.points.toNat = history.length
  rw [hpoints, ← hlive]
  simp only [map_cons, map_nil, sum_cons, sum_nil]
  omega

/-- A rollup in use gives the missing segment away. -/
theorem not_verified (hrun : Run s history)
    (hnewest : s.directory.manifests.candidates[0]? = some newest)
    (hlacks : s.manifest.segments = m.segments ++ [d])
    (hzero : s.database.points = 0) {r : RollupDescriptor}
    (hseen : r.sourcePoints = s.database.statPoints)
    (hcount : db.points + db.sealedPoints + d.points.toNat = history.length)
    (hpoints : db.points = s.database.points) : ¬ r.sourcePoints ≤ db.statPoints := by
  have hvalid := Manifest.validate_of_read (hrun.backup.newest hnewest)
  obtain ⟨_, -, hsegments⟩ := bind_eq_ok.mp hvalid
  obtain ⟨hpositive, hsum⟩ := Manifest.points_of_validateSegments (by decide) hsegments
  have hd := hpositive d (by rw [hlacks]; exact mem_append_right _ (mem_singleton_self d))
  have hlive := live_of_carries hrun.carries
  have hsize : UInt64.size = 2 ^ 64 := rfl
  rw [hseen, statPoints_of_carries hrun.carries, Database.statPoints, UInt64.le_iff_toNat_le,
    UInt64.toNat_ofNat_of_lt' (by omega), UInt64.toNat_ofNat_of_lt' (by omega)]
  omega

/-- An older manifest whose rollups pass the checks of an open names all segments, if one
of them is in use. -/
theorem same_of_verified (hrun : Run s history)
    (hnewest : s.directory.manifests.candidates[0]? = some newest) (holder : s.Older m)
    (hactive : m.segments = s.manifest.segments ∨ m.hasActiveRollups = true)
    (hlog : Database.openMode config readOnly m.publishedSeals s.database.file io = (.ok db, file))
    (hsegments : publishedSegments s.directory.segments m.segments = .ok segments)
    (hverified : ∀ r ∈ m.rollups, verifyDescriptor (db.attachSealedSegments segments).statPoints
      s.directory.rollups r = .ok ()) : m.segments = s.manifest.segments := by
  rcases hactive with hsame | hactive
  · exact hsame
  rcases holder with hsame | ⟨d, hlacks, hseen⟩
  · exact hsame
  obtain ⟨-, hzero, hseen⟩ := hseen hactive
  obtain ⟨r, hr, hactive⟩ := any_eq_true.mp hactive
  obtain ⟨hcount, hpoints⟩ := points_without hrun hlacks hlog hsegments
  exact absurd ((verifyDescriptor_eq_ok.mp (hverified r hr)).1 hactive)
    (not_verified hrun hnewest hlacks hzero (hseen r hr hactive) hcount hpoints)

/-- The open of a store whose fallback lacks a segment and has no rollup in use. -/
theorem opens_without (hrun : Run s history)
    {rest : List (UInt64 × Bytes)} (hcandidates : s.directory.manifests.candidates = newest :: rest)
    (hfallback : s.directory.manifests.fallback = .ok m)
    (hlacks : s.manifest.segments = m.segments ++ [d]) (hinactive : m.hasActiveRollups = false) :
    ∃ s' disk', openWith s.database.config (s.disk.replacing newest.1 []) {} = (.ok s', disk') ∧
      s'.database.points + s'.database.sealedPoints + d.points.toNat = history.length := by
  obtain ⟨fs, t, hbytes, hrebuilt, hkinds⟩ := hrun.unmarked
  have hunreadable : Manifest.Unreadable [] newest.1 := ⟨_, rfl, nofun⟩
  have hload := Manifests.load_replace_of_fallback hcandidates hunreadable hfallback
  have hnil : s.database.file.bytes = logBytes fs ++ [] := by rw [hbytes, append_nil]
  have hreplay :
      replay s.database.config.limits m.publishedSeals databaseHeaderBytes {} fs = .ok t := by
    rw [replay_published hkinds]
    exact hrebuilt.replay
  rcases Database.openExclusive_logged hnil hrebuilt.fits hreplay (.inl rfl) {} with
    ⟨db, hopen, hopened, -⟩ | ⟨_, -, hio, -⟩
  · have hlog : Database.openMode s.database.config false m.publishedSeals s.database.file {} =
        (.ok db, db.file) := by
      rw [Database.openMode, hrun.carries.reachable.validate]
      exact hopen
    obtain ⟨segments, f, hsegments, -, -⟩ :=
      publishedSegments_concat (hlacks ▸ hrun.carries.attached)
    have hcount := (points_without hrun hlacks hlog hsegments).1
    have hnone : ∀ r ∈ m.rollups, r.active = false := by
      intro r hr
      rw [Manifest.hasActiveRollups, any_eq_false] at hinactive
      exact Bool.not_eq_true _ ▸ hinactive r hr
    have hpending : db.pendingReclaim = false := by
      rw [hopened.pending, pendingReclaim_replay hrebuilt.replay]
    let s₀ : Store := ofDatabase db (s.disk.replacing newest.1 []).directory m false
    let s₁ : Store := { s₀ with database := db.attachSealedSegments segments }
    have hverified : s₁.verifyAndReconcileManifest {} = (.ok (), s₁) := by
      refine verifyAndReconcileManifest_eq_ok.mpr ⟨fun r hr => ?_, ?_⟩
      · rw [verifyDescriptor, hnone r hr]
        rfl
      · rw [if_neg]
        rw [any_eq_true, not_exists]
        rintro r ⟨hr, hstale⟩
        rw [isStale, hnone r hr] at hstale
        cases hstale
    refine ⟨s₁.removeUnreferencedFiles {}, _, openWith_eq_ok.mpr ⟨rfl, m, db, db.file, hload, hlog,
      finishOpen_eq_ok.mpr ⟨rfl, segments, s₁, hsegments, hverified, ?_⟩⟩, hcount⟩
    rw [FinishesReclaim, if_neg]
    show ¬ db.pendingReclaim = true
    rw [hpending]
    exact Bool.false_ne_true
  · exact absurd rfl hio

/-- No point is lost in silence exactly if the manifest behind the newest one names the
same segments, or has a rollup in use. -/
theorem no_silent_loss_iff (hrun : Run s history) :
    NoSilentLoss s history ↔ ∀ m, s.directory.manifests.fallback = .ok m →
      m.segments = s.manifest.segments ∨ m.hasActiveRollups = true := by
  constructor
  · intro hsafe m hfallback
    rcases hrun.backup.fallback hfallback with hsame | ⟨d, hlacks, -⟩
    · exact .inl hsame
    · refine .inr ?_
      by_contra hinactive
      obtain ⟨newest, rest, hcandidates⟩ : ∃ newest rest,
          s.directory.manifests.candidates = newest :: rest := by
        cases hcandidates : s.directory.manifests.candidates with
        | nil =>
          rw [Manifests.fallback, hcandidates] at hfallback
          cases hfallback
        | cons newest rest => exact ⟨newest, rest, rfl⟩
      obtain ⟨s', disk', hopen, hcount⟩ := opens_without hrun hcandidates hfallback hlacks
        (Bool.not_eq_true _ ▸ hinactive)
      have hexposes :=
        ((hsafe newest [] (by rw [hcandidates]; rfl) nofun).1 _ _ s' disk' hopen).count
      have hvalid := Manifest.validate_of_read
        (hrun.backup.newest (f := newest) (by rw [hcandidates]; rfl))
      obtain ⟨_, -, hsegments⟩ := bind_eq_ok.mp hvalid
      have hd := (Manifest.points_of_validateSegments (by decide) hsegments).1 d
        (by rw [hlacks]; exact mem_append_right _ (mem_singleton_self d))
      omega
  · intro hcondition newest bytes hnewest hbad
    obtain ⟨rest, hcandidates⟩ := head?_eq_some_iff.mp hnewest
    have hfirst : s.directory.manifests.candidates[0]? = some newest := by rw [hcandidates]; rfl
    constructor
    · intro config io s' disk' hopen
      obtain ⟨-, m, db, file, hload, hlog, hfinish⟩ := openWith_eq_ok.mp hopen
      obtain ⟨-, segments, s₁, hsegments, hreconcile, -⟩ := finishOpen_eq_ok.mp hfinish
      have hfallback := Manifests.load_replace hcandidates hbad hload
      have hsame := same_of_verified hrun hfirst (hrun.backup.fallback hfallback)
        (hcondition m hfallback) hlog hsegments (verifyAndReconcileManifest_eq_ok.mp hreconcile).1
      have hcarries := carries_of_same hrun hload hsame hlog
      have hpublished := hrun.carries.attached
      rw [← hsame] at hpublished
      have hopened : s'.Carries history := .finished
        (ofDatabase db (s.disk.replacing newest.1 bytes).directory m false) hpublished
        hcarries hfinish
      exact ⟨hopened.answers, hopened.count⟩
    · intro s' hopen
      obtain ⟨m, db, segments, hload, hlog, hsegments, hverified, hdatabase⟩ :=
        openReadOnly_eq_ok hopen
      have hlog : Database.openMode {} true m.publishedSeals s.database.file {} =
          (.ok db, (Database.openMode {} true m.publishedSeals s.database.file {}).2) :=
        Prod.ext hlog rfl
      have hfallback := Manifests.load_replace hcandidates hbad hload
      have hsame := same_of_verified hrun hfirst (hrun.backup.fallback hfallback)
        (hcondition m hfallback) hlog hsegments hverified
      have hcarries := carries_of_same hrun hload hsame hlog
      have hpublished := hrun.carries.attached
      rw [← hsame] at hpublished
      obtain rfl := Except.ok.inj (hpublished.symm.trans hsegments)
      rw [hdatabase]
      exact ⟨hcarries.answers, hcarries.count⟩

end Loss

/-! ## Two seals -/

section Seals

variable [Jiff]

/-- One point, sealed. -/
def sealing (s : Store) (p : Point) : Store := ((s.append [p] {}).2.sealAndReclaim {}).2

/-- The two calls return. -/
def sealingOk (s : Store) (p : Point) : Bool :=
  (s.append [p] {}).1.isOk && ((s.append [p] {}).2.sealAndReclaim {}).1.isOk

theorem Run.sealing {s : Store} {history : List Point} {p : Point} (h : Run s history)
    (hok : s.sealingOk p = true) : Run (s.sealing p) (history ++ [p]) := by
  rw [sealingOk, Bool.and_eq_true] at hok
  have hreturns : ∀ {α : Type} {x : Result α}, x.1.isOk = true → ∃ a, x = (.ok a, x.2) := by
    intro α x hx
    obtain ⟨_ | a, s'⟩ := x
    · cases hx
    · exact ⟨a, rfl⟩
  obtain ⟨_, happend⟩ := hreturns hok.1
  obtain ⟨_, hseal⟩ := hreturns hok.2
  exact (h.append happend).sealAndReclaim hseal

end Seals

set_option maxRecDepth 20000 in
/-- Behind a maintenance the older manifest names the same segment, and nothing can be
lost in silence. -/
theorem no_silent_loss_maintained :
    letI := Jiff.withoutZones
    ∃ s history, Run s history ∧ s.database.sealedPoints = 3 ∧
      s.directory.manifests.fallback.map (fun m => m.segments.length) = .ok 1 ∧
      NoSilentLoss s history := by
  let _ := Jiff.withoutZones
  have hcomputed : (do
      let s ← (openWith {} ⟨.empty, {}⟩ {}).1
      let _ ← (s.commit twoDays {}).1
      let _ ← ((s.commit twoDays {}).2.sealAndReclaim {}).1
      let stored := ((s.commit twoDays {}).2.sealAndReclaim {}).2
      let _ ← (stored.maintain 86400000010 {}).1
      let kept := (stored.maintain 86400000010 {}).2
      let m ← kept.directory.manifests.fallback
      .ok (kept.database.sealedPoints, m.segments.length,
        decide (m.segments = kept.manifest.segments))) = .ok (3, 1, true) := by
    decide +kernel
  obtain ⟨s, hcreated, hcomputed⟩ := bind_eq_ok.mp hcomputed
  obtain ⟨_, hcommit, hcomputed⟩ := bind_eq_ok.mp hcomputed
  obtain ⟨_, hseal, hcomputed⟩ := bind_eq_ok.mp hcomputed
  obtain ⟨_, hmaintain, hcomputed⟩ := bind_eq_ok.mp hcomputed
  obtain ⟨m, hfallback, hfacts⟩ := bind_eq_ok.mp hcomputed
  simp only [Except.ok.injEq, Prod.mk.injEq, decide_eq_true_eq] at hfacts
  have hrun := (((Run.created (Prod.ext hcreated rfl)).commit (Prod.ext hcommit rfl)).sealAndReclaim
    (Prod.ext hseal rfl)).maintain (Prod.ext hmaintain rfl)
  refine ⟨_, _, hrun, hfacts.1, map_eq_ok.mpr ⟨m, hfallback, hfacts.2.1⟩,
    (no_silent_loss_iff hrun).mpr fun m' hm' => .inl ?_⟩
  rw [← Except.ok.inj (hfallback.symm.trans hm')]
  exact hfacts.2.2

set_option maxRecDepth 20000 in
/-- After two seals without rollups, the point of the second is lost with the newest
manifest. -/
theorem no_silent_loss_twoSeals :
    letI := Jiff.withoutZones
    ∃ s history, Run s history ∧ history = [.actual 7 100 ⟨1⟩, .actual 7 150 ⟨5⟩] ∧
      (openWith {} (s.disk.replacing 2 []) {}).1.map (fun s => s.database.queryHistory 7 0 200) =
        .ok [.actual 7 100 ⟨1⟩] ∧
      ¬ NoSilentLoss s history := by
  let _ := Jiff.withoutZones
  have hcomputed : (openWith {} ⟨.empty, {}⟩ {}).1.map (fun s =>
      let s₁ := s.sealing (.actual 7 100 ⟨1⟩)
      let s₂ := s₁.sealing (.actual 7 150 ⟨5⟩)
      (s.sealingOk (.actual 7 100 ⟨1⟩), s₁.sealingOk (.actual 7 150 ⟨5⟩),
        s₂.directory.manifests.candidates.head?.map Prod.fst,
        (openWith {} (s₂.disk.replacing 2 []) {}).1.map fun s => s.database.queryHistory 7 0 200)) =
      .ok (true, true, some 2, .ok [.actual 7 100 ⟨1⟩]) := by
    decide +kernel
  obtain ⟨s, hcreated, hfacts⟩ := map_eq_ok.mp hcomputed
  simp only [Prod.mk.injEq, Option.map_eq_some_iff] at hfacts
  obtain ⟨hfirst, hsecond, ⟨newest, hnewest, hgeneration⟩, hlost⟩ := hfacts
  obtain ⟨s', hopen, hquery⟩ := map_eq_ok.mp hlost
  have hrun := ((Run.created (Prod.ext hcreated rfl)).sealing hfirst).sealing hsecond
  refine ⟨_, _, hrun, rfl, map_eq_ok.mpr ⟨s', hopen, hquery⟩, fun hsafe => ?_⟩
  rw [← hgeneration] at hopen
  have hexposes := (hsafe newest [] hnewest nofun).1 {} {} s' _ (Prod.ext hopen rfl)
  have hall := hexposes.answers.history 7 0 200
  rw [hquery] at hall
  revert hall
  decide

end Store

end Ftwdb
