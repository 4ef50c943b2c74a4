import Ftwdb.Storage.ReclaimLaws
import Ftwdb.Store.Steps

/-!
# Publishing behind a fall-back

An open that passes over unreadable manifests runs on an older generation, and
counts on from there.  The files it passed over stay, as the newest ones by
name, so the number a later call publishes under may be taken.  `Blocked` says
when: the next number is that of one of the three newest files the open found.
The open itself needs that no newer file stops the load, that the rollups can be
reconciled, and that a reclaim which is still to be done fits its limits.
-/

namespace Ftwdb

open ByteCodec Check List

namespace Manifests

variable {dir : Manifests}

/-- Where a file stands among the candidates: behind all newer ones. -/
theorem mem_take_descending {files : List (UInt64 × Bytes)}
    (hfiles : files.Pairwise fun a b => b.1 < a.1) {c : UInt64 × Bytes} {n : Nat} :
    c ∈ files.take n ↔ c ∈ files ∧ (files.filter fun a => c.1 < a.1).length < n := by
  induction files generalizing n with
  | nil => simp
  | cons a files ih =>
    obtain ⟨hnewest, hfiles⟩ := pairwise_cons.mp hfiles
    cases n with
    | zero => simp
    | succ n =>
      rw [take_succ_cons, mem_cons, mem_cons, ih hfiles]
      by_cases hlt : c.1 < a.1
      · have hne : c ≠ a := by
          rintro rfl
          exact Std.lt_irrefl hlt
        rw [filter_cons_of_pos (by simpa using hlt), length_cons]
        simp [hne]
      · have hnil : files.filter (fun b => c.1 < b.1) = [] := by
          rw [filter_eq_nil_iff]
          intro b hb hcb
          exact hlt (Std.lt_trans (by simpa using hcb) (hnewest b hb))
        have hmem : c ∉ files := fun hmem => hlt (hnewest c hmem)
        rw [filter_cons_of_neg (by simpa using hlt), hnil]
        simp [hmem]

variable {generation : UInt64} {bytes : Bytes}

theorem mem_take_candidates {n : Nat} :
    (generation, bytes) ∈ dir.candidates.take n ↔ dir[generation]? = some bytes ∧
      (dir.candidates.filter fun a => generation < a.1).length < n := by
  rw [mem_take_descending (descending_candidates dir), mem_candidates]

theorem filter_candidates_insert {k : UInt64} (hk : k ≤ generation) :
    (candidates (dir.insert k bytes)).filter (fun a => generation < a.1) =
      dir.candidates.filter fun a => generation < a.1 := by
  have hmaps : (dir.insert k bytes).filter (fun a _ => decide (generation < a)) =
      dir.filter fun a _ => decide (generation < a) := by
    refine Std.ExtTreeMap.ext_getElem? fun {a} => ?_
    rw [Std.ExtTreeMap.getElem?_filter', Std.ExtTreeMap.getElem?_filter',
      KeyedMap.getElem?_insert_eq]
    split
    · next heq =>
      subst heq
      have hnot : ¬ generation < k := Std.not_lt.mpr hk
      simp [hnot]
    · rfl
  have hlists := congrArg (fun m => (Std.ExtTreeMap.toList m).reverse) hmaps
  simpa [Std.ExtTreeMap.toList_filter, candidates, filter_reverse] using hlists

/-- The numbers of the three newest files. -/
def window (dir : Manifests) : List UInt64 :=
  (dir.candidates.take (1 + retainedFallbackGenerations)).map Prod.fst

theorem mem_window : generation ∈ dir.window ↔ generation ∈ dir ∧
    (dir.candidates.filter fun a => generation < a.1).length < 1 + retainedFallbackGenerations := by
  rw [window, mem_map]
  constructor
  · rintro ⟨⟨generation, bytes⟩, hmem, rfl⟩
    obtain ⟨hget, hrank⟩ := mem_take_candidates.mp hmem
    exact ⟨KeyedMap.mem_of_getElem? hget, hrank⟩
  · rintro ⟨hmem, hrank⟩
    obtain ⟨bytes, hget⟩ := KeyedMap.exists_getElem?_of_mem hmem
    exact ⟨(generation, bytes), mem_take_candidates.mpr ⟨hget, hrank⟩, rfl⟩

/-- Pruning keeps the window, and below the newest files only the loaded one. -/
theorem mem_prune {loaded : UInt64} (hne : generation ≠ loaded) :
    generation ∈ dir.prune loaded [] ↔ generation ∈ dir.window := by
  constructor
  · intro hmem
    obtain ⟨bytes, hget⟩ := KeyedMap.exists_getElem?_of_mem hmem
    obtain ⟨-, hkept | hstuck⟩ := getElem?_prune.mp hget
    · obtain ⟨-, htake | hloaded⟩ := mem_retained.mp hkept
      · exact mem_map.mpr ⟨_, htake, rfl⟩
      · exact absurd hloaded hne
    · exact absurd hstuck not_mem_nil
  · intro hmem
    obtain ⟨⟨generation, bytes⟩, htake, rfl⟩ := mem_map.mp hmem
    have hget := (mem_take_candidates.mp htake).1
    exact KeyedMap.mem_of_getElem?
      (getElem?_prune.mpr ⟨hget, .inl (mem_retained.mpr ⟨hget, .inl htake⟩)⟩)

theorem mem_prune_self {stuck : List UInt64} (h : generation ∈ dir) :
    generation ∈ dir.prune generation stuck := by
  obtain ⟨bytes, hget⟩ := KeyedMap.exists_getElem?_of_mem h
  exact KeyedMap.mem_of_getElem?
    (getElem?_prune.mpr ⟨hget, .inl (mem_retained.mpr ⟨hget, .inr rfl⟩)⟩)

theorem window_prune {loaded : UInt64} (hne : generation ≠ loaded) :
    generation ∈ window (dir.prune loaded []) ↔ generation ∈ dir.window := by
  constructor
  · intro hmem
    exact (mem_prune hne).mp (mem_window.mp hmem).1
  · intro hmem
    have hfewer : (candidates (dir.prune loaded [])).Sublist dir.candidates := by
      rw [candidates, candidates, prune, Std.ExtTreeMap.toList_filter, reverse_sublist]
      exact filter_sublist
    refine mem_window.mpr ⟨(mem_prune hne).mpr hmem, ?_⟩
    have hrank := (mem_window.mp hmem).2
    have hle := (hfewer.filter fun a => decide (generation < a.1)).length_le
    omega

theorem window_insert {k : UInt64} (hk : k < generation) :
    generation ∈ window (dir.insert k bytes) ↔ generation ∈ dir.window := by
  rw [mem_window, mem_window, filter_candidates_insert (Std.le_of_lt hk), KeyedMap.mem_insert_iff]
  have hne : k ≠ generation := Std.ne_of_lt hk
  simp [hne]

end Manifests

namespace Store

variable {disk : Disk} {s : Store}

/-! ## The files above the current generation -/

/-- Above the current generation the three newest files are those that the open
found. -/
structure Aligned (disk : Disk) (s : Store) : Prop where
  last : nextGeneration s.manifest.generation = s.manifest.generation →
    s.manifest.generation ∈ s.directory.manifests
  window : ∀ generation, s.manifest.generation < generation →
    (generation ∈ s.directory.manifests.window ↔ generation ∈ disk.directory.manifests.window)

/-- All files above the current generation are among the three newest. -/
def Pruned (s : Store) : Prop :=
  ∀ generation, s.manifest.generation < generation →
    generation ∈ s.directory.manifests → generation ∈ s.directory.manifests.window

theorem Aligned.loaded (hload : disk.directory.manifests.load = .ok s.manifest)
    (hmanifests : s.directory.manifests = disk.directory.manifests) : Aligned disk s where
  last := by
    intro hlast
    rw [hmanifests]
    rcases Manifests.load_eq_ok.mp hload with ⟨-, hempty⟩ | hnewest
    · rw [hempty] at hlast
      exact absurd hlast (by decide)
    · obtain ⟨bytes, hget, -⟩ := hnewest.stored
      exact KeyedMap.mem_of_getElem? hget
  window := by
    intro generation _
    rw [hmanifests]

variable {s' : Store}

theorem Aligned.of_same (h : Aligned disk s) (hmanifest : s'.manifest = s.manifest)
    (hmanifests : s'.directory.manifests = s.directory.manifests) : Aligned disk s' := by
  refine ⟨?_, ?_⟩
  · rw [hmanifest, hmanifests]
    exact h.last
  · rw [hmanifest, hmanifests]
    exact h.window

theorem Pruned.of_same (h : Pruned s) (hmanifest : s'.manifest = s.manifest)
    (hmanifests : s'.directory.manifests = s.directory.manifests) : Pruned s' := by
  rw [Pruned, hmanifest, hmanifests]
  exact h

/-- The collection behind a publication or an open. -/
theorem Aligned.collected (h : Aligned disk s) (hmanifest : s'.manifest = s.manifest)
    (hmanifests : s'.directory.manifests = s.directory.manifests.prune s.manifest.generation []) :
    Aligned disk s' ∧ Pruned s' := by
  rw [Pruned]
  refine ⟨⟨fun hlast => ?_, fun generation hlt => ?_⟩, fun generation hlt hmem => ?_⟩
  · rw [hmanifest] at hlast ⊢
    rw [hmanifests]
    exact Manifests.mem_prune_self (h.last hlast)
  · rw [hmanifest] at hlt
    rw [hmanifests, Manifests.window_prune (Std.ne_of_lt hlt).symm]
    exact h.window generation hlt
  · rw [hmanifest] at hlt
    rw [hmanifests] at hmem ⊢
    rw [Manifests.window_prune (Std.ne_of_lt hlt).symm]
    exact (Manifests.mem_prune (Std.ne_of_lt hlt).symm).mp hmem

theorem Aligned.inserted (h : Aligned disk s) {bytes : Bytes}
    (hgeneration : s'.manifest.generation = nextGeneration s.manifest.generation)
    (hfree : s'.manifest.generation ∉ s.directory.manifests)
    (hmanifests : s'.directory.manifests =
      s.directory.manifests.insert s'.manifest.generation bytes) : Aligned disk s' := by
  have hlt : s.manifest.generation < s'.manifest.generation := by
    rw [hgeneration]
    refine Directory.lt_nextGeneration fun hlast => ?_
    rw [hgeneration, hlast] at hfree
    exact hfree (h.last hlast)
  refine ⟨fun _ => ?_, fun generation hnewer => ?_⟩
  · rw [hmanifests]
    exact KeyedMap.mem_insert_iff.mpr (.inl rfl)
  · rw [hmanifests, Manifests.window_insert hnewer]
    exact h.window generation (Std.lt_trans hlt hnewer)

/-- A step of a run. -/
theorem Aligned.turn (h : Aligned disk s) {r : Result Unit} (hturn : Turn s r) :
    Aligned disk r.2 ∧ (Pruned s → Pruned r.2) := by
  cases hturn with
  | kept hsame =>
    exact ⟨h.of_same hsame.manifest hsame.manifests,
      fun hpruned => hpruned.of_same hsame.manifest hsame.manifests⟩
  | refused _ _ hmanifest hmanifests _ =>
    exact ⟨h.of_same hmanifest hmanifests, fun hpruned => hpruned.of_same hmanifest hmanifests⟩
  | @published next dir _ s' hgeneration hpublish hmanifest hmanifests _ =>
    obtain ⟨bytes, -, hfree, -, rfl⟩ := Manifests.publish_eq_ok hpublish
    subst hmanifest
    let s₁ : Store := { s with
      manifest := s'.manifest
      directory := { s.directory with
        manifests := s.directory.manifests.insert s'.manifest.generation bytes } }
    have hinserted : Aligned disk s₁ := h.inserted hgeneration hfree rfl
    have hcollected : Aligned disk s' ∧ Pruned s' := hinserted.collected rfl hmanifests
    exact ⟨hcollected.1, fun _ => hcollected.2⟩

/-- A manifest without files can always be encoded. -/
theorem encodeFile_empty (generation : UInt64) :
    ∃ bytes, (published ⟨generation, [], []⟩).encodeFile = .ok bytes := by
  refine ⟨_, Manifest.encodeFile_eq_ok.mpr ⟨rfl, ?_, rfl⟩⟩
  have hlength := ByteCodec.Codec.length_u64_le generation
  show (ByteCodec.Codec.u64.encode generation ++ ([0] ++ [0])).length ≤ Manifest.maxPayloadBytes
  rw [length_append, Manifest.maxPayloadBytes]
  simp only [length_append, length_singleton]
  omega

section Runs
variable [Jiff] {config : Config}

/-- The stores behind an open of `disk` and some calls, without any failure of
the system. -/
inductive Later (config : Config) (disk : Disk) : Store → Prop
  | opened {order : List UInt64} {s : Store} {disk' : Disk} :
      openWith config disk { order } = (.ok s, disk') → Later config disk s
  | step {s : Store} (op : Op) : Later config disk s → Later config disk (op.apply s).2

theorem Aligned.opened {order : List UInt64} {disk' : Disk}
    (h : openWith config disk { order } = (.ok s, disk')) : Aligned disk s ∧ Pruned s := by
  obtain ⟨-, m, db, file, hload, -, hfinish⟩ := openWith_eq_ok.mp h
  obtain ⟨-, segments, s₁, -, hreconcile, hreclaim⟩ := finishOpen_eq_ok.mp hfinish
  have hloaded : Aligned disk { ofDatabase db disk.directory m false with
      database := db.attachSealedSegments segments } := .loaded hload rfl
  have hturn := verifyAndReconcileManifest_turn { ofDatabase db disk.directory m false with
    database := db.attachSealedSegments segments }
  have hreconciled : Aligned disk s₁ := (hloaded.turn (hreconcile ▸ hturn)).1
  -- the reclaim at the end changes the log only
  have hcollect := Directory.manifests_removeUnreferencedFiles s₁.directory s₁.manifest {}
  obtain ⟨db', rfl⟩ := hreclaim.exists_eq
  exact hreconciled.collected rfl hcollect

/-- Every call keeps the generations in order. -/
theorem Later.aligned (h : Later config disk s) : Aligned disk s ∧ Pruned s := by
  induction h with
  | opened hopen => exact Aligned.opened hopen
  | step op _ ih =>
    obtain ⟨haligned, hpruned⟩ := ih.1.turn (op.turn _)
    exact ⟨haligned, hpruned ih.2⟩

/-! ## When a store stays usable -/

/-- The next number is taken: it is that of one of the three newest files the
open found, or there is no next number. -/
def Blocked (disk : Disk) (s : Store) : Prop :=
  nextGeneration s.manifest.generation = s.manifest.generation ∨
    nextGeneration s.manifest.generation ∈ disk.directory.manifests.window

/-- The number of the next generation meets a file exactly if the store is blocked. -/
theorem Later.mem_manifests_iff (h : Later config disk s) :
    nextGeneration s.manifest.generation ∈ s.directory.manifests ↔ Blocked disk s := by
  obtain ⟨haligned, hpruned⟩ := h.aligned
  by_cases hlast : nextGeneration s.manifest.generation = s.manifest.generation
  · refine ⟨fun _ => .inl hlast, fun _ => ?_⟩
    rw [hlast]
    exact haligned.last hlast
  · have hlt := Directory.lt_nextGeneration hlast
    have hwindow := haligned.window _ hlt
    constructor
    · intro hmem
      exact .inr (hwindow.mp (hpruned _ hlt hmem))
    · rintro (hsame | hmem)
      · exact absurd hsame hlast
      · exact (Manifests.mem_window.mp (hwindow.mpr hmem)).1

/-- Publishing works. -/
structure Usable (s : Store) : Prop where
  /-- Every next manifest that can be encoded is published. -/
  publishes : ∀ next : Manifest, next.generation = nextGeneration s.manifest.generation →
    (∃ bytes, (published next).encodeFile = .ok bytes) →
    ∃ s', s.publishOrPoison next {} = (.ok (), s') ∧ s'.poisoned = s.poisoned
  /-- No call poisons the store, unless what it has to publish cannot be encoded. -/
  healthy : ∀ op : Op, s.poisoned = false → (op.apply s).2.poisoned = true →
    ∃ (next : Manifest) (e : Error), next.generation = nextGeneration s.manifest.generation ∧
      next.encodeFile = .error e ∧ (op.apply s).1 = .error e

theorem Usable.of_free (h : nextGeneration s.manifest.generation ∉ s.directory.manifests) :
    Usable s where
  publishes := by
    intro next hgeneration ⟨bytes, hencode⟩
    have hfree : (published next).generation ∉ s.directory.manifests := by
      rwa [published, hgeneration]
    have hpublish := Manifests.publish_of_free hencode hfree
    exact ⟨_, publishOrPoison_eq_ok.mpr ⟨_, hpublish, rfl⟩, rfl⟩
  healthy := by
    intro op hhealthy hpoisoned
    have hturn := op.turn s
    generalize op.apply s = r at hturn hpoisoned ⊢
    cases hturn with
    | kept hsame =>
      rw [hsame.poisoned, hhealthy] at hpoisoned
      cases hpoisoned
    | @refused next e s' hgeneration hpublish _ _ _ =>
      obtain ⟨-, hencode | ⟨-, hmem⟩⟩ := Manifests.publish_done_eq_error hpublish
      · exact ⟨next, e, hgeneration, hencode, rfl⟩
      · rw [hgeneration] at hmem
        exact absurd hmem h
    | published _ _ _ _ hsame =>
      rw [hsame, hhealthy] at hpoisoned
      cases hpoisoned

/-- A store can publish unless the next generation is taken. -/
theorem Later.usable_iff (h : Later config disk s) : Usable s ↔ ¬ Blocked disk s := by
  rw [← h.mem_manifests_iff]
  constructor
  · intro husable hmem
    obtain ⟨s', hpublish, -⟩ := husable.publishes
      ⟨nextGeneration s.manifest.generation, [], []⟩ rfl (encodeFile_empty _)
    obtain ⟨bytes, hencode⟩ := encodeFile_empty (nextGeneration s.manifest.generation)
    obtain ⟨dir, hpublished, -⟩ := publishOrPoison_eq_ok.mp hpublish
    rw [Manifests.publish_of_mem hencode hmem] at hpublished
    cases hpublished
  · exact .of_free

end Runs

/-! ## The open itself -/

/-- The manifest of the highest generation that can be read, whatever stands in
the files above it. -/
def HighestReadable (dir : Manifests) (m : Manifest) : Prop :=
  dir = ∅ ∧ m = {} ∨
    (∃ bytes, dir[m.generation]? = some bytes ∧ Manifest.read bytes m.generation = .ok m) ∧
      ∀ generation bytes, dir[generation]? = some bytes → m.generation < generation →
        ∀ m', Manifest.read bytes generation ≠ .ok m'

/-- No newer file stops the load: the second format with segments does. -/
def Passes (dir : Manifests) (m : Manifest) : Prop :=
  ∀ generation bytes, dir[generation]? = some bytes → m.generation < generation →
    ∀ reason, Manifest.read bytes generation ≠ .error (.invalidConfig reason)

theorem HighestReadable.load_iff {dir : Manifests} {m m' : Manifest} (h : HighestReadable dir m) :
    dir.load = .ok m' ↔ m' = m ∧ Passes dir m := by
  rw [Manifests.load_eq_ok]
  rcases h with ⟨rfl, rfl⟩ | ⟨hstored, hnewer⟩
  · have hnone : ∀ {generation : UInt64} {bytes : Bytes},
        (∅ : Manifests)[generation]? ≠ some bytes := by simp
    refine ⟨?_, fun h => .inl ⟨rfl, h.1⟩⟩
    rintro (⟨-, rfl⟩ | hnewest)
    · exact ⟨rfl, fun _ _ hget => absurd hget hnone⟩
    · obtain ⟨bytes, hget, -⟩ := hnewest.stored
      exact absurd hget hnone
  · obtain ⟨bytes, hget, hread⟩ := hstored
    constructor
    · rintro (⟨rfl, -⟩ | hnewest)
      · simp at hget
      obtain ⟨bytes', hget', hread'⟩ := hnewest.stored
      obtain hlt | heq | hlt : m'.generation < m.generation ∨ m'.generation = m.generation ∨
          m.generation < m'.generation := by
        simp only [UInt64.lt_iff_toNat_lt, ← UInt64.toNat_inj]
        omega
      · obtain ⟨e, herror, -⟩ := hnewest.above hget hlt
        cases hread.symm.trans herror
      · rw [heq] at hget' hread'
        obtain rfl := Option.some.inj (hget.symm.trans hget')
        obtain rfl := Except.ok.inj (hread.symm.trans hread')
        refine ⟨rfl, fun generation bytes hget hlt reason hstops => ?_⟩
        obtain ⟨e, herror, hpassed⟩ := hnewest.above hget hlt
        exact hpassed reason (Except.error.inj (herror.symm.trans hstops))
      · exact absurd hread' (hnewer _ _ hget' hlt _)
    · rintro ⟨rfl, hpasses⟩
      refine .inr ⟨⟨bytes, hget, hread⟩, fun {generation bytes} hget hlt => ?_⟩
      cases hread : Manifest.read bytes generation with
      | ok m' => exact absurd hread (hnewer generation bytes hget hlt m')
      | error e => exact ⟨e, hread, fun reason he => hpasses _ _ hget hlt reason (he ▸ hread)⟩

/-- The manifest an open publishes if some rollup is behind the raw points. -/
def reconciled (m : Manifest) (points : UInt64) : Manifest :=
  { m with
    generation := nextGeneration m.generation
    rollups := m.rollups.map fun d => if isStale points d then { d with active := false } else d }

/-- When the reconciliation of an open goes through: no rollup has seen more
points than there are, and if one has seen fewer, the next generation is free. -/
structure Reconciles (dir : Manifests) (m : Manifest) (points : UInt64) : Prop where
  sourced : ∀ d ∈ m.rollups, d.active = true → d.sourcePoints ≤ points
  free : m.rollups.any (isStale points) = true → nextGeneration m.generation ∉ dir ∧
    ∃ bytes, (published (reconciled m points)).encodeFile = .ok bytes

theorem verifyDescriptor_eq_ok {points : UInt64} {files : RollupFiles} {d : RollupDescriptor} :
    verifyDescriptor points files d = .ok () ↔ (d.active = true → d.sourcePoints ≤ points) ∧
      verifyDescriptor d.sourcePoints files d = .ok () := by
  simp only [verifyDescriptor]
  cases d.active with
  | false => simp
  | true =>
    simp only [if_true, bind_eq_ok, failIf_eq_ok, Std.not_lt, true_implies, Std.le_refl]
    constructor
    · rintro ⟨_, hle, buckets, hopen, hbounds⟩
      exact ⟨hle, (), trivial, buckets, hopen, hbounds⟩
    · rintro ⟨hle, _, -, buckets, hopen, hbounds⟩
      exact ⟨(), hle, buckets, hopen, hbounds⟩

theorem reconciles_iff (s : Store) (hfiles : ∀ d ∈ s.manifest.rollups,
      verifyDescriptor d.sourcePoints s.directory.rollups d = .ok ()) :
    (∃ s', s.verifyAndReconcileManifest {} = (.ok (), s')) ↔
      Reconciles s.directory.manifests s.manifest s.database.statPoints := by
  constructor
  · rintro ⟨s', hreconcile⟩
    obtain ⟨hverify, hpublish⟩ := verifyAndReconcileManifest_eq_ok.mp hreconcile
    refine ⟨fun d hd => (verifyDescriptor_eq_ok.mp (hverify d hd)).1, fun hstale => ?_⟩
    rw [if_pos hstale] at hpublish
    obtain ⟨dir, hpublish, -⟩ := publishOrPoison_eq_ok.mp hpublish
    obtain ⟨bytes, hencode, hfree, -⟩ := Manifests.publish_eq_ok hpublish
    exact ⟨hfree, bytes, hencode⟩
  · intro h
    have hverify : ∀ d ∈ s.manifest.rollups,
        verifyDescriptor s.database.statPoints s.directory.rollups d = .ok () :=
      fun d hd => verifyDescriptor_eq_ok.mpr ⟨h.sourced d hd, hfiles d hd⟩
    by_cases hstale : s.manifest.rollups.any (isStale s.database.statPoints) = true
    · obtain ⟨hfree, bytes, hencode⟩ := h.free hstale
      obtain ⟨s', hs'⟩ : ∃ s', s.publishOrPoison (reconciled s.manifest s.database.statPoints) {} =
          (.ok (), s') :=
        ⟨_, publishOrPoison_eq_ok.mpr ⟨_, Manifests.publish_of_free hencode hfree, rfl⟩⟩
      refine ⟨s', verifyAndReconcileManifest_eq_ok.mpr ⟨hverify, ?_⟩⟩
      rw [if_pos hstale]
      exact hs'
    · refine ⟨s, verifyAndReconcileManifest_eq_ok.mpr ⟨hverify, ?_⟩⟩
      rw [if_neg hstale]

theorem database_of_reconciled {s s' : Store} {io : PublishIo}
    (h : s.verifyAndReconcileManifest io = (.ok (), s')) : s'.database = s.database := by
  obtain ⟨-, hpublish⟩ := verifyAndReconcileManifest_eq_ok.mp h
  split at hpublish
  · obtain ⟨dir, -, rfl⟩ := publishOrPoison_eq_ok.mp hpublish
    rfl
  · rw [hpublish]

section Opens
variable [Jiff] {config : Config}

/-- A directory whose highest readable manifest is `m`: its segments and rollup
files are there, and the log can be opened under it. -/
structure Intact (config : Config) (disk : Disk) (m : Manifest) (db : Database)
    (segments : List Segment) : Prop where
  highest : HighestReadable disk.directory.manifests m
  log : ∃ file, Database.openMode config false m.publishedSeals disk.log {} = (.ok db, file)
  attached : publishedSegments disk.directory.segments m.segments = .ok segments
  /-- The file of each rollup exists and lies within its bounds. -/
  rollups : ∀ d ∈ m.rollups, verifyDescriptor d.sourcePoints disk.directory.rollups d = .ok ()

/-- What the open of such a directory needs. -/
structure Admits (disk : Disk) (m : Manifest) (db : Database) (order : List UInt64) : Prop where
  passes : Passes disk.directory.manifests m
  reconciles : Reconciles disk.directory.manifests m db.statPoints
  /-- The size limits of a reclaim that is still to be done. -/
  reclaims : db.pendingReclaim = true → db.Reclaimable order

/-- What else an open of an intact directory needs. -/
theorem Intact.opens_iff {m : Manifest} {db : Database} {segments : List Segment}
    (h : Intact config disk m db segments) (order : List UInt64) :
    (∃ s disk', openWith config disk { order } = (.ok s, disk')) ↔
      Admits disk m (db.attachSealedSegments segments) order := by
  let s₀ : Store := { ofDatabase db disk.directory m false with
    database := db.attachSealedSegments segments }
  have hreconciles := reconciles_iff s₀ h.rollups
  obtain ⟨file, hlog⟩ := h.log
  obtain ⟨-, hreadOnly, hpoisoned, -⟩ := Database.openMode_eq_ok hlog
  have hsound : db.Sound := Database.openMode_sound hlog
  have hreclaim : (∃ db', s₀.database.reclaimLiveLog order {} = (.ok (), db')) ↔
      s₀.database.Reclaimable order :=
    Database.reclaimLiveLog_isOk_iff hsound hreadOnly hpoisoned
  constructor
  · rintro ⟨s, disk', hopen⟩
    obtain ⟨-, m', db', file', hload, hlog', hfinish⟩ := openWith_eq_ok.mp hopen
    obtain ⟨rfl, hpasses⟩ := h.highest.load_iff.mp hload
    obtain rfl : db = db' := Except.ok.inj (Prod.mk.inj (hlog.symm.trans hlog')).1
    obtain ⟨-, segments', s₁, hattached, hreconcile, hfinished⟩ := finishOpen_eq_ok.mp hfinish
    obtain rfl : segments = segments' := Except.ok.inj (h.attached.symm.trans hattached)
    refine ⟨hpasses, hreconciles.mp ⟨s₁, hreconcile⟩, fun hpending => hreclaim.mp ?_⟩
    have hdatabase : (s₁.removeUnreferencedFiles {}).database = s₀.database :=
      (database_of_reconciled hreconcile :)
    rw [FinishesReclaim, hdatabase, if_pos hpending] at hfinished
    obtain ⟨db', hdb', -⟩ := hfinished
    exact ⟨db', hdb'⟩
  · intro hadmits
    obtain ⟨s₁, hreconcile⟩ := hreconciles.mpr hadmits.reconciles
    have hdatabase : (s₁.removeUnreferencedFiles {}).database = s₀.database :=
      (database_of_reconciled hreconcile :)
    -- what is left is the reclaim of the log
    obtain ⟨s, hs⟩ : ∃ s, FinishesReclaim (s₁.removeUnreferencedFiles {}) { order } s := by
      simp only [FinishesReclaim, hdatabase]
      by_cases hpending : s₀.database.pendingReclaim = true
      · obtain ⟨db', hdb'⟩ := hreclaim.mpr (hadmits.reclaims hpending)
        simp only [if_pos hpending]
        exact ⟨_, db', hdb', rfl⟩
      · simp only [if_neg hpending]
        exact ⟨_, rfl⟩
    exact ⟨s, s.disk, openWith_eq_ok.mpr ⟨rfl, m, db, file,
      h.highest.load_iff.mpr ⟨rfl, hadmits.passes⟩, hlog,
      finishOpen_eq_ok.mpr ⟨rfl, segments, s₁, h.attached, hreconcile, hs⟩⟩⟩

end Opens

end Store

/-! ## A file that stays in the way -/

/-- Two manifests, of which the newest one is torn, over an empty log. -/
def tornNewest : Disk where
  log := File.empty
  directory := { manifests := (manifestsOf [⟨1, [], []⟩]).insert 2 [] }

theorem intact_tornNewest [Jiff] : ∃ db, Store.Intact {} tornNewest ⟨1, [], []⟩ db [] := by
  obtain ⟨db, hopen, -⟩ := Database.openExclusive_empty {} []
  have hlog : Database.openMode {} false [] File.empty {} = (.ok db, db.file) := by
    rw [← hopen, Database.openMode, show Config.validate {} = .ok () from rfl]
    simp only [Bool.false_eq_true, if_false]
  have hload : tornNewest.directory.manifests.load = .ok ⟨1, [], []⟩ := by decide +kernel
  have hnewest : tornNewest.directory.manifests.Newest ⟨1, [], []⟩ :=
    (Manifests.load_eq_ok.mp hload).resolve_left fun h => absurd h.2 (by decide)
  refine ⟨db, .inr ⟨hnewest.stored, fun generation bytes hget hlt m' hread => ?_⟩,
    ⟨db.file, hlog⟩, rfl, by simp⟩
  obtain ⟨e, herror, -⟩ := hnewest.above hget hlt
  cases hread.symm.trans herror

end Ftwdb
