import Ftwdb.Store.Generations
import Ftwdb.Store.Store

/-!
# Garbage collection

`remove_unreferenced_files` prunes old manifests and then removes the rollup
files and segments that no retained manifest names.  `Directory.Kept` says what
it leaves: the manifest that is loaded with its files, the newest files by name,
and every file that a manifest still on disk refers to.  Only the last clause
needs that the pruned manifests really go: one that cannot be unlinked stays
readable while the files it refers to are removed (`stuckManifest_loses_rollup`).
-/

namespace Ftwdb

open ByteCodec Check

namespace Directory

variable {dir : Directory} {m : Manifest} {io : GcIo}

/-- A manifest that can be read from the directory. -/
def Readable (dir : Directory) (m : Manifest) : Prop :=
  ∃ bytes, dir.manifests[m.generation]? = some bytes ∧ Manifest.read bytes m.generation = .ok m

theorem getElem?_sweep {α : Type} {extension : String} {referenced stuck : List String}
    {files : Std.ExtTreeMap String α} {name : String} {a : α} (hname : name ∈ referenced)
    (hget : files[name]? = some a) : (sweep extension referenced stuck files)[name]? = some a := by
  rw [sweep, Std.ExtTreeMap.getElem?_filter', hget]
  simp [Option.filter, hname]

variable {manifests : List Manifest} {m' : Manifest} {file : String}
  {content : Option (List GaugeBucket)} {link : Manifests.PublishIo}

theorem sweepFiles_rollups (hm' : m' ∈ manifests) (hfile : file ∈ m'.rollupFiles)
    (hget : dir.rollups[file]? = some content) :
    (dir.sweepFiles manifests io).rollups[file]? = some content := by
  have hmem : file ∈ manifests.flatMap Manifest.rollupFiles :=
    List.mem_flatMap.mpr ⟨m', hm', hfile⟩
  rw [sweepFiles]
  split
  · exact hget
  · split
    · exact getElem?_sweep hmem hget
    · exact getElem?_sweep hmem hget

theorem sweepFiles_segments (hm' : m' ∈ manifests) (hfile : file ∈ m'.segmentFiles)
    {content : Option SegmentFile} (hget : dir.segments[file]? = some content) :
    (dir.sweepFiles manifests io).segments[file]? = some content := by
  have hmem : file ∈ manifests.flatMap Manifest.segmentFiles :=
    List.mem_flatMap.mpr ⟨m', hm', hfile⟩
  rw [sweepFiles]
  split
  · exact hget
  · split
    · exact hget
    · exact getElem?_sweep hmem hget

@[simp] theorem manifests_sweepFiles (manifests : List Manifest) :
    (dir.sweepFiles manifests io).manifests = dir.manifests := by
  rw [sweepFiles]
  split
  · rfl
  · split <;> rfl

/-- The manifests behind a collection. -/
theorem manifests_removeUnreferencedFiles (dir : Directory) (m : Manifest) (io : GcIo) :
    (dir.removeUnreferencedFiles m io).manifests =
      if io.listManifestsFails then dir.manifests
      else dir.manifests.prune m.generation io.stuckManifests := by
  rw [removeUnreferencedFiles]
  split
  · rfl
  · simp only
    split
    · rfl
    · split
      · rfl
      · rw [manifests_sweepFiles]

/-- What a collection does to the other files: nothing, or a sweep with the
manifests of all retained files. -/
theorem files_removeUnreferencedFiles (dir : Directory) (m : Manifest) (io : GcIo) :
    ((dir.removeUnreferencedFiles m io).rollups = dir.rollups ∧
      (dir.removeUnreferencedFiles m io).segments = dir.segments) ∨
    ∃ manifests, Manifests.readAll (dir.manifests.retained m.generation) = .ok manifests ∧
      io.listManifestsFails = false ∧
      dir.removeUnreferencedFiles m io =
        { dir with manifests := dir.manifests.prune m.generation io.stuckManifests }.sweepFiles
          (manifests ++ [m]) io := by
  rw [removeUnreferencedFiles]
  split
  · exact .inl ⟨rfl, rfl⟩
  · next hlist =>
    simp only
    split
    · exact .inl ⟨rfl, rfl⟩
    · next manifests hread =>
      split
      · exact .inl ⟨rfl, rfl⟩
      · exact .inr ⟨manifests, hread, by simpa using hlist, rfl⟩

/-- The manifests whose files a collection keeps: the loaded one and the
readable ones among the retained. -/
def Retains (dir : Directory) (m m' : Manifest) : Prop :=
  m' = m ∨ ∃ bytes, (m'.generation, bytes) ∈ dir.manifests.retained m.generation ∧
    Manifest.read bytes m'.generation = .ok m'

theorem Retains.mem (h : dir.Retains m m')
    (hread : Manifests.readAll (dir.manifests.retained m.generation) = .ok manifests) :
    m' ∈ manifests ++ [m] := by
  rcases h with rfl | ⟨bytes, hretained, hread'⟩
  · simp
  · exact List.mem_append_left _ (Manifests.readAll_eq_ok hread hretained hread')

theorem Retains.rollups (h : dir.Retains m m') (io : GcIo) (hfile : file ∈ m'.rollupFiles)
    (hget : dir.rollups[file]? = some content) :
    (dir.removeUnreferencedFiles m io).rollups[file]? = some content := by
  rcases files_removeUnreferencedFiles dir m io with ⟨hsame, -⟩ | ⟨manifests, hall, -, heq⟩
  · rwa [hsame]
  · rw [heq]
    exact sweepFiles_rollups (h.mem hall) hfile hget

theorem Retains.segments (h : dir.Retains m m') (io : GcIo) (hfile : file ∈ m'.segmentFiles)
    {content : Option SegmentFile} (hget : dir.segments[file]? = some content) :
    (dir.removeUnreferencedFiles m io).segments[file]? = some content := by
  rcases files_removeUnreferencedFiles dir m io with ⟨-, hsame⟩ | ⟨manifests, hall, -, heq⟩
  · rwa [hsame]
  · rw [heq]
    exact sweepFiles_segments (h.mem hall) hfile hget

theorem load_removeUnreferencedFiles (hload : dir.manifests.load = .ok m) (io : GcIo) :
    (dir.removeUnreferencedFiles m io).manifests.load = .ok m := by
  rw [manifests_removeUnreferencedFiles]
  split
  · exact hload
  · exact Manifests.load_prune hload _

/-- The pruned manifests can be unlinked. -/
def Unlinks (dir : Directory) (m : Manifest) (io : GcIo) : Prop :=
  ∀ generation ∈ io.stuckManifests, ∀ bytes, dir.manifests[generation]? = some bytes →
    (generation, bytes) ∈ dir.manifests.retained m.generation

/-- The manifests whose files have to stay: the loaded one, whatever the unlinks
do, and those that can be read behind the collection, if the pruned ones go. -/
def Needed (dir : Directory) (m : Manifest) (io : GcIo) (m' : Manifest) : Prop :=
  m' = m ∨ dir.Unlinks m io ∧ (dir.removeUnreferencedFiles m io).Readable m'

/-- What a collection leaves in a directory on whose manifest `m` a store runs. -/
structure Kept (dir dir' : Directory) (m : Manifest) (needed : Manifest → Prop) : Prop where
  load : dir'.manifests.load = .ok m
  /-- Whatever a needed manifest refers to stays. -/
  rollups : ∀ m', needed m' → ∀ file ∈ m'.rollupFiles, ∀ content,
    dir.rollups[file]? = some content → dir'.rollups[file]? = some content
  segments : ∀ m', needed m' → ∀ file ∈ m'.segmentFiles, ∀ content,
    dir.segments[file]? = some content → dir'.segments[file]? = some content
  /-- A retained manifest that cannot be read stops the collection. -/
  cautious : ∀ generation bytes, (generation, bytes) ∈ dir.manifests.retained m.generation →
    (∀ m', Manifest.read bytes generation ≠ .ok m') →
    dir'.rollups = dir.rollups ∧ dir'.segments = dir.segments
  /-- The newest files by name stay, readable or not. -/
  newest : ∀ c ∈ dir.manifests.candidates.take 3, dir'.manifests[c.1]? = some c.2

/-- A needed manifest is retained, or nothing is collected at all: the manifests
could not be listed. -/
theorem Needed.retains (h : dir.Needed m io m') :
    dir.removeUnreferencedFiles m io = dir ∨ dir.Retains m m' := by
  rcases h with rfl | ⟨hunlinks, bytes, hget, hread⟩
  · exact .inr (.inl rfl)
  rw [manifests_removeUnreferencedFiles] at hget
  split at hget
  · next hlist => exact .inl (by rw [removeUnreferencedFiles, if_pos hlist])
  · obtain ⟨hget, hretained | hstuck⟩ := Manifests.getElem?_prune.mp hget
    · exact .inr (.inr ⟨bytes, hretained, hread⟩)
    · exact .inr (.inr ⟨bytes, hunlinks _ hstuck bytes hget, hread⟩)

theorem newest_removeUnreferencedFiles {c : UInt64 × Bytes}
    (hc : c ∈ dir.manifests.candidates.take 3) :
    (dir.removeUnreferencedFiles m io).manifests[c.1]? = some c.2 := by
  have hget := Manifests.mem_candidates.mp (List.mem_of_mem_take hc)
  rw [manifests_removeUnreferencedFiles]
  split
  · exact hget
  · exact Manifests.getElem?_prune.mpr ⟨hget, .inl (Manifests.mem_retained.mpr ⟨hget, .inl hc⟩)⟩

theorem removeUnreferencedFiles_kept (hload : dir.manifests.load = .ok m) (io : GcIo) :
    dir.Kept (dir.removeUnreferencedFiles m io) m (dir.Needed m io) where
  load := load_removeUnreferencedFiles hload io
  rollups := by
    intro m' hneeded file hfile content hget
    rcases hneeded.retains with hsame | hretains
    · rwa [hsame]
    · exact hretains.rollups io hfile hget
  segments := by
    intro m' hneeded file hfile content hget
    rcases hneeded.retains with hsame | hretains
    · rwa [hsame]
    · exact hretains.segments io hfile hget
  cautious := by
    intro generation bytes hretained hunreadable
    rcases files_removeUnreferencedFiles dir m io with hsame | ⟨manifests, hall, -⟩
    · exact hsame
    · cases hread : Manifest.read bytes generation with
      | ok m' => exact absurd hread (hunreadable m')
      | error e =>
        obtain ⟨e', herror⟩ := Manifests.readAll_unreadable hretained hread
        rw [hall] at herror
        cases herror
  newest _ hc := newest_removeUnreferencedFiles hc

/-! ## Runs of publishes -/

/-- The steps of a store between the directories it leaves: new rollup files and
segments under free names, and new generations that refer to existing files,
each with the collection behind it. -/
inductive Publishes (s : Directory × Manifest) : Directory × Manifest → Prop
  | refl : Publishes s s
  | createRollup {dir : Directory} {m : Manifest} {file : String}
      (content : Option (List GaugeBucket)) : Publishes s (dir, m) → file ∉ dir.rollups →
      Publishes s ({ dir with rollups := dir.rollups.insert file content }, m)
  | createSegment {dir : Directory} {m : Manifest} {file : String}
      (content : Option SegmentFile) : Publishes s (dir, m) → file ∉ dir.segments →
      Publishes s ({ dir with segments := dir.segments.insert file content }, m)
  | publish {dir : Directory} {m next : Manifest}
      {link : Manifests.PublishIo} {manifests : Manifests} {io : GcIo} :
      Publishes s (dir, m) → next.generation = nextGeneration m.generation →
      (∀ file ∈ next.rollupFiles, file ∈ dir.rollups) →
      (∀ file ∈ next.segmentFiles, file ∈ dir.segments) →
      dir.manifests.publish next link = (.ok (), manifests) →
      { dir with manifests := manifests }.Unlinks next io →
      Publishes s ({ dir with manifests := manifests }.removeUnreferencedFiles next io, next)

/-- Every readable manifest has its files, unless it was there from the start and
lacked them then. -/
structure Complete (start dir : Directory) : Prop where
  rollups : ∀ m, dir.Readable m → ∀ file ∈ m.rollupFiles,
    (start.Readable m → file ∈ start.rollups) → file ∈ dir.rollups
  segments : ∀ m, dir.Readable m → ∀ file ∈ m.segmentFiles,
    (start.Readable m → file ∈ start.segments) → file ∈ dir.segments

theorem lt_nextGeneration {generation : UInt64} (h : nextGeneration generation ≠ generation) :
    generation < nextGeneration generation := by
  rw [nextGeneration] at h ⊢
  split at h
  · exact absurd rfl h
  · next hmax =>
    rw [if_neg hmax, UInt64.lt_iff_toNat_lt, UInt64.toNat_add]
    have hlt := generation.toNat_lt
    have hne : generation.toNat ≠ 2 ^ 64 - 1 := by
      intro heq
      exact hmax (UInt64.toNat_inj.mp (by rw [heq]; rfl))
    have hone : (1 : UInt64).toNat = 1 := rfl
    omega

/-- A published generation is the one that is loaded next. -/
theorem load_publish {manifests manifests' : Manifests} {next : Manifest}
    (hload : manifests.load = .ok m) (hnext : next.generation = nextGeneration m.generation)
    (hpublish : manifests.publish next link = (.ok (), manifests')) :
    manifests'.load = .ok next := by
  obtain ⟨bytes, hencode, hfree, -, rfl⟩ := Manifests.publish_eq_ok hpublish
  refine Manifests.load_eq_ok.mpr (.inr (.insert hload hencode ?_))
  rw [hnext]
  refine lt_nextGeneration fun heq => ?_
  rw [hnext, heq] at hfree
  rcases Manifests.load_eq_ok.mp hload with ⟨-, rfl⟩ | hnewest
  · revert heq
    decide
  · obtain ⟨_, hget, -⟩ := hnewest.stored
    exact hfree (KeyedMap.mem_of_getElem? hget)

/-- The readable manifests behind a publish. -/
theorem readable_publish {next : Manifest} {manifests : Manifests}
    (hpublish : dir.manifests.publish next link = (.ok (), manifests))
    (h : { dir with manifests := manifests }.Readable m') : m' = next ∨ dir.Readable m' := by
  obtain ⟨bytes, hencode, -, -, rfl⟩ := Manifests.publish_eq_ok hpublish
  obtain ⟨bytes', hget, hread⟩ := h
  simp only [KeyedMap.getElem?_insert_eq] at hget
  split at hget
  · next hsame =>
    left
    rw [← Option.some.inj hget, ← hsame, Manifest.read_encodeFile hencode] at hread
    exact (Except.ok.inj hread).symm
  · exact .inr ⟨bytes', hget, hread⟩

theorem readable_of_removeUnreferencedFiles (h : (dir.removeUnreferencedFiles m io).Readable m') :
    dir.Readable m' := by
  obtain ⟨bytes, hget, hread⟩ := h
  rw [manifests_removeUnreferencedFiles] at hget
  split at hget
  · exact ⟨bytes, hget, hread⟩
  · exact ⟨bytes, (Manifests.getElem?_prune.mp hget).1, hread⟩

/-- What a run of publishes keeps. -/
theorem Publishes.complete {start : Directory} {dir' : Directory} {m : Manifest}
    (h : Publishes (start, m) (dir', m')) (hload : start.manifests.load = .ok m) :
    dir'.manifests.load = .ok m' ∧ start.Complete dir' := by
  generalize hs' : (dir', m') = s' at h
  induction h generalizing dir' m' with
  | refl =>
    cases hs'
    exact ⟨hload, fun m'' hread file _ hfile => hfile hread,
      fun m'' hread file _ hfile => hfile hread⟩
  | createRollup content _ _ ih =>
    cases hs'
    obtain ⟨hload', hcomplete⟩ := ih rfl
    refine ⟨hload', fun m'' hread file hfile hstart => ?_, hcomplete.segments⟩
    exact KeyedMap.mem_insert_iff.mpr (.inr (hcomplete.rollups m'' hread file hfile hstart))
  | createSegment content _ _ ih =>
    cases hs'
    obtain ⟨hload', hcomplete⟩ := ih rfl
    refine ⟨hload', hcomplete.rollups, fun m'' hread file hfile hstart => ?_⟩
    exact KeyedMap.mem_insert_iff.mpr (.inr (hcomplete.segments m'' hread file hfile hstart))
  | @publish dir _ next _ manifests io _ hnext hrollups hsegments hpublish hunlinks ih =>
    cases hs'
    obtain ⟨hload', hcomplete⟩ := ih rfl
    have hkept := @removeUnreferencedFiles_kept { dir with manifests := manifests } _
      (load_publish hload' hnext hpublish) io
    refine ⟨hkept.load, fun m'' hread file hfile hstart => ?_,
      fun m'' hread file hfile hstart => ?_⟩
    · have hbefore := readable_publish hpublish (readable_of_removeUnreferencedFiles hread)
      obtain ⟨content, hget⟩ := KeyedMap.exists_getElem?_of_mem (show file ∈ _ from by
        rcases hbefore with rfl | hbefore
        · exact hrollups file hfile
        · exact hcomplete.rollups m'' hbefore file hfile hstart)
      exact KeyedMap.mem_of_getElem?
        (hkept.rollups m'' (.inr ⟨hunlinks, hread⟩) file hfile content hget)
    · have hbefore := readable_publish hpublish (readable_of_removeUnreferencedFiles hread)
      obtain ⟨content, hget⟩ := KeyedMap.exists_getElem?_of_mem (show file ∈ _ from by
        rcases hbefore with rfl | hbefore
        · exact hsegments file hfile
        · exact hcomplete.segments m'' hbefore file hfile hstart)
      exact KeyedMap.mem_of_getElem?
        (hkept.segments m'' (.inr ⟨hunlinks, hread⟩) file hfile content hget)

/-- Garbage collection never takes what a fall-back may need. -/
structure CollectsSafely (dir : Directory) (m : Manifest) : Prop where
  /-- One collection, whatever the system does to it. -/
  pass : ∀ io, dir.Kept (dir.removeUnreferencedFiles m io) m (dir.Needed m io)
  /-- The three newest files are there behind every publish. -/
  publish : ∀ next link manifests io, dir.manifests.publish next link = (.ok (), manifests) →
    ∀ c ∈ manifests.candidates.take 3,
      ({ dir with manifests := manifests }.removeUnreferencedFiles next io).manifests[c.1]? =
        some c.2
  /-- Whichever manifests are lost behind a run, the one that is loaded then has
  the files it had. -/
  run : ∀ dir' m', Publishes (dir, m) (dir', m') → ∀ (lost : List UInt64) (m'' : Manifest),
    Manifests.load (dir'.manifests.filter fun generation _ => decide (generation ∉ lost)) =
      .ok m'' →
    (∀ file ∈ m''.rollupFiles, (dir.Readable m'' → file ∈ dir.rollups) → file ∈ dir'.rollups) ∧
      ∀ file ∈ m''.segmentFiles, (dir.Readable m'' → file ∈ dir.segments) → file ∈ dir'.segments

theorem collectsSafely (hload : dir.manifests.load = .ok m) : dir.CollectsSafely m where
  pass := removeUnreferencedFiles_kept hload
  publish _ _ _ _ _ _ hc := newest_removeUnreferencedFiles hc
  run := by
    intro dir' m' hrun lost m'' hload''
    obtain ⟨-, hcomplete⟩ := hrun.complete hload
    rcases Manifests.load_eq_ok.mp hload'' with ⟨-, rfl⟩ | hnewest
    · exact ⟨nofun, nofun⟩
    · obtain ⟨bytes, hget, hread⟩ := hnewest.stored
      rw [Std.ExtTreeMap.getElem?_filter', Option.filter_eq_some_iff] at hget
      exact ⟨hcomplete.rollups m'' ⟨bytes, hget.1, hread⟩,
        hcomplete.segments m'' ⟨bytes, hget.1, hread⟩⟩

end Directory

/-! ## A manifest that cannot be unlinked -/

/-- The directory of some published manifests. -/
def manifestsOf (published : List Manifest) : Manifests :=
  published.foldl (fun dir m =>
    dir.insert m.generation (Manifest.fileBytes (Postcard.manifest.encode m))) ∅

/-- A rollup of one day. -/
def dayRollup : RollupDescriptor where
  file := "day.rseg"
  seriesId := 1
  resolution := .fixedMicros 3600000000
  start := 0
  stop := 86400000000
  sourceCommit := 1
  sourcePoints := 1
  active := true

/-- Four generations, of which the first one has a rollup. -/
def fourGenerations : Directory where
  manifests := manifestsOf [⟨1, [dayRollup], []⟩, ⟨2, [], []⟩, ⟨3, [], []⟩, ⟨4, [], []⟩]
  rollups := (∅ : RollupFiles).insert "day.rseg" (some [])
  segments := ∅

theorem load_fourGenerations : fourGenerations.manifests.load = .ok ⟨4, [], []⟩ := by
  decide +kernel

/-- The first generation stays, and its rollup goes. -/
theorem stuckManifest_loses_rollup :
    fourGenerations.manifests.load = .ok ⟨4, [], []⟩ ∧ "day.rseg" ∈ fourGenerations.rollups ∧
      let dir := fourGenerations.removeUnreferencedFiles ⟨4, [], []⟩ { stuckManifests := [1] }
      (∃ bytes, dir.manifests[(1 : UInt64)]? = some bytes ∧
        Manifest.read bytes 1 = .ok ⟨1, [dayRollup], []⟩) ∧ "day.rseg" ∉ dir.rollups := by
  refine ⟨load_fourGenerations, by decide +kernel,
    ⟨Manifest.fileBytes (Postcard.manifest.encode ⟨1, [dayRollup], []⟩), ?_, ?_⟩, ?_⟩
  · decide +kernel
  · decide +kernel
  · decide +kernel

/-- With every unlink successful the same directory loses nothing that is needed. -/
theorem collectsSafely_fourGenerations : fourGenerations.manifests.load = .ok ⟨4, [], []⟩ ∧
    fourGenerations.CollectsSafely ⟨4, [], []⟩ :=
  ⟨load_fourGenerations, Directory.collectsSafely load_fourGenerations⟩

end Ftwdb
