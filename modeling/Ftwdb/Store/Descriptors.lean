import Ftwdb.Store.Fallback
import Ftwdb.Store.History
import Ftwdb.Store.Shards

/-!
# The descriptors of a manifest

Six calls rewrite the rollup descriptors.  All but a maintenance only deactivate
some and stamp the others (`Fades`); a maintenance also adds a descriptor in
place of all that overlap it.  So the active rollups of a series and resolution
stay apart, their files stay within their bounds, and each counts the points
that the log and the segments hold (`Tidy`).
-/

namespace Ftwdb

open Check List Signed StableSort

/-- The same rollup, perhaps no longer active and with another stamp. -/
structure RollupDescriptor.Fades (d d' : RollupDescriptor) : Prop where
  file : d'.file = d.file
  seriesId : d'.seriesId = d.seriesId
  resolution : d'.resolution = d.resolution
  start : d'.start = d.start
  stop : d'.stop = d.stop
  active : d'.active = true → d.active = true

theorem RollupDescriptor.Fades.refl (d : RollupDescriptor) : d.Fades d :=
  ⟨rfl, rfl, rfl, rfl, rfl, id⟩

theorem RollupDescriptor.Fades.deactivated (d : RollupDescriptor) :
    d.Fades { d with active := false } := ⟨rfl, rfl, rfl, rfl, rfl, nofun⟩

theorem RollupDescriptor.Fades.stamped (d : RollupDescriptor) (commits points : UInt64) :
    d.Fades { d with sourceCommit := commits, sourcePoints := points } :=
  ⟨rfl, rfl, rfl, rfl, rfl, id⟩

/-- Rollups of one series and resolution that are both in use do not overlap. -/
def RollupDescriptor.Apart (a b : RollupDescriptor) : Prop :=
  a.active = true → b.active = true → a.seriesId = b.seriesId → a.resolution = b.resolution →
    a.stop ≤ b.start ∨ b.stop ≤ a.start

theorem RollupDescriptor.Apart.fades {a b a' b' : RollupDescriptor} (h : a.Apart b)
    (ha : a.Fades a') (hb : b.Fades b') : a'.Apart b' := by
  intro haactive hbactive hseries hresolution
  rw [ha.seriesId, hb.seriesId] at hseries
  rw [ha.resolution, hb.resolution] at hresolution
  rw [ha.start, ha.stop, hb.start, hb.stop]
  exact h (ha.active haactive) (hb.active hbactive) hseries hresolution

/-- The rollups in use: apart from each other, each with a file inside its bounds and
the stamp of `points`. -/
structure Tidy [Jiff] (points : UInt64) (files : RollupFiles) (rollups : List RollupDescriptor) :
    Prop where
  apart : rollups.Pairwise RollupDescriptor.Apart
  current : ∀ d ∈ rollups, d.active = true → d.sourcePoints = points
  lt : ∀ d ∈ rollups, d.active = true → d.resolution.Tiles → d.start < d.stop
  filed : ∀ d ∈ rollups, d.active = true → d.resolution.Tiles → ∃ buckets,
    files[d.file]? = some (some buckets) ∧ Within d.start d.stop buckets

namespace Tidy

variable [Jiff] {points points' : UInt64} {files files' : RollupFiles}
  {rollups : List RollupDescriptor}

theorem nil (points : UInt64) (files : RollupFiles) : Tidy points files [] :=
  ⟨.nil, nofun, nofun, nofun⟩

/-- Without a rollup in use nothing has to be current. -/
theorem of_inactive (h : Tidy points files rollups)
    (hinactive : rollups.any RollupDescriptor.active = false) : Tidy points' files rollups := by
  refine ⟨h.apart, fun d hd hactive => ?_, h.lt, h.filed⟩
  rw [any_eq_false] at hinactive
  exact absurd hactive (hinactive d hd)

/-- Descriptors that fade stay tidy. -/
theorem map (h : Tidy points files rollups) {f : RollupDescriptor → RollupDescriptor}
    (hfades : ∀ d : RollupDescriptor, d.Fades (f d))
    (hcurrent : ∀ d ∈ rollups, (f d).active = true → (f d).sourcePoints = points') :
    Tidy points' files (rollups.map f) where
  apart := by
    rw [pairwise_map]
    exact h.apart.imp fun hab => hab.fades (hfades _) (hfades _)
  current d' hd' hactive := by
    obtain ⟨d, hd, rfl⟩ := mem_map.mp hd'
    exact hcurrent d hd hactive
  lt d' hd' hactive htiles := by
    obtain ⟨d, hd, rfl⟩ := mem_map.mp hd'
    rw [(hfades d).resolution] at htiles
    rw [(hfades d).start, (hfades d).stop]
    exact h.lt d hd ((hfades d).active hactive) htiles
  filed d' hd' hactive htiles := by
    obtain ⟨d, hd, rfl⟩ := mem_map.mp hd'
    rw [(hfades d).resolution] at htiles
    rw [(hfades d).start, (hfades d).stop, (hfades d).file]
    exact h.filed d hd ((hfades d).active hactive) htiles

theorem filter (h : Tidy points files rollups) (p : RollupDescriptor → Bool) :
    Tidy points files (rollups.filter p) where
  apart := h.apart.filter p
  current d hd := h.current d (mem_filter.mp hd).1
  lt d hd := h.lt d (mem_filter.mp hd).1
  filed d hd := h.filed d (mem_filter.mp hd).1

/-- More files do no harm. -/
theorem mono (h : Tidy points files rollups)
    (hfiles : ∀ file ∈ rollups.map RollupDescriptor.file, ∀ content,
      files[file]? = some content → files'[file]? = some content) :
    Tidy points files' rollups where
  apart := h.apart
  current := h.current
  lt := h.lt
  filed d hd hactive htiles := by
    obtain ⟨buckets, hget, hinside⟩ := h.filed d hd hactive htiles
    exact ⟨buckets, hfiles _ (mem_map_of_mem hd) _ hget, hinside⟩

/-- A new rollup that no other one in use overlaps. -/
theorem concat (h : Tidy points files rollups) {d : RollupDescriptor}
    (hapart : ∀ a ∈ rollups, a.Apart d) (hcurrent : d.sourcePoints = points)
    (hlt : d.resolution.Tiles → d.start < d.stop)
    (hfiled : d.resolution.Tiles → ∃ buckets, files[d.file]? = some (some buckets) ∧
      Within d.start d.stop buckets) :
    Tidy points files (rollups ++ [d]) where
  apart := pairwise_append.mpr ⟨h.apart, pairwise_singleton .., fun a ha b hb => by
    rw [mem_singleton.mp hb]
    exact hapart a ha⟩
  current a ha := by
    rcases mem_append.mp ha with ha | ha
    · exact h.current a ha
    · rw [mem_singleton.mp ha]
      exact fun _ => hcurrent
  lt a ha := by
    rcases mem_append.mp ha with ha | ha
    · exact h.lt a ha
    · rw [mem_singleton.mp ha]
      exact fun _ => hlt
  filed a ha := by
    rcases mem_append.mp ha with ha | ha
    · exact h.filed a ha
    · rw [mem_singleton.mp ha]
      exact fun _ => hfiled

end Tidy

namespace Store

variable {w : Work} {io : MaintainIo} {files : RollupFiles} {s : Store} {points : UInt64}
  {resolution : RollupResolution} {definition : SeriesDefinition}
  {rollups : List RollupDescriptor} {db : Database}

/-! ## Steps of the calls -/

theorem Work.create_eq_ok {file : String} {buckets : List GaugeBucket}
    (h : w.create file buckets io = .ok files) :
    checkRollup buckets = .ok () ∧ file ∉ w.files ∧
      files = w.files.insert file (some buckets) := by
  obtain ⟨_, hcheck, hrest⟩ := bind_eq_ok.mp h
  obtain ⟨_, hfree, hrest⟩ := bind_eq_ok.mp hrest
  obtain ⟨_, -, hrest⟩ := bind_eq_ok.mp hrest
  rw [failIf_eq_ok, not_or] at hfree
  exact ⟨mapError_eq_ok.mp hcheck, hfree.1, (Except.ok.inj hrest).symm⟩

theorem isActiveOf_iff {seriesId : UInt64} {d : RollupDescriptor} :
    isActiveOf seriesId resolution d = true ↔
      d.active = true ∧ d.seriesId = seriesId ∧ d.resolution = resolution := by
  rw [isActiveOf, Bool.and_eq_true, decide_eq_true_eq]

theorem rangesOverlap_eq_false {a b c d : Int64} :
    rangesOverlap a b c d = false ↔ d ≤ a ∨ b ≤ c := by
  rw [rangesOverlap, decide_eq_false_iff_not, not_and_or, Std.not_lt, Std.not_lt]

theorem deactivateTier_fades (definition : SeriesDefinition) (now : Int64) (tier : RollupTier)
    (d : RollupDescriptor) :
    d.Fades (if isExpired definition.id tier now d then { d with active := false } else d) := by
  split
  · exact .deactivated d
  · exact .refl d

/-- No file is lost. -/
def KeepsFiles (files files' : RollupFiles) : Prop :=
  ∀ (file : String) (content : Option (List GaugeBucket)),
    files[file]? = some content → files'[file]? = some content

/-- What a step of a maintenance leaves of the files, also in an error. -/
def Built.Keeps (files : RollupFiles) : Built → Prop :=
  Either (fun w => KeepsFiles files w.files) fun e => KeepsFiles files e.2

theorem Work.lift_keeps {α : Type}
    (h : KeepsFiles files w.files) {x : Except Error α} :
    Either (fun _ => True) (fun e => KeepsFiles files e.2) (w.lift x) := by
  cases x with
  | error e => exact h
  | ok a => trivial

theorem Work.create_keeps (h : KeepsFiles files w.files)
    (file : String) (buckets : List GaugeBucket) (io : MaintainIo) :
    Either (KeepsFiles files) (fun e => KeepsFiles files e.2) (w.create file buckets io) := by
  refine (lift_keeps h).bind fun _ _ => ?_
  by_cases hrefused : file ∈ w.files ∨ io.createFails w.filesWritten = true
  · rw [failIf, if_pos hrefused]
    exact h
  · rw [failIf, if_neg hrefused]
    have hgrown : KeepsFiles files (w.files.insert file (some buckets)) := by
      intro name content hget
      rw [KeyedMap.getElem?_insert_eq, if_neg, h name content hget]
      rintro rfl
      exact hrefused (.inl (KeyedMap.mem_of_getElem? (h _ content hget)))
    show Either _ _ (failIf _ (Error.io, w.files.insert file (some buckets)) >>= fun _ => _)
    rw [failIf]
    split
    · exact hgrown
    · exact hgrown

theorem writeShard_keeps (h : KeepsFiles files w.files)
    (s : Store) (seriesId : UInt64) (resolution : RollupResolution) (io : MaintainIo)
    (shard : RollupShard) : Built.Keeps files (s.writeShard seriesId resolution io w shard) := by
  rw [writeShard]
  simp only
  split
  · exact h
  · exact (w.create_keeps h _ _ _).bind fun _ hfiles => hfiles

theorem statPoints_eq {db' : Database}
    (h : db'.points + db'.sealedPoints = db.points + db.sealedPoints) :
    db'.statPoints = db.statPoints := by
  rw [Database.statPoints, Database.statPoints, h]

theorem advanceDescriptor_fades (db : Database) (points : List Point) (d : RollupDescriptor) :
    d.Fades (advanceDescriptor db points d) := by
  rw [advanceDescriptor]
  split
  · simp only
    split
    · exact .deactivated d
    · exact .stamped d _ _
  · exact .refl d

theorem sourcePoints_advanceDescriptor {points : List Point} {d : RollupDescriptor}
    (hactive : (advanceDescriptor db points d).active = true) :
    (advanceDescriptor db points d).sourcePoints = db.statPoints := by
  rw [advanceDescriptor] at hactive ⊢
  split
  · next hd =>
    rw [if_pos hd] at hactive
    simp only at hactive ⊢
    split
    · next haffected =>
      rw [if_pos haffected] at hactive
      cases hactive
    · rfl
  · next hd =>
    rw [if_neg hd] at hactive
    exact absurd hactive hd

variable [Jiff]

/-! ## Maintenance -/

/-- A tidy list of rollups under construction. -/
def Work.Tidy (w : Work) (points : UInt64) : Prop := Ftwdb.Tidy points w.files w.rollups

/-- A new shard takes the place of those it overlaps. -/
theorem writeShard_tidy {seriesId : UInt64} {w w' : Work} {shard : RollupShard}
    (h : w.Tidy s.database.statPoints) (hproper : resolution.Tiles → shard.Proper)
    (hwrite : s.writeShard seriesId resolution io w shard = .ok w') :
    w'.Tidy s.database.statPoints := by
  rw [writeShard] at hwrite
  simp only at hwrite
  split at hwrite
  · rw [← Except.ok.inj hwrite]
    exact h
  · obtain ⟨files, hcreate, hrest⟩ := bind_eq_ok.mp hwrite
    obtain ⟨-, hfree, rfl⟩ := Work.create_eq_ok hcreate
    rw [← Except.ok.inj hrest]
    have hfiles : Ftwdb.Tidy s.database.statPoints
        (w.files.insert (rollupFileName (nextGeneration s.manifest.generation) seriesId
          w.filesWritten resolution (io.nonce w.filesWritten)) (some shard.buckets)) w.rollups := by
      refine h.mono fun file _ content hget => ?_
      rw [KeyedMap.getElem?_insert_eq, if_neg, hget]
      rintro rfl
      exact hfree (KeyedMap.mem_of_getElem? hget)
    refine Ftwdb.Tidy.concat (hfiles.map (fun d => ?_) fun d hd hactive => ?_) ?_ rfl
      (fun htiles => (hproper htiles).lt)
      fun htiles => ⟨_, Std.ExtTreeMap.getElem?_insert_self, (hproper htiles).within⟩
    · split
      · exact .deactivated d
      · exact .refl d
    · split at hactive
      · cases hactive
      · next hkept =>
        rw [if_neg hkept]
        exact h.current d hd hactive
    · -- what is left in use does not overlap the shard
      intro a ha hactive _ hseries hresolution
      obtain ⟨d, -, rfl⟩ := mem_map.mp ha
      split at hactive
      · cases hactive
      · next hkept =>
        rw [if_neg hkept] at hseries hresolution ⊢
        rw [Bool.and_eq_true, not_and_or, Bool.not_eq_true, Bool.not_eq_true,
          rangesOverlap_eq_false] at hkept
        rcases hkept with hother | hdisjoint
        · rw [isActiveOf_iff.mpr ⟨hactive, hseries, hresolution⟩] at hother
          cases hother
        · exact hdisjoint.symm

/-- One tier of a maintenance. -/
theorem maintainTier_tidy {bounds : Int64 × Int64} {now : Int64} {w w' : Work} {tier : RollupTier}
    (h : w.Tidy s.database.statPoints)
    (htier : s.maintainTier definition bounds now io w tier = .ok w') :
    w'.Tidy s.database.statPoints := by
  obtain ⟨needed, hneeded, hrest⟩ := bind_eq_ok.mp htier
  simp only at hrest
  split at hrest
  · rw [← Except.ok.inj hrest]
    exact h
  · next span hspan =>
    obtain ⟨shards, hshards, hfold⟩ := bind_eq_ok.mp hrest
    refine foldlM_invariant (Work.Tidy · s.database.statPoints) ?_ h hfold
    intro w shard w' hshard hw hwrite
    refine writeShard_tidy hw (fun htiles => ?_) hwrite
    exact rebuiltShards_proper htiles (mapError_eq_ok.mp hneeded)
      (fun shard hshard => (mem_filter.mp hshard).1) hspan (mapError_eq_ok.mp hshards) shard
      hshard

theorem deactivateExpired_tidy (h : Ftwdb.Tidy points files rollups)
    (definition : SeriesDefinition) (now : Int64) :
    Ftwdb.Tidy points files (deactivateExpiredRollups definition now rollups) := by
  rw [deactivateExpiredRollups]
  induction definition.rollupPolicy.tiers generalizing rollups with
  | nil => exact h
  | cons tier tiers ih =>
    refine ih (h.map (deactivateTier_fades definition now tier) fun d hd hactive => ?_)
    split at hactive
    · cases hactive
    · next hkept =>
      rw [if_neg hkept]
      exact h.current d hd hactive

theorem stampActive_tidy (h : Ftwdb.Tidy points files rollups) (seriesId commits : UInt64) :
    Ftwdb.Tidy points files (stampActiveSeriesSource seriesId commits points rollups) := by
  refine h.map (fun d => ?_) fun d hd hactive => ?_
  · split
    · exact .stamped d commits points
    · exact .refl d
  · split at hactive
    · next hstamped => rw [if_pos hstamped]
    · next hkept =>
      rw [if_neg hkept]
      exact h.current d hd hactive

/-- One series of a maintenance. -/
theorem maintainSeries_tidy {now : Int64} {w w' : Work} (h : w.Tidy s.database.statPoints)
    (hseries : s.maintainSeries now io w definition = .ok w') :
    w'.Tidy s.database.statPoints := by
  have hkept := deactivateExpired_tidy h definition now
  obtain ⟨skip, -, hrest⟩ := bind_eq_ok.mp hseries
  split at hrest
  · rw [← Except.ok.inj hrest]
    exact stampActive_tidy hkept definition.id s.database.statCommits
  · split at hrest
    · rw [← Except.ok.inj hrest]
      exact hkept
    · refine foldlM_invariant (Work.Tidy · s.database.statPoints) ?_ ?_ hrest
      · exact fun _ _ _ _ hw htier => maintainTier_tidy hw htier
      · exact hkept

theorem maintainTier_keeps (h : KeepsFiles files w.files)
    (s : Store) (definition : SeriesDefinition) (bounds : Int64 × Int64) (now : Int64)
    (io : MaintainIo) (tier : RollupTier) :
    Built.Keeps files (s.maintainTier definition bounds now io w tier) := by
  refine (Work.lift_keeps h).bind fun needed _ => ?_
  simp only
  split
  · exact h
  · refine (Work.lift_keeps h).bind fun shards _ => ?_
    exact .foldlM (fun w shard hw => writeShard_keeps hw s _ _ io shard) h

theorem maintainSeries_keeps (h : KeepsFiles files w.files)
    (s : Store) (now : Int64) (io : MaintainIo) (definition : SeriesDefinition) :
    Built.Keeps files (s.maintainSeries now io w definition) := by
  refine (Work.lift_keeps h).bind fun skip _ => ?_
  split
  · exact h
  · split
    · exact h
    · exact .foldlM (fun w tier hw => maintainTier_keeps hw s definition _ now io tier) h

/-- The loop of a maintenance. -/
theorem scan_keeps (s : Store) (now : Int64) (io : MaintainIo) :
    Built.Keeps s.directory.rollups (s.gauges.foldlM (s.maintainSeries now io)
      ⟨s.manifest.rollups, s.directory.rollups, 0, 0, false⟩) := by
  refine Either.foldlM (fun w definition hw => maintainSeries_keeps hw s now io definition) ?_
  exact fun _ _ => id

/-! ## Calls that succeed -/

/-- The rollups of a running store. -/
def Tidy (s : Store) : Prop :=
  Ftwdb.Tidy s.database.statPoints s.directory.rollups s.manifest.rollups

theorem statPoints_of_grows {db' : Database} (h : db.Grows db' []) :
    db'.statPoints = db.statPoints :=
  statPoints_eq (by rw [h.count, h.sealedPoints, length_nil, Nat.add_zero])

/-- The rollups of a new manifest stay where they are when it is published. -/
theorem tidy_of_renews {s s' : Store} {next : Manifest}
    (hrenews : Renews s s' next) (h : Ftwdb.Tidy points s.directory.rollups next.rollups) :
    Ftwdb.Tidy points s'.directory.rollups s'.manifest.rollups := by
  rw [hrenews.manifest]
  refine (h.filter _).mono fun file hfile content => hrenews.rollups file ?_ content
  rw [hrenews.manifest]
  exact hfile

/-- A publication keeps the files of the rollups it names. -/
theorem Tidy.renewed {s s' : Store} {next : Manifest} (hrenews : Renews s s' next)
    (h : Ftwdb.Tidy s.database.statPoints s.directory.rollups next.rollups) : s'.Tidy := by
  rw [Tidy, hrenews.database]
  exact tidy_of_renews hrenews h

/-- A handle with the same number of points. -/
theorem Tidy.grown (h : s.Tidy) (hgrows : s.database.Grows db []) :
    Tidy { s with database := db } := by
  have hpoints : Ftwdb.Tidy db.statPoints s.directory.rollups s.manifest.rollups := by
    rw [statPoints_of_grows hgrows]
    exact h
  exact hpoints

section Success

variable {s s' : Store}

/-- Every call that does not seal keeps the store tidy. -/
theorem Effect.tidy {points : List Point} (heffect : Effect s s' points) (h : s.Tidy) :
    s'.Tidy := by
  cases heffect with
  | @kept db _ hgrows hnone =>
    cases hactive : s.manifest.hasActiveRollups with
    | false => exact Ftwdb.Tidy.of_inactive h hactive
    | true =>
      rw [hnone hactive] at hgrows
      exact h.grown hgrows
  | advanced _ hpublish =>
    exact .renewed (.of_publish hpublish)
      (h.map (advanceDescriptor_fades _ _) fun _ _ => sourcePoints_advanceDescriptor)
  | @maintained db now io w s₁ hgrows hscan hpublish =>
    have hflushed := h.grown hgrows
    have hbuilt : w.Tidy db.statPoints ∧ KeepsFiles s.directory.rollups w.files := by
      rcases hscan with rfl | hscan
      · exact ⟨hflushed, fun _ _ => id⟩
      · have hkeeps := scan_keeps { s with database := db } now io
        rw [hscan] at hkeeps
        refine ⟨foldlM_invariant (Work.Tidy · db.statPoints) ?_ ?_ hscan, hkeeps⟩
        · exact fun _ _ _ _ hw hseries => maintainSeries_tidy hw hseries
        · exact hflushed
    show s₁.Tidy
    split at hpublish
    · exact .renewed (.of_publish hpublish) hbuilt.1
    · cases hpublish
      exact hflushed.mono fun file _ => hbuilt.2 file

variable {history : List Point}

theorem statPoints_of_carries (h : s.Carries history) :
    s.database.statPoints = UInt64.ofNat (min history.length (2 ^ 64 - 1)) := by
  rw [Database.statPoints, h.count]

/-- So does a seal. -/
theorem Tidy.sealed {io : SealIo} (hcarries : s.Carries history) (h : s.Tidy)
    (hseals : Seals s s' io) : s'.Tidy := by
  have hpoints : s'.database.statPoints = s.database.statPoints := by
    rw [statPoints_of_carries (hcarries.sealed hseals), statPoints_of_carries hcarries]
  have hpublished := tidy_of_renews (.of_publish hseals.publishes) h
  rw [Tidy, hpoints, (congrArg Store.directory hseals.done :),
    (congrArg Store.manifest hseals.done :)]
  exact hpublished

variable {io : OpenIo}

/-- The steps of an open behind its segments leave only rollups that are current. -/
theorem finishOpen_tidy {points : UInt64} {segments : List Segment}
    (hsegments : publishedSegments s.directory.segments s.manifest.segments = .ok segments)
    (h : Ftwdb.Tidy points s.directory.rollups s.manifest.rollups)
    (hpoints : s'.database.statPoints = (s.database.attachSealedSegments segments).statPoints)
    (hfinish : finishOpen s io = (.ok (), s')) : s'.Tidy := by
  obtain ⟨-, segments', s₁, hsegments', hreconcile, hreclaim⟩ := finishOpen_eq_ok.mp hfinish
  obtain rfl := Except.ok.inj (hsegments.symm.trans hsegments')
  obtain ⟨hverified, hcases⟩ := verifyAndReconcileManifest_eq_ok.mp hreconcile
  -- a rollup that is neither ahead nor stale has the stamp of the points
  have hcurrent : ∀ d ∈ s.manifest.rollups, d.active = true →
      isStale (s.database.attachSealedSegments segments).statPoints d = false →
      d.sourcePoints = (s.database.attachSealedSegments segments).statPoints := by
    intro d hd hactive hstale
    have hahead := (verifyDescriptor_eq_ok.mp (hverified d hd)).1 hactive
    rw [isStale, hactive, Bool.true_and, decide_eq_false_iff_not, Std.not_lt] at hstale
    exact Std.le_antisymm hahead hstale
  have hreconciled : Ftwdb.Tidy (s.database.attachSealedSegments segments).statPoints
      s₁.directory.rollups s₁.manifest.rollups := by
    split at hcases
    · refine tidy_of_renews (.of_publish hcases) (h.map (fun d => ?_) fun d hd hactive => ?_)
      · split
        · exact .deactivated d
        · exact .refl d
      · split at hactive
        · cases hactive
        · next hstale =>
          rw [if_neg hstale]
          exact hcurrent d hd hactive (Bool.not_eq_true _ ▸ hstale)
    · next hnone =>
      rw [hcases]
      refine ⟨h.apart, fun d hd hactive => hcurrent d hd hactive ?_, h.lt, h.filed⟩
      rw [any_eq_true, not_exists] at hnone
      exact Bool.not_eq_true _ ▸ fun hstale => hnone d ⟨hd, hstale⟩
  have hcollected : Ftwdb.Tidy (s.database.attachSealedSegments segments).statPoints
      (s₁.removeUnreferencedFiles io.gc).directory.rollups s₁.manifest.rollups :=
    hreconciled.mono fun file hfile content hget =>
      Directory.Retains.rollups (.inl rfl) io.gc hfile hget
  obtain ⟨db, rfl⟩ := hreclaim.exists_eq
  rw [Tidy, hpoints]
  exact hcollected

/-- And an open. -/
theorem reopen_tidy {config : Config} {disk' : Disk} (hcarries : s.Carries history) (h : s.Tidy)
    (hopen : openWith config s.disk io = (.ok s', disk')) : s'.Tidy := by
  obtain ⟨db, segments, hreopens, hfinish⟩ := hcarries.opens hopen
  have hpoints : s'.database.statPoints = (db.attachSealedSegments segments).statPoints := by
    rw [statPoints_of_carries (hcarries.reopened hopen)]
    exact (statPoints_of_carries hreopens.carries).symm
  exact @finishOpen_tidy _ (ofDatabase db s.directory s.manifest false) s' _ _ _
    hreopens.published h
    hpoints hfinish

theorem created_tidy {config : Config} {disk' : Disk}
    (hopen : openWith config ⟨.empty, {}⟩ io = (.ok s, disk')) : s.Tidy := by
  obtain ⟨-, m, db, file, hload, hlog, hfinish⟩ := openWith_eq_ok.mp hopen
  obtain rfl := Except.ok.inj (hload.symm.trans rfl)
  obtain ⟨-, segments, s₁, hsegments, hreconcile, hreclaim⟩ := finishOpen_eq_ok.mp hfinish
  have hnone := (verifyAndReconcileManifest_eq_ok.mp hreconcile).2
  have hmanifest : s.manifest = {} := by
    obtain ⟨db', rfl⟩ := hreclaim.exists_eq
    rw [hnone]
    rfl
  rw [Tidy, hmanifest]
  exact .nil _ _

/-- The rollups of every run of successful calls are tidy. -/
theorem Run.tidy (h : Run s history) : s.Tidy :=
  h.invariant created_tidy (fun _ ih heffect => heffect.tidy ih)
    (fun hrun ih hseals => ih.sealed hrun.carries hseals)
    fun hrun ih hopen => reopen_tidy hrun.carries ih hopen

end Success

end Store

end Ftwdb
