import Ftwdb.Storage.RawHistory
import Ftwdb.Storage.VisitHistory
import Ftwdb.Store.Steps

/-!
# The history of a store

`Carries s history` ties the parts of a running store to the points that were
committed to it: the manifest is the one a later open loads, its segments are
attached, the log replays to the tables of the handle, and what the segments and
the live index hold is the history, up to an order that queries do not see.
Every call that succeeds keeps it, and so does a reopen.
-/

namespace Ftwdb

open ByteCodec Check List StableSort

namespace Store

/-! ## Segments of a manifest -/

theorem publishedSegments_mono {files files' : SegmentFiles} {ds : List RawSegmentDescriptor}
    {segments : List Segment} (h : publishedSegments files ds = .ok segments)
    (hfiles : ∀ file ∈ ds.map RawSegmentDescriptor.file, ∀ content,
      files[file]? = some content → files'[file]? = some content) :
    publishedSegments files' ds = .ok segments := by
  rw [publishedSegments, mapM_eq_ok] at h ⊢
  induction h with
  | nil => exact .nil
  | @cons d segment ds segments hd _ ih =>
    refine .cons ?_ (ih fun file hfile => hfiles file (mem_cons_of_mem _ hfile))
    cases hget : files[d.file]? with
    | none => simp [hget] at hd
    | some content =>
      rw [hfiles d.file mem_cons_self content hget]
      rwa [hget] at hd

/-- A store behind a new generation. -/
structure Renews (s s' : Store) (next : Manifest) : Prop where
  database : s'.database = s.database
  readOnly : s'.readOnly = s.readOnly
  poisoned : s'.poisoned = s.poisoned
  manifest : s'.manifest = published next
  loads : s.directory.manifests.load = .ok s.manifest →
    next.generation = nextGeneration s.manifest.generation →
    s'.directory.manifests.load = .ok s'.manifest
  segments : ∀ file ∈ next.segmentFiles, ∀ content,
    s.directory.segments[file]? = some content → s'.directory.segments[file]? = some content
  rollups : ∀ file ∈ s'.manifest.rollupFiles, ∀ content,
    s.directory.rollups[file]? = some content → s'.directory.rollups[file]? = some content

theorem Renews.of_publish {s s' : Store} {next : Manifest} {io : PublishIo}
    (h : s.publishOrPoison next io = (.ok (), s')) : Renews s s' next := by
  obtain ⟨dir, hpublish, rfl⟩ := publishOrPoison_eq_ok.mp h
  exact {
    database := rfl
    readOnly := rfl
    poisoned := rfl
    manifest := rfl
    loads := fun hload hgeneration => by
      have hnext : (published next).generation = nextGeneration s.manifest.generation := hgeneration
      have hload' := Directory.load_publish hload hnext hpublish
      exact @Directory.load_removeUnreferencedFiles { s.directory with manifests := dir } _ hload'
        io.gc
    segments := fun _ hfile _ hget =>
      @Directory.Retains.segments { s.directory with manifests := dir } (published next)
        (published next) _ (.inl rfl) io.gc hfile _ hget
    rollups := fun _ hfile _ hget =>
      @Directory.Retains.rollups { s.directory with manifests := dir } (published next)
        (published next) _ _ (.inl rfl) io.gc hfile hget }

/-- The part of a successful call behind the log: at most a new generation with
the same segments. -/
structure Follows (s s' : Store) : Prop where
  database : s'.database = s.database
  readOnly : s'.readOnly = s.readOnly
  poisoned : s'.poisoned = s.poisoned
  segments : s'.manifest.segments = s.manifest.segments
  loads : s.directory.manifests.load = .ok s.manifest →
    s'.directory.manifests.load = .ok s'.manifest
  files : ∀ file ∈ s.manifest.segmentFiles, ∀ content,
    s.directory.segments[file]? = some content → s'.directory.segments[file]? = some content

namespace Follows

variable {s s' s'' : Store}

theorem refl (s : Store) : Follows s s := ⟨rfl, rfl, rfl, rfl, id, fun _ _ _ => id⟩

theorem trans (h : Follows s s') (h' : Follows s' s'') : Follows s s'' where
  database := h'.database.trans h.database
  readOnly := h'.readOnly.trans h.readOnly
  poisoned := h'.poisoned.trans h.poisoned
  segments := h'.segments.trans h.segments
  loads hload := h'.loads (h.loads hload)
  files file hfile content hget := by
    refine h'.files file ?_ content (h.files file hfile content hget)
    rwa [Manifest.segmentFiles, h.segments]

theorem collected (s : Store) (io : GcIo) : Follows s (s.removeUnreferencedFiles io) where
  database := rfl
  readOnly := rfl
  poisoned := rfl
  segments := rfl
  loads hload := Directory.load_removeUnreferencedFiles hload io
  files _ hfile _ hget := Directory.Retains.segments (.inl rfl) io hfile hget

theorem renewed {next : Manifest} (h : Renews s s' next)
    (hgeneration : next.generation = nextGeneration s.manifest.generation)
    (hsegments : next.segments = s.manifest.segments) : Follows s s' where
  database := h.database
  readOnly := h.readOnly
  poisoned := h.poisoned
  segments := by
    rw [h.manifest]
    exact hsegments
  loads hload := h.loads hload hgeneration
  files file hfile := by
    rw [Manifest.segmentFiles, ← hsegments] at hfile
    exact h.segments file hfile

end Follows

/-! ## Calls that succeed -/

/-- What a successful call that does not seal does to a store, and the points it adds.  The
handle grows; the manifest stays, or its rollups are advanced behind the points, or a
maintenance builds new ones. -/
inductive Effect [Jiff] (s : Store) : Store → List Point → Prop
  | kept {db : Database} {points : List Point} : s.database.Grows db points →
      (s.manifest.hasActiveRollups = true → points = []) → Effect s { s with database := db } points
  | advanced {db : Database} {points : List Point} {io : PublishIo} {s' : Store} :
      s.database.Grows db points →
      publishOrPoison { s with database := db } { s.manifest with
        generation := nextGeneration s.manifest.generation
        rollups := s.manifest.rollups.map (advanceDescriptor db points) } io = (.ok (), s') →
      Effect s s' points
  | maintained {db : Database} {now : Int64} {io : MaintainIo} {w : Work} {s₁ : Store} :
      s.database.Grows db [] →
      (w = ⟨s.manifest.rollups, s.directory.rollups, 0, 0, false⟩ ∨
        { s with database := db }.gauges.foldlM (maintainSeries { s with database := db } now io)
          ⟨s.manifest.rollups, s.directory.rollups, 0, 0, false⟩ = .ok w) →
      (if w.changed then
          publishOrPoison { s with
            database := db
            directory := { s.directory with rollups := w.files } }
            { s.manifest with
              generation := nextGeneration s.manifest.generation
              rollups := w.rollups } io.publish
        else (.ok (), { s with
          database := db
          directory := { s.directory with rollups := w.files } })) = (.ok (), s₁) →
      Effect s (s₁.rememberMaterializedRevisions now) []

section Calls

variable [Jiff] {s s' : Store} {points : List Point} {commit : Commit} {io : CommitIo}

theorem afterFrame_effect {db : Database} {written : List Point} {commit' : Commit}
    (hgrows : s.database.Grows db points)
    (hwritten : s.manifest.hasActiveRollups = true → written = points)
    (h : afterFrame { s with database := db } commit written io = (.ok commit', s')) :
    commit'.deduplicated = commit.deduplicated ∧ Effect s s' points := by
  rw [afterFrame] at h
  split at h
  · next hactive =>
    obtain rfl := hwritten hactive.2
    split at h
    · cases h
    next db' hflush =>
    have hgrows' : s.database.Grows db' written := by
      split at hflush
      · cases hflush
        exact hgrows
      · have hboth := hgrows.trans (.flush hflush)
        rwa [append_nil] at hboth
    split at h
    · cases h
    split at h
    · cases h
    next s₁ hadvance =>
    cases h
    rw [advanceAfterPoints, if_pos hactive.2] at hadvance
    exact ⟨rfl, .advanced hgrows' hadvance⟩
  · next hcases =>
    cases h
    refine ⟨rfl, .kept hgrows fun hactive => ?_⟩
    by_contra hne
    exact hcases ⟨hwritten hactive ▸ hne, hactive⟩

theorem commit_effect (hsound : s.database.Sound) {t : Transaction}
    (h : s.commit t io = (.ok commit, s')) : Effect s s' (t.newPoints commit) := by
  rw [Store.commit] at h
  split at h
  · cases h
  simp only at h
  split at h
  · cases h
  next commit₀ db hcommit =>
  have hgrows := Database.Grows.commit hsound hcommit
  split at h
  · next hknown =>
    cases h
    exact .kept hgrows fun _ => if_pos hknown
  · next hnew =>
    obtain ⟨hsame, heffect⟩ := afterFrame_effect hgrows (fun hactive => by
      rw [if_pos hactive, Transaction.newPoints, if_neg hnew]
      rfl) h
    rwa [Transaction.newPoints, hsame, ← Transaction.newPoints]

theorem append_effect (hsound : s.database.Sound) (h : s.append points io = (.ok commit, s')) :
    Effect s s' points := by
  rw [Store.append] at h
  split at h
  · cases h
  split at h
  · cases h
  next commit₀ db happend =>
  exact (afterFrame_effect (.append hsound happend) (fun _ => rfl) h).2

theorem flush_effect {io : Io} (h : s.flush io = (.ok (), s')) : Effect s s' [] := by
  rw [Store.flush] at h
  split at h
  · cases h
  · obtain ⟨hresult, rfl⟩ := Prod.mk.inj h
    exact .kept (.flush (Prod.ext hresult rfl)) fun _ => rfl

theorem maintain_effect {now : Int64} {io : MaintainIo} {report : MaintenanceReport}
    (h : s.maintain now io = (.ok report, s')) : Effect s s' [] := by
  rw [maintain] at h
  split at h
  · cases h
  split at h
  · cases h
  next db hflush =>
  simp only at h
  split at h
  · cases h
  split at h
  · cases h
  · cases h
    exact @Effect.maintained _ s db now io _ _ (.flush hflush) (.inl rfl) rfl
  split at h
  · cases h
  next w hscan =>
  rw [finishMaintain] at h
  simp only at h
  split at h
  · cases h
  next s₁ hpublish =>
  cases h
  exact .maintained (.flush hflush) (.inr hscan) hpublish

/-- Behind the log, at most a new generation with the same segments. -/
theorem Effect.follows (h : Effect s s' points) :
    ∃ db, s.database.Grows db points ∧ Follows { s with database := db } s' := by
  cases h with
  | kept hgrows _ => exact ⟨_, hgrows, .refl _⟩
  | advanced hgrows hpublish => exact ⟨_, hgrows, .renewed (.of_publish hpublish) rfl rfl⟩
  | @maintained db now io w s₁ hgrows _ hpublish =>
    have hfiles : Follows { s with database := db } { s with
        database := db
        directory := { s.directory with rollups := w.files } } :=
      ⟨rfl, rfl, rfl, rfl, id, fun _ _ _ => id⟩
    have hremember : Follows s₁ (s₁.rememberMaterializedRevisions now) :=
      ⟨rfl, rfl, rfl, rfl, id, fun _ _ _ => id⟩
    refine ⟨db, hgrows, hfiles.trans (.trans ?_ hremember)⟩
    split at hpublish
    · exact .renewed (.of_publish hpublish) rfl rfl
    · cases hpublish
      exact .refl _

end Calls

/-! ## Sealing -/

/-- The file of a new segment is there. -/
def withSegment (s : Store) (segment : Segment) (io : SealIo) : Store :=
  let file := rawSegmentFileName (nextGeneration s.manifest.generation) io.nonce
  { s with directory := { s.directory with
    segments := s.directory.segments.insert file (some ⟨segment, io.contentCrc32⟩) } }

theorem createSegment_eq_ok {s s' : Store} {live : List Point} {io : SealIo} {segment : Segment}
    (h : s.createSegment live io = (.ok segment, s')) :
    rawSegmentFileName (nextGeneration s.manifest.generation) io.nonce ∉ s.directory.segments ∧
      Segment.create live sealBlockPoints = .ok segment ∧ s' = s.withSegment segment io := by
  rw [createSegment] at h
  simp only at h
  split at h
  · cases h
  next hfree =>
  split at h
  · cases h
  next segment' hcreate =>
  split at h
  · cases h
  split at h
  · cases h
  · obtain ⟨hsegment, rfl⟩ := Prod.mk.inj h
    cases hsegment
    exact ⟨hfree, hcreate, rfl⟩

/-- A seal that wrote a segment, step by step: the handle behind the flush, the
one behind the checkpoint, the store behind the new manifest, and the handle
over the new log. -/
structure Seals [Jiff] (s s' : Store) (io : SealIo) where
  flushed : Database
  first : Point
  rest : List Point
  segment : Segment
  marked : Database
  published : Store
  segments : List Segment
  reclaimed : Database
  flushes : s.database.flush io.flush = (.ok (), flushed)
  live : Database.livePointsSnapshot flushed.index io.order = first :: rest
  free : rawSegmentFileName (nextGeneration s.manifest.generation) io.nonce ∉ s.directory.segments
  creates : Segment.create (first :: rest) sealBlockPoints = .ok segment
  marks : flushed.writeSealCheckpoint (nextGeneration s.manifest.generation)
    (UInt64.ofNat (first :: rest).length) io.checkpoint io.checkpointFlush = (.ok (), marked)
  publishes : publishOrPoison { s.withSegment segment io with database := marked }
    (sealedManifest s segment first rest flushed.statPoints flushed.statCommits io) io.publish =
      (.ok (), published)
  attaches : publishedSegments published.directory.segments published.manifest.segments =
    .ok segments
  reclaims : (published.database.attachSealedSegments segments).clearLiveIndex.reclaimLiveLog
    io.reclaimOrder io.reclaim = (.ok (), reclaimed)
  done : s' = { published with database := reclaimed }

theorem sealAndReclaim_eq_ok [Jiff] {s s' : Store} {io : SealIo} {report : SealReport}
    (h : s.sealAndReclaim io = (.ok report, s')) :
    (∃ db, s.database.flush io.flush = (.ok (), db) ∧ s' = { s with database := db }) ∨
      Nonempty (Seals s s' io) := by
  rw [sealAndReclaim] at h
  split at h
  · cases h
  split at h
  · cases h
  next db hflush =>
  simp only at h
  split at h
  · cases h
  split at h
  · exact .inl ⟨db, hflush, (Prod.mk.inj h).2.symm⟩
  next first rest hlive =>
  split at h
  · cases h
  next segment s₁ hcreated =>
  obtain ⟨hfree, hcreate, rfl⟩ := createSegment_eq_ok hcreated
  split at h
  · cases h
  next s₂ hpublished =>
  rw [publishSealed] at hpublished
  simp only at hpublished
  split at hpublished
  · cases hpublished
  next db₁ hmark =>
  split at h
  · cases h
  next s₃ hreclaimed =>
  rw [reclaimSealed, attachPublishedSegments] at hreclaimed
  cases hattach : publishedSegments s₂.directory.segments s₂.manifest.segments with
  | error e =>
    rw [hattach] at hreclaimed
    cases hreclaimed
  | ok segments =>
    rw [hattach] at hreclaimed
    obtain ⟨hresult, rfl⟩ := Prod.mk.inj hreclaimed
    exact .inr ⟨{
      flushed := db
      first := first
      rest := rest
      segment := segment
      marked := db₁
      published := s₂
      segments := segments
      reclaimed := _
      flushes := hflush
      live := hlive
      free := hfree
      creates := hcreate
      marks := hmark
      publishes := hpublished
      attaches := hattach
      reclaims := Prod.ext hresult rfl
      done := (Prod.mk.inj h).2.symm }⟩

/-! ## The carried history -/

/-- The segments of one more descriptor. -/
theorem publishedSegments_concat {files : SegmentFiles} {ds : List RawSegmentDescriptor}
    {d : RawSegmentDescriptor} {segments : List Segment}
    (h : publishedSegments files (ds ++ [d]) = .ok segments) :
    ∃ before f, publishedSegments files ds = .ok before ∧ files[d.file]? = some (some f) ∧
      segments = before ++ [f.segment] := by
  rw [publishedSegments, mapM_eq_ok] at h
  induction ds generalizing segments with
  | nil =>
    cases h with
    | cons hd hnil =>
      cases hnil
      split at hd
      · next f hget =>
        obtain ⟨_, -, rfl⟩ := map_eq_ok.mp hd
        exact ⟨[], f, rfl, hget, rfl⟩
      · cases hd
  | cons c ds ih =>
    cases h with
    | @cons _ segment _ segments hc hrest =>
      obtain ⟨before, f, hbefore, hget, rfl⟩ := ih hrest
      refine ⟨segment :: before, f, ?_, hget, rfl⟩
      rw [publishedSegments, mapM_eq_ok] at hbefore ⊢
      exact .cons hc hbefore

/-- A segment that `Segment::create` has made. -/
def Created (t : Segment) : Prop := ∃ points n, Segment.create points n = .ok t

/-- There are files that store such segments. -/
theorem exists_backing [Lz4] {sealed : List Segment} (h : ∀ t ∈ sealed, Created t) :
    ∃ stored : List StoredSegment, (∀ f ∈ stored, ∃ file, StoredSegment.openFile file = .ok f) ∧
      List.Forall₂ StoredSegment.Backs stored sealed := by
  induction sealed with
  | nil => exact ⟨[], nofun, .nil⟩
  | cons t sealed ih =>
    rw [forall_mem_cons] at h
    obtain ⟨⟨points, n, hcreate⟩, hrest⟩ := h
    obtain ⟨stored, hopened, hbacks⟩ := ih hrest
    obtain ⟨⟨_, file⟩, hfile⟩ := (StoredSegment.create_ok_iff points n).mpr ⟨t, hcreate⟩
    obtain ⟨t', f, hcreate', -, hopen, -, hf⟩ := StoredSegment.create_opens hfile
    obtain rfl := Except.ok.inj (hcreate.symm.trans hcreate')
    exact ⟨f :: stored, forall_mem_cons.mpr ⟨⟨file, hopen⟩, hopened⟩, .cons hf hbacks⟩

/-- What a running store is to the points that were committed to it. -/
structure Carries [Jiff] (s : Store) (history : List Point) : Prop where
  reachable : s.database.Reachable
  loads : s.directory.manifests.load = .ok s.manifest
  attached : publishedSegments s.directory.segments s.manifest.segments = .ok s.database.sealed
  sealedPoints : s.database.sealedPoints = (s.database.sealed.map Segment.pointCount).sum
  made : ∀ segment ∈ s.database.sealed, Created segment
  log : ∃ fs t, s.database.file.bytes = logBytes fs ∧
    s.database.Rebuilt s.manifest.publishedSeals fs t
  series : ∀ seriesId, stableSort byHistory (s.database.rawSeries seriesId) =
    stableSort byHistory (history.filter (ofSeries seriesId))
  count : s.database.points + s.database.sealedPoints = history.length

namespace Carries

variable [Jiff] {s s' : Store} {history points : List Point}

theorem inOrder (h : s.Carries history) : s.database.InOrder := by
  obtain ⟨l, hl⟩ := h.reachable.sound.index
  refine ⟨fun segment hsegment => ?_, fun seriesId => ?_⟩
  · obtain ⟨points, n, hcreate⟩ := h.made segment hsegment
    exact (Segment.create_eq_ok hcreate).1
  rw [hl seriesId]
  exact sorted_stableSort byValidTime_preorder _

/-- A handle that carries a history answers from it. -/
theorem answers (h : s.Carries history) : s.database.Answers history := h.inOrder.answers h.series

theorem follows (h : s.Carries history) (hfollows : Follows s s') : s'.Carries history where
  reachable := hfollows.database ▸ h.reachable
  loads := hfollows.loads h.loads
  attached := by
    rw [hfollows.segments, hfollows.database]
    exact publishedSegments_mono h.attached hfollows.files
  sealedPoints := hfollows.database ▸ h.sealedPoints
  made := hfollows.database ▸ h.made
  log := by
    rw [hfollows.database, Manifest.publishedSeals, hfollows.segments]
    exact h.log
  series := hfollows.database ▸ h.series
  count := hfollows.database ▸ h.count

theorem grows {db : Database} (h : s.Carries history) (hgrows : s.database.Grows db points) :
    Carries { s with database := db } (history ++ points) where
  reachable := hgrows.reachable h.reachable
  loads := h.loads
  attached := by
    rw [h.attached, hgrows.sealed]
  sealedPoints := by
    rw [hgrows.sealedPoints, hgrows.sealed, h.sealedPoints]
  made := by
    rw [hgrows.sealed]
    exact h.made
  log := by
    obtain ⟨fs, t, hbytes, hrebuilt⟩ := h.log
    obtain ⟨more, t', hbytes', hrebuilt', -⟩ := hgrows.log hbytes hrebuilt
    exact ⟨fs ++ more, t', hbytes', hrebuilt'⟩
  series seriesId := by
    rw [hgrows.series, ← stableSort_append_stableSort byHistory_preorder, h.series,
      stableSort_append_stableSort byHistory_preorder, filter_append]
  count := by
    rw [hgrows.count, hgrows.sealedPoints, length_append, ← h.count]
    omega

theorem extended (h : s.Carries history) (heffect : Effect s s' points) :
    s'.Carries (history ++ points) := by
  obtain ⟨db, hgrows, hfollows⟩ := heffect.follows
  exact (h.grows hgrows).follows hfollows

variable {io : SealIo}

/-- The published store behind a seal, before its segments are attached. -/
theorem published_of_seals (h : s.Carries history) (hseals : Seals s s' io) :
    hseals.published.database = hseals.marked ∧
      hseals.published.directory.manifests.load = .ok hseals.published.manifest ∧
      hseals.segments = s.database.sealed ++ [hseals.segment] := by
  have hrenews := Renews.of_publish hseals.publishes
  refine ⟨hrenews.database, hrenews.loads h.loads rfl, ?_⟩
  have hattaches := hseals.attaches
  rw [hrenews.manifest] at hattaches
  obtain ⟨segments, f, hsegments, hget, hall⟩ := publishedSegments_concat hattaches
  -- files that the old manifest names are still there, and the new one is
  have hkept : publishedSegments hseals.published.directory.segments s.manifest.segments =
      .ok s.database.sealed := by
    refine publishedSegments_mono h.attached fun file hfile content hold => ?_
    refine hrenews.segments file ?_ content ?_
    · show file ∈ (s.manifest.segments ++ [_]).map RawSegmentDescriptor.file
      rw [map_append]
      exact mem_append_left _ hfile
    · show (s.directory.segments.insert _ _)[file]? = some content
      rw [KeyedMap.getElem?_insert_eq, if_neg, hold]
      rintro rfl
      exact hseals.free (KeyedMap.mem_of_getElem? hold)
  have hnew : hseals.published.directory.segments[
      rawSegmentFileName (nextGeneration s.manifest.generation) io.nonce]? =
        some (some ⟨hseals.segment, io.contentCrc32⟩) := by
    refine hrenews.segments _ ?_ _ Std.ExtTreeMap.getElem?_insert_self
    show _ ∈ (s.manifest.segments ++ [_]).map RawSegmentDescriptor.file
    rw [map_append]
    exact mem_append_right _ mem_cons_self
  obtain rfl := Except.ok.inj (hsegments.symm.trans hkept)
  obtain rfl := Option.some.inj (Option.some.inj (hget.symm.trans hnew))
  exact hall

/-- A live index without points holds none. -/
theorem points_eq_zero {db : Database} {published : List UInt64} {fs : List Frame} {t : Tables}
    (hrebuilt : db.Rebuilt published fs t)
    (hempty : ∀ seriesId, db.index.seriesPoints seriesId = []) :
    db.points = 0 := by
  obtain ⟨l, hl, hcount⟩ := hrebuilt.counted
  rw [hcount, length_eq_zero_iff, eq_nil_iff_forall_not_mem]
  intro p hp
  have hseries := hl p.seriesId
  rw [hempty] at hseries
  have hmem : p ∈ stableSort byValidTime (l.filter fun q => q.seriesId = p.seriesId) := by
    rw [mem_stableSort]
    exact mem_filter.mpr ⟨hp, decide_eq_true rfl⟩
  rw [← hseries] at hmem
  cases hmem

/-- The log behind a seal is written anew from a handle without live points. -/
theorem rewrites_of_seals (h : s.Carries history) (hseals : Seals s s' io) :
    hseals.reclaimed.Reachable ∧
      Database.Rewrites (hseals.published.database.attachSealedSegments
        hseals.segments).clearLiveIndex hseals.reclaimed ∧
      ∀ seriesId, hseals.reclaimed.index.seriesPoints seriesId = [] := by
  have hflushed := h.grows (.flush hseals.flushes)
  have hmarked : hseals.marked.Reachable := by
    have hmark := hflushed.reachable.writeSealCheckpoint (nextGeneration s.manifest.generation)
      (UInt64.ofNat (hseals.first :: hseals.rest).length) io.checkpoint io.checkpointFlush
    rwa [show (Database.writeSealCheckpoint _ _ _ _ _).2 = hseals.marked from
      congrArg Prod.snd hseals.marks] at hmark
  have hcleared : (hseals.published.database.attachSealedSegments
      hseals.segments).clearLiveIndex.Reachable := by
    rw [(h.published_of_seals hseals).1]
    exact (hmarked.attachSealedSegments hseals.segments).clearLiveIndex
  have hreclaim := hcleared.reclaimLiveLog io.reclaimOrder io.reclaim
  rw [hseals.reclaims] at hreclaim
  have hrewrites := Database.Rewrites.of_reclaim hcleared.sound hseals.reclaims
  refine ⟨hreclaim, hrewrites, fun seriesId => ?_⟩
  rw [(Database.HoldsSame.of_logical hrewrites.logical).series]
  exact LiveIndex.Holds.empty seriesId

/-- Behind a seal no point is live. -/
theorem points_of_seals (h : s.Carries history) (hseals : Seals s s' io) :
    s'.database.points = 0 := by
  obtain ⟨-, hrewrites, hempty⟩ := h.rewrites_of_seals hseals
  obtain ⟨fs, t, -, -, hrebuilt⟩ := hrewrites.log
  rw [(congrArg Store.database hseals.done : s'.database = hseals.reclaimed)]
  exact points_eq_zero hrebuilt hempty

/-- A seal moves the live points into the new segment. -/
theorem sealed (h : s.Carries history) (hseals : Seals s s' io) :
    s'.Carries history := by
  obtain ⟨-, hload, hsegments⟩ := h.published_of_seals hseals
  obtain ⟨hreachable, hrewrites, hempty⟩ := h.rewrites_of_seals hseals
  have hflushed := h.grows (.flush hseals.flushes)
  rw [append_nil] at hflushed
  obtain ⟨fs₀, t₀, -, hrebuilt₀⟩ := hflushed.log
  obtain ⟨l, hl, hcount⟩ := hrebuilt₀.counted
  obtain ⟨-, hpoints, hnumber⟩ := Segment.create_eq_ok hseals.creates
  obtain ⟨fs, t, hbytes, hkinds, hrebuilt⟩ := hrewrites.log
  have hsealed : hseals.reclaimed.sealed = s.database.sealed ++ [hseals.segment] :=
    hrewrites.sealed.trans hsegments
  have hsealedPoints : hseals.reclaimed.sealedPoints =
      s.database.sealedPoints + (hseals.first :: hseals.rest).length := by
    rw [hrewrites.sealedPoints]
    show (hseals.segments.map Segment.pointCount).sum = _
    rw [hsegments, map_append, sum_append, ← h.sealedPoints, ← hnumber]
    rfl
  have hlive : (hseals.first :: hseals.rest).length = hseals.flushed.points := by
    rw [← hseals.live, (Database.livePointsSnapshot_perm hl io.order).length_eq, hcount]
  have hfinal : s'.database = hseals.reclaimed := congrArg Store.database hseals.done
  have hdirectory : s'.directory = hseals.published.directory ∧
      s'.manifest = hseals.published.manifest :=
    ⟨(congrArg Store.directory hseals.done :), (congrArg Store.manifest hseals.done :)⟩
  refine {
    reachable := ?_
    loads := by rw [hdirectory.1, hdirectory.2, hload]
    attached := by
      rw [hdirectory.1, hdirectory.2, hfinal, hseals.attaches, hsegments, hsealed]
    sealedPoints := ?_
    made := ?_
    log := ?_
    series := fun seriesId => ?_
    count := ?_ }
  · rw [hfinal]
    exact hreachable
  · rw [hfinal, hrewrites.sealedPoints, hrewrites.sealed]
    rfl
  · rw [hfinal, hsealed]
    intro segment hsegment
    rcases mem_append.mp hsegment with hold | hnew
    · exact h.made segment hold
    · rw [mem_singleton.mp hnew]
      exact ⟨_, _, hseals.creates⟩
  · rw [hfinal]
    refine ⟨fs, t, hbytes, hrebuilt.fits, ?_, hrebuilt.tables⟩
    rw [replay_published hkinds]
    exact hrebuilt.replay
  · -- the points of the segment are the live ones, sorted
    have hnew : hseals.segment.points.filter (ofSeries seriesId) =
        stableSort byHistory (hseals.flushed.index.seriesPoints seriesId) := by
      rw [hpoints, Segment.filter_sort_bySegment, ← hseals.live]
      congr 1
      exact hl.filter_livePointsSnapshot io.order seriesId
    have hbefore := hflushed.series seriesId
    rw [← hbefore, hfinal, Database.rawSeries, hempty, append_nil, hsealed, flatMap_append,
      filter_append, Database.rawSeries]
    show stableSort byHistory (_ ++ ([hseals.segment].flatMap Segment.points).filter _) = _
    rw [flatMap_singleton, hnew]
    have hsort := stableSort_append_of_coarser byHistory_preorder byHistory_preorder id
      ((s.database.sealed.flatMap Segment.points).filter (ofSeries seriesId))
      (hseals.flushed.index.seriesPoints seriesId) []
    rw [append_nil, append_nil] at hsort
    rw [hsort]
    have hkept := (Database.Grows.flush hseals.flushes).sealed
    rw [hkept]
  · have hzero := h.points_of_seals hseals
    have hbefore : hseals.flushed.points + hseals.flushed.sealedPoints = history.length :=
      hflushed.count
    have hkept := (Database.Grows.flush hseals.flushes).sealedPoints
    rw [hzero, hfinal, hsealedPoints, hlive]
    omega

end Carries

end Store

/-! ## Closed stores -/

/-- What the manifest, the segments and the log of a store that nobody has open
are to the points that were committed to it. -/
structure Disk.Holds [Jiff] (disk : Disk) (m : Manifest) (segments : List Segment)
    (fs : List Frame) (t : Tables) (history : List Point) : Prop where
  loads : disk.directory.manifests.load = .ok m
  published : Store.publishedSegments disk.directory.segments m.segments = .ok segments
  made : ∀ segment ∈ segments, Store.Created segment
  log : disk.log.bytes = logBytes fs
  replays : ∃ limits, replay limits m.publishedSeals databaseHeaderBytes {} fs = .ok t
  series : ∀ seriesId, stableSort byHistory ((segments.flatMap Segment.points).filter
      (ofSeries seriesId) ++ t.index.sort.seriesPoints seriesId) =
    stableSort byHistory (history.filter (ofSeries seriesId))
  count : t.points + (segments.map Segment.pointCount).sum = history.length

namespace Store

section Runs

variable [Jiff] {s s' : Store} {history : List Point}

theorem Carries.disk (h : s.Carries history) :
    ∃ fs t, s.disk.Holds s.manifest s.database.sealed fs t history := by
  obtain ⟨fs, t, hbytes, hrebuilt⟩ := h.log
  refine ⟨fs, t, h.loads, h.attached, h.made, hbytes, ⟨_, hrebuilt.replay⟩, fun seriesId => ?_, ?_⟩
  · rw [← hrebuilt.tables.index]
    exact h.series seriesId
  · rw [← hrebuilt.tables.points, ← h.sealedPoints]
    exact h.count

variable {db : Database} {segments : List Segment} {io : OpenIo} {config : Config} {disk' : Disk}

/-- A log written anew under a running store. -/
theorem Carries.rewritten (h : s.Carries history) (hreachable : db.Reachable)
    (hrewrites : s.database.Rewrites db) :
    Carries { s with database := db } history := by
  have hseries := (Database.HoldsSame.of_logical hrewrites.logical).series
  obtain ⟨fs, t, hbytes, hkinds, hrebuilt⟩ := hrewrites.log
  obtain ⟨fs₀, t₀, -, hrebuilt₀⟩ := h.log
  obtain ⟨l, hl, hcount⟩ := hrebuilt.counted
  obtain ⟨l₀, hl₀, hcount₀⟩ := hrebuilt₀.counted
  refine ⟨hreachable, h.loads, ?_, ?_, ?_, ⟨fs, t, hbytes, hrebuilt.fits, ?_, hrebuilt.tables⟩,
    fun seriesId => ?_, ?_⟩
  · rw [hrewrites.sealed]
    exact h.attached
  · rw [hrewrites.sealed, hrewrites.sealedPoints]
    exact h.sealedPoints
  · rw [hrewrites.sealed]
    exact h.made
  · rw [replay_published hkinds]
    exact hrebuilt.replay
  · rw [← h.series, Database.rawSeries, Database.rawSeries, hrewrites.sealed, hseries]
  · have hlength := Database.length_eq_of_series hl₀ hl hseries
    rw [hrewrites.sealedPoints, hcount, hlength, ← hcount₀]
    exact h.count

/-- A log that was read back, with the segments of the manifest. -/
theorem Carries.of_holds {log : File} {dir : Directory} {m : Manifest} (hreachable : db.Reachable)
    {fs : List Frame} {t : Tables} (hbytes : db.file.bytes = logBytes fs)
    (hrebuilt : db.Rebuilt m.publishedSeals fs t)
    (h : Disk.Holds ⟨log, dir⟩ m segments fs t history) :
    Carries { ofDatabase db dir m false with
      database := db.attachSealedSegments segments } history where
  reachable := hreachable.attachSealedSegments segments
  loads := h.loads
  attached := h.published
  sealedPoints := rfl
  made := h.made
  log := ⟨fs, t, hbytes, hrebuilt.fits, hrebuilt.replay, hrebuilt.tables⟩
  series seriesId := by
    rw [Database.rawSeries]
    show stableSort byHistory (_ ++ db.index.seriesPoints seriesId) = _
    rw [hrebuilt.tables.index]
    exact h.series seriesId
  count := by
    show db.points + _ = _
    rw [hrebuilt.tables.points]
    exact h.count

/-- The steps of an open behind its segments. -/
theorem Carries.finished (s₀ : Store)
    (hsegments : publishedSegments s₀.directory.segments s₀.manifest.segments = .ok segments)
    (h : Carries { s₀ with database := s₀.database.attachSealedSegments segments } history)
    (hfinish : finishOpen s₀ io = (.ok (), s)) : s.Carries history := by
  obtain ⟨-, segments', s₁, hsegments', hreconcile, hreclaim⟩ := finishOpen_eq_ok.mp hfinish
  obtain rfl := Except.ok.inj (hsegments.symm.trans hsegments')
  have hreconciled : s₁.Carries history := by
    have hcases := (verifyAndReconcileManifest_eq_ok.mp hreconcile).2
    split at hcases
    · exact h.follows (.renewed (.of_publish hcases) rfl rfl)
    · rw [hcases]
      exact h
  have hcollected := hreconciled.follows (.collected s₁ io.gc)
  rw [FinishesReclaim] at hreclaim
  split at hreclaim
  · obtain ⟨db', hdone, rfl⟩ := hreclaim
    have hnext := hcollected.reachable.reclaimLiveLog io.order io.reclaim
    rw [hdone] at hnext
    exact hcollected.rewritten hnext (.of_reclaim hcollected.reachable.sound hdone)
  · rw [hreclaim]
    exact hcollected

/-- An open up to its segments. -/
structure Reopens (s : Store) (history : List Point) (db : Database) (segments : List Segment) :
    Prop where
  published : publishedSegments s.directory.segments s.manifest.segments = .ok segments
  carries : Carries { ofDatabase db s.directory s.manifest false with
    database := db.attachSealedSegments segments } history

theorem Carries.opens (h : s.Carries history)
    (hopen : openWith config s.disk io = (.ok s', disk')) : ∃ db segments,
      Reopens s history db segments ∧
        finishOpen (ofDatabase db s.directory s.manifest false) io = (.ok (), s') := by
  obtain ⟨fs, t, hholds⟩ := h.disk
  obtain ⟨-, m, db, file, hload, hlog, hfinish⟩ := openWith_eq_ok.mp hopen
  obtain rfl := Except.ok.inj (hholds.loads.symm.trans hload)
  obtain ⟨t', hopened, hbytes⟩ := Database.openMode_logBytes hholds.log hlog
  obtain ⟨limits, hreplay⟩ := hholds.replays
  obtain rfl := replay_limits hreplay hopened.replay
  exact ⟨db, _, ⟨h.attached, .of_holds (.opened hlog) hbytes hopened.toRebuilt hholds⟩, hfinish⟩

theorem Carries.reopened (h : s.Carries history)
    (hopen : openWith config s.disk io = (.ok s', disk')) : s'.Carries history := by
  obtain ⟨db, segments, hreopens, hfinish⟩ := h.opens hopen
  exact .finished (ofDatabase db s.directory s.manifest false) hreopens.published hreopens.carries
    hfinish

/-- The log of a new store holds no frame. -/
theorem opened_new {io : Ftwdb.OpenIo} {file : File}
    (hlog : Database.openMode config false [] .empty io = (.ok db, file)) :
    config.validate = .ok () ∧ db.Opened config [] [] {} [] ∧ db.file.bytes = logBytes [] := by
  have hexclusive : config.validate = .ok () ∧
      Database.openExclusive config [] .empty io = (.ok db, file) := by
    rw [Database.openMode] at hlog
    split at hlog
    · cases hlog
    · next hvalid => exact ⟨hvalid, hlog⟩
  rcases @Database.openExclusive_new _ .empty rfl config [] io with
    ⟨file', n, herror, -⟩ | ⟨file', hbytes, -, hsame⟩
  · cases (Prod.mk.inj (herror.symm.trans hexclusive.2)).1
  have hnil : file'.bytes = logBytes [] ++ [] := by rw [hbytes, append_nil]
  rcases Database.openExclusive_logged hnil (t := {}) (fun _ hf => by cases hf) rfl
    (.inl rfl) io with
    ⟨db', hok, hopened, -, hlogged, -⟩ | ⟨_, herror, -⟩
  · obtain ⟨hdb, -⟩ := Prod.mk.inj (hexclusive.2.symm.trans (hsame.trans hok))
    cases hdb
    exact ⟨hexclusive.1, hopened, hlogged⟩
  · cases (Prod.mk.inj (herror.symm.trans (hsame.symm.trans hexclusive.2))).1

/-- A store in an empty directory. -/
theorem Carries.created (hopen : openWith config ⟨.empty, {}⟩ io = (.ok s, disk')) :
    s.Carries [] := by
  obtain ⟨-, m, db, file, hload, hlog, hfinish⟩ := openWith_eq_ok.mp hopen
  obtain rfl := Except.ok.inj (hload.symm.trans rfl)
  obtain ⟨-, hopened, hlogged⟩ := opened_new hlog
  have hholds : Disk.Holds ⟨db.file, {}⟩ {} [] [] {} [] := by
    refine ⟨hload, rfl, nofun, hlogged, ⟨config.limits, rfl⟩, fun seriesId => ?_, rfl⟩
    rw [LiveIndex.seriesPoints_sort, LiveIndex.Holds.empty seriesId]
    rfl
  have hrebuilt : db.Rebuilt (Manifest.publishedSeals {}) [] {} := hopened.toRebuilt
  exact .finished (ofDatabase db {} {} false) rfl
    (.of_holds (.opened hlog) hlogged hrebuilt hholds) hfinish

/-! ## Runs -/

/-- The stores of all runs of successful calls, with the points committed so far
in the order of their commits.  Reads and writes may fail where a call goes on
without them. -/
inductive Run : Store → List Point → Prop
  | created {config : Config} {io : OpenIo} {s : Store} {disk' : Disk} :
      openWith config ⟨.empty, {}⟩ io = (.ok s, disk') → Run s []
  | commit {s s' : Store} {history : List Point} {t : Transaction} {io : CommitIo}
      {commit : Commit} : Run s history → s.commit t io = (.ok commit, s') →
      Run s' (history ++ t.newPoints commit)
  | append {s s' : Store} {history points : List Point} {io : CommitIo} {commit : Commit} :
      Run s history → s.append points io = (.ok commit, s') → Run s' (history ++ points)
  | flush {s s' : Store} {history : List Point} {io : Io} : Run s history →
      s.flush io = (.ok (), s') → Run s' history
  | maintain {s s' : Store} {history : List Point} {now : Int64} {io : MaintainIo}
      {report : MaintenanceReport} : Run s history → s.maintain now io = (.ok report, s') →
      Run s' history
  | sealAndReclaim {s s' : Store} {history : List Point} {io : SealIo} {report : SealReport} :
      Run s history → s.sealAndReclaim io = (.ok report, s') → Run s' history
  | reopen {s s' : Store} {history : List Point} {config : Config} {io : OpenIo} {disk' : Disk} :
      Run s history → openWith config s.disk io = (.ok s', disk') → Run s' history

theorem Run.carries (h : Run s history) : s.Carries history := by
  induction h with
  | created hopen => exact .created hopen
  | commit _ hcommit ih => exact ih.extended (commit_effect ih.reachable.sound hcommit)
  | append _ happend ih => exact ih.extended (append_effect ih.reachable.sound happend)
  | flush _ hflush ih => simpa using ih.extended (flush_effect hflush)
  | maintain _ hmaintain ih => simpa using ih.extended (maintain_effect hmaintain)
  | @sealAndReclaim s s' history io report _ hseal ih =>
    rcases sealAndReclaim_eq_ok hseal with ⟨db, hflush, rfl⟩ | ⟨⟨hseals⟩⟩
    · simpa using ih.grows (.flush hflush)
    · exact ih.sealed hseals
  | reopen _ hopen ih => exact ih.reopened hopen

/-- What holds of a new store, and is kept by the effect of a call, a seal and a reopen,
holds along every run. -/
theorem Run.invariant {P : Store → Prop}
    (hcreated : ∀ {config io s disk'}, openWith config ⟨.empty, {}⟩ io = (.ok s, disk') → P s)
    (heffect : ∀ {s s' history points}, Run s history → P s → Effect s s' points → P s')
    (hsealed : ∀ {s s' history io}, Run s history → P s → Seals s s' io → P s')
    (hreopened : ∀ {s s' history config io disk'}, Run s history → P s →
      openWith config s.disk io = (.ok s', disk') → P s') (h : Run s history) : P s := by
  induction h with
  | created hopen => exact hcreated hopen
  | commit hrun hcommit ih =>
    exact heffect hrun ih (commit_effect hrun.carries.reachable.sound hcommit)
  | append hrun happend ih =>
    exact heffect hrun ih (append_effect hrun.carries.reachable.sound happend)
  | flush hrun hflush ih => exact heffect hrun ih (flush_effect hflush)
  | maintain hrun hmaintain ih => exact heffect hrun ih (maintain_effect hmaintain)
  | sealAndReclaim hrun hseal ih =>
    rcases sealAndReclaim_eq_ok hseal with ⟨db, hflush, rfl⟩ | ⟨⟨hseals⟩⟩
    · exact heffect hrun ih (.kept (.flush hflush) fun _ => rfl)
    · exact hsealed hrun ih hseals
  | reopen hrun hopen ih => exact hreopened hrun ih hopen

/-- However a history is spread over the live index and the segments, and however
often it was read back: every query answers from the history alone. -/
theorem Run.answers_history (h : Run s history) : s.database.Answers history := h.carries.answers

/-- There are files that store the segments of a run.  Over any such files a query reads back
the committed points of its range, and a stream visits each of them once. -/
theorem Run.reads_files [Lz4] (h : Run s history) :
    (∃ files : OpenHistory, files.index = s.database.index ∧
      List.Forall₂ StoredSegment.Backs files.sealed s.database.sealed) ∧
    ∀ files : OpenHistory, files.index = s.database.index →
      List.Forall₂ StoredSegment.Backs files.sealed s.database.sealed →
      ∀ (seriesId : UInt64) (start stop : Int64),
        let committed := history.filter fun p => ofSeries seriesId p && inRange start stop p
        files.queryHistory seriesId start stop = .ok (stableSort byHistory committed) ∧
          ∃ visited : List Point, visited.Perm committed ∧
            files.visitHistory seriesId start stop id Visited.count Visited.keep {} =
              (.ok (), ⟨visited, files.work seriesId start stop⟩) := by
  constructor
  · obtain ⟨stored, hopened, hbacks⟩ := exists_backing h.carries.made
    exact ⟨⟨stored, s.database.index, hopened⟩, rfl, hbacks⟩
  · intro files hindex hsealed seriesId start stop committed
    have hquery := OpenHistory.queryHistory_backed hindex hsealed seriesId start stop
    rw [h.carries.answers.history] at hquery
    have hstreams := files.streams seriesId start stop
    rw [OpenHistory.Streams, hquery] at hstreams
    obtain ⟨visited, hperm, hvisit⟩ := hstreams
    exact ⟨hquery, visited, hperm.trans (stableSort_perm _ _), hvisit⟩

end Runs

/-- A gauge with a tier of seconds, whose raw points may go after ten microseconds: two
readings on the first day and one on the next. -/
def twoDays : Transaction where
  records := [.entity ⟨1, "site", "home", none, 0, none, ∅⟩,
    .series ⟨7, some 1, none, "load", "power", "W", .gauge, none,
      ⟨some 10, [⟨.fixedMicros 1000000, none⟩]⟩⟩,
    .points [.actual 7 0 ⟨0⟩, .actual 7 2000000 ⟨0⟩, .actual 7 86400000005 ⟨0⟩]]

/-- Two points that tie, sealed, and a third one behind them. -/
def sealedPair [Jiff] (s : Store) : Store :=
  ((s.append [.actual 7 100 ⟨1⟩, .actual 7 100 ⟨2⟩] {}).2.sealAndReclaim {}).2

/-- The sealed pair and a later point of the same time. -/
def sealedTie [Jiff] (s : Store) : Store := (s.sealedPair.append [.actual 7 100 ⟨3⟩] {}).2

set_option maxRecDepth 20000 in
/-- The last of three points that tie wins, although the first two are sealed and
the store was opened again. -/
theorem answers_history_sealedTie :
    letI := Jiff.withoutZones
    ∃ s history, Run s history ∧ s.database.sealedPoints = 2 ∧ history.length = 3 ∧
      s.database.queryLatest 7 0 200 = [.actual 7 100 ⟨3⟩] ∧ s.database.Answers history := by
  let _ := Jiff.withoutZones
  have hcomputed : (openWith {} ⟨.empty, {}⟩ {}).1.map (fun s =>
      ((s.append [.actual 7 100 ⟨1⟩, .actual 7 100 ⟨2⟩] {}).1.isOk &&
        ((s.append [.actual 7 100 ⟨1⟩, .actual 7 100 ⟨2⟩] {}).2.sealAndReclaim {}).1.isOk &&
        (s.sealedPair.append [.actual 7 100 ⟨3⟩] {}).1.isOk,
      (openWith {} s.sealedTie.disk {}).1.toOption.map fun s =>
        (s.database.sealedPoints, s.database.queryLatest 7 0 200))) =
      .ok (true, some (2, [.actual 7 100 ⟨3⟩])) := by
    decide +kernel
  obtain ⟨s₀, hcreated, hfacts⟩ := map_eq_ok.mp hcomputed
  simp only [Prod.mk.injEq, Bool.and_eq_true, Option.map_eq_some_iff] at hfacts
  obtain ⟨⟨⟨hfirst, hseal⟩, hlast⟩, s, hopen, hanswer⟩ := hfacts
  have hok : ∀ {α : Type} {x : Except Error α}, x.isOk = true → ∃ a, x = .ok a := by
    intro α x hx
    cases x with
    | error e => cases hx
    | ok a => exact ⟨a, rfl⟩
  obtain ⟨_, hfirst⟩ := hok hfirst
  obtain ⟨_, hseal⟩ := hok hseal
  obtain ⟨_, hlast⟩ := hok hlast
  have hopened : (openWith {} s₀.sealedTie.disk {}).1 = .ok s := by
    cases hresult : (openWith {} s₀.sealedTie.disk {}).1 with
    | error e =>
      rw [hresult] at hopen
      cases hopen
    | ok s' =>
      rw [hresult] at hopen
      rw [Option.some.inj hopen]
  have hrun := ((((Run.created (Prod.ext hcreated rfl)).append (Prod.ext hfirst rfl)).sealAndReclaim
    (Prod.ext hseal rfl)).append (Prod.ext hlast rfl)).reopen (Prod.ext hopened rfl)
  exact ⟨s, _, hrun, hanswer.1, rfl, hanswer.2, hrun.answers_history⟩

set_option maxRecDepth 20000 in
theorem reads_files_sealedPair :
    letI := Jiff.withoutZones
    letI := Lz4.runs
    let pair : List Point := [.actual 7 100 ⟨1⟩, .actual 7 100 ⟨2⟩]
    ∃ s, ∃ files : OpenHistory, Run s pair ∧ files.sealed.length = 1 ∧
      files.queryHistory 7 0 200 = .ok pair := by
  let _ := Jiff.withoutZones
  let _ := Lz4.runs
  intro pair
  have hcomputed : (do
      let s ← (openWith {} ⟨.empty, {}⟩ {}).1
      let _ ← (s.append pair {}).1
      let _ ← ((s.append pair {}).2.sealAndReclaim {}).1
      .ok s.sealedPair.database.sealed.length) = .ok 1 := by
    decide +kernel
  obtain ⟨s, hcreated, hcomputed⟩ := bind_eq_ok.mp hcomputed
  obtain ⟨_, happend, hcomputed⟩ := bind_eq_ok.mp hcomputed
  obtain ⟨_, hseal, hlength⟩ := bind_eq_ok.mp hcomputed
  have hrun : Run s.sealedPair pair := ((Run.created (Prod.ext hcreated rfl)).append
    (Prod.ext happend rfl)).sealAndReclaim (Prod.ext hseal rfl)
  obtain ⟨⟨files, hindex, hbacks⟩, hreads⟩ := hrun.reads_files
  exact ⟨_, files, hrun, hbacks.length_eq.trans (Except.ok.inj hlength),
    (hreads files hindex hbacks 7 0 200).1⟩

end Store

end Ftwdb
