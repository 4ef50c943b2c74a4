import Ftwdb.Storage.Query
import Ftwdb.Storage.Reclaim
import Ftwdb.Store.Manifest
import Ftwdb.Store.Rollup

/-!
# The store

`store.rs`: a directory with the log, the manifests, the rollup files and the
raw segments, and the operations over all of them.  Files of rollups and
segments are decoded content, or `none` where a file cannot be read; they never
change once they exist.  The names of new files end in a time stamp, which each
operation gets from outside, as it gets what the system does to its writes.

The cache of open rollup files is left out: it only keeps what the files hold.
-/

namespace Ftwdb

open Check Signed StableSort

/-! ## Directories -/

/-- A segment and the checksum of the bytes it was stored in. -/
structure SegmentFile where
  segment : Segment
  contentCrc32 : UInt32
deriving DecidableEq

/-- The rollup directory; a file without content cannot be opened. -/
abbrev RollupFiles := Std.ExtTreeMap String (Option (List GaugeBucket))

/-- The directory of sealed segments. -/
abbrev SegmentFiles := Std.ExtTreeMap String (Option SegmentFile)

/-- Everything in a store but its log. -/
structure Directory where
  manifests : Manifests := ∅
  rollups : RollupFiles := ∅
  segments : SegmentFiles := ∅
deriving DecidableEq

/-- A store that nobody has open. -/
structure Disk where
  log : File
  directory : Directory
deriving DecidableEq

/-- What the system does while files are collected.  A file that is `stuck`
cannot be removed. -/
structure GcIo where
  listManifestsFails : Bool := false
  stuckManifests : List UInt64 := []
  readFails : Bool := false
  listRollupsFails : Bool := false
  stuckRollups : List String := []
  listSegmentsFails : Bool := false
  stuckSegments : List String := []
deriving DecidableEq

/-- The test for a file name's extension. -/
def endsWith (name extension : String) : Bool := extension.toList.isSuffixOf name.toList

/-- The files with this extension that nothing refers to are removed. -/
def sweep {α : Type} (extension : String) (referenced stuck : List String)
    (files : Std.ExtTreeMap String α) : Std.ExtTreeMap String α :=
  files.filter fun name _ =>
    !endsWith name extension || decide (name ∈ referenced ∨ name ∈ stuck)

namespace Manifest

/-- The rollup files a manifest names. -/
def rollupFiles (m : Manifest) : List String := m.rollups.map RollupDescriptor.file

/-- The segment files a manifest names. -/
def segmentFiles (m : Manifest) : List String := m.segments.map RawSegmentDescriptor.file

/-- `published_seal_generations` -/
def publishedSeals (m : Manifest) : List UInt64 := m.segments.map RawSegmentDescriptor.generation

/-- Some rollup of the manifest is in use. -/
def hasActiveRollups (m : Manifest) : Bool := m.rollups.any RollupDescriptor.active

end Manifest

namespace Directory

/-- The second half of `remove_unreferenced_files`, behind the reading of the
retained manifests. -/
def sweepFiles (dir : Directory) (manifests : List Manifest) (io : GcIo) : Directory :=
  if io.listRollupsFails then dir
  else
    let dir := { dir with
      rollups :=
        sweep ".rseg" (manifests.flatMap Manifest.rollupFiles) io.stuckRollups dir.rollups }
    if io.listSegmentsFails then dir
    else { dir with
      segments := sweep ".wseg" (manifests.flatMap Manifest.segmentFiles) io.stuckSegments
        dir.segments }

/-- `remove_unreferenced_files`, for a store that runs on `loaded`. -/
def removeUnreferencedFiles (dir : Directory) (loaded : Manifest) (io : GcIo) : Directory :=
  if io.listManifestsFails then dir
  else
    let retained := dir.manifests.retained loaded.generation
    let dir := { dir with manifests := dir.manifests.prune loaded.generation io.stuckManifests }
    match Manifests.readAll retained with
    | .error _ => dir
    | .ok manifests => if io.readFails then dir else dir.sweepFiles (manifests ++ [loaded]) io

end Directory

/-! ## The handle -/

/-- `Store`: the log, the directory and the manifest last published. -/
structure Store where
  database : Database
  directory : Directory
  manifest : Manifest
  poisoned : Bool
  readOnly : Bool
  staleRollupFiles : Nat
  /-- The number of revisions of each gauge series at the last maintenance. -/
  materializedSeriesRevisions : Std.ExtTreeMap UInt64 Nat
  lastMaintainNow : Option Int64
deriving DecidableEq

/-- The next generation; the last one has no successor. -/
def nextGeneration (generation : UInt64) : UInt64 :=
  if generation = UInt64.ofNat (2 ^ 64 - 1) then generation else generation + 1

/-- `stats().points` -/
def Database.statPoints (db : Database) : UInt64 :=
  UInt64.ofNat (min (db.points + db.sealedPoints) (2 ^ 64 - 1))

/-- `stats().commits` -/
def Database.statCommits (db : Database) : UInt64 := UInt64.ofNat db.commits

namespace Store

/-- What is on disk. -/
def disk (s : Store) : Disk := ⟨s.database.file, s.directory⟩

/-- `ensure_healthy`: a poisoned store answers nothing. -/
def ensureHealthy (s : Store) : Except Error Unit := failIf (s.poisoned = true) Error.poisoned

/-- `ensure_writable`. -/
def ensureWritable (s : Store) : Except Error Unit := do
  failIf (s.readOnly = true) Error.readOnly
  s.ensureHealthy

/-- A call that changes the handle. -/
abbrev Result (α : Type) := Except Error α × Store

/-- `remove_unreferenced_files` under the current manifest. -/
def removeUnreferencedFiles (s : Store) (io : GcIo) : Store :=
  { s with directory := s.directory.removeUnreferencedFiles s.manifest io }

/-- What the system does while a generation is published. -/
structure PublishIo where
  link : Manifests.PublishIo := .done
  gc : GcIo := {}
deriving DecidableEq

/-- `publish_or_poison`: inactive rollups are dropped, a failure poisons. -/
def publishOrPoison (s : Store) (next : Manifest) (io : PublishIo) : Result Unit :=
  let next := { next with rollups := next.rollups.filter RollupDescriptor.active }
  match s.directory.manifests.publish next io.link with
  | (.error e, manifests) =>
    (.error e,
      { s with directory := { s.directory with manifests := manifests }, poisoned := true })
  | (.ok (), manifests) =>
    (.ok (), { s with
      directory := { s.directory with manifests := manifests }
      manifest := next }.removeUnreferencedFiles io.gc)

/-! ## Writing -/

/-- A rollup behind the points that were just written: it stays if none of them
can change it. -/
def advanceDescriptor (db : Database) (points : List Point) (d : RollupDescriptor) :
    RollupDescriptor :=
  if d.active then
    let gap := (db.catalog.series[d.seriesId]?.bind SeriesDefinition.maximumGapMicros).getD 0
    let affected := points.any fun p =>
      decide (p.seriesId = d.seriesId ∧ saturatingSub d.start gap ≤ p.validTime ∧
        p.validTime ≤ d.stop)
    if affected then { d with active := false }
    else { d with sourceCommit := db.statCommits, sourcePoints := db.statPoints }
  else d

/-- `advance_after_points`: every active rollup is moved to the new counters. -/
def advanceAfterPoints (s : Store) (points : List Point) (io : PublishIo) : Result Unit :=
  if s.manifest.hasActiveRollups then
    s.publishOrPoison { s.manifest with
      generation := nextGeneration s.manifest.generation
      rollups := s.manifest.rollups.map (advanceDescriptor s.database points) } io
  else (.ok (), s)

/-- What the system does to a commit: to its frame, to the flush of a frame that
is not durable yet, to the reading of the file's length and to the manifest. -/
structure CommitIo where
  frame : Io := {}
  flush : Io := {}
  statsFails : Bool := false
  publish : PublishIo := {}
deriving DecidableEq

/-- The part of `commit` and `append` behind the raw frame. -/
def afterFrame (s : Store) (commit : Commit) (points : List Point) (io : CommitIo) :
    Result Commit :=
  if points ≠ [] ∧ s.manifest.hasActiveRollups then
    match (if commit.durable then (.ok (), s.database) else s.database.flush io.flush) with
    | (.error e, db) => (.error e, { s with database := db })
    | (.ok (), db) =>
      if io.statsFails then (.error .io, { s with database := db })
      else
        match advanceAfterPoints { s with database := db } points io.publish with
        | (.error e, s) => (.error e, s)
        | (.ok (), s) => (.ok { commit with durable := true }, s)
  else (.ok commit, s)

variable [Jiff]

/-- `Store::commit`. -/
def commit (s : Store) (t : Transaction) (io : CommitIo) : Result Commit :=
  match s.ensureWritable with
  | .error e => (.error e, s)
  | .ok () =>
    let points := if s.manifest.hasActiveRollups then t.records.flatMap Record.pointList else []
    match s.database.commit t io.frame with
    | (.error e, db) => (.error e, { s with database := db })
    | (.ok commit, db) =>
      if commit.deduplicated then (.ok commit, { s with database := db })
      else afterFrame { s with database := db } commit points io

/-- `Store::commit_ingress`. -/
def commitIngress (s : Store) (identity : IngressIdentity) (t : Transaction) (io : CommitIo) :
    Result Commit := s.commit (t.withIngressIdentity identity) io

/-- `Store::append`. -/
def append (s : Store) (points : List Point) (io : CommitIo) : Result Commit :=
  match s.ensureWritable with
  | .error e => (.error e, s)
  | .ok () =>
    match s.database.append points io.frame with
    | (.error e, db) => (.error e, { s with database := db })
    | (.ok commit, db) => afterFrame { s with database := db } commit points io

/-- `Store::flush`. -/
def flush (s : Store) (io : Io) : Result Unit :=
  match s.ensureWritable with
  | .error e => (.error e, s)
  | .ok () =>
    let (result, db) := s.database.flush io
    (result, { s with database := db })

/-! ## Opening -/

/-- `verify_raw_segment_descriptor`. -/
def verifyRawSegmentDescriptor (f : SegmentFile) (d : RawSegmentDescriptor) : Except Error Unit :=
  failIf (f.segment.pointCount ≠ d.points.toNat ∨
      f.segment.validBounds ≠ some (d.minValidTime, d.maxValidTime) ∨
      f.contentCrc32 ≠ d.contentCrc32)
    (Error.corruption 0 ("raw segment " ++ d.file ++
      " does not match its manifest count, time bounds, or content checksum"))

/-- The segments a manifest names, each checked against its descriptor. -/
def publishedSegments (files : SegmentFiles) (segments : List RawSegmentDescriptor) :
    Except Error (List Segment) :=
  segments.mapM fun d =>
    match files[d.file]? with
    | some (some f) => (verifyRawSegmentDescriptor f d).map fun _ => f.segment
    | _ => .error (.corruption 0 ("raw segment " ++ d.file ++ " is unreadable"))

/-- `attach_published_segments`. -/
def attachPublishedSegments (s : Store) : Result Unit :=
  match publishedSegments s.directory.segments s.manifest.segments with
  | .error e => (.error e, s)
  | .ok segments => (.ok (), { s with database := s.database.attachSealedSegments segments })

/-- `RollupSegment::open`, without the reason why a file cannot be read. -/
def openRollup (files : RollupFiles) (file : String) : Except Error (List GaugeBucket) :=
  match files[file]? with
  | some (some buckets) => .ok buckets
  | some none => .error (.corruption 0 "rollup segment is unreadable")
  | none => .error .io

/-- The checks on one rollup: it is not ahead of the raw points, and its file
exists and lies within its bounds. -/
def verifyDescriptor (points : UInt64) (files : RollupFiles) (d : RollupDescriptor) :
    Except Error Unit :=
  if d.active then do
    failIf (points < d.sourcePoints)
      (Error.corruption 0 ("rollup " ++ d.file ++ " is ahead of its raw source"))
    let buckets ← openRollup files d.file
    failIf (buckets.head?.all (fun b => decide (b.start < d.start)) ∨
        buckets.getLast?.all (fun b => decide (d.stop < b.stop)))
      (Error.corruption 0 ("rollup " ++ d.file ++ " bounds do not match manifest"))
  else .ok ()

/-- An active rollup that has not seen all points. -/
def isStale (points : UInt64) (d : RollupDescriptor) : Bool :=
  d.active && decide (d.sourcePoints < points)

/-- `verify_and_reconcile_manifest`: stale rollups are taken out of use. -/
def verifyAndReconcileManifest (s : Store) (io : PublishIo) : Result Unit :=
  let points := s.database.statPoints
  match each (verifyDescriptor points s.directory.rollups) s.manifest.rollups with
  | .error e => (.error e, s)
  | .ok () =>
    if s.manifest.rollups.any (isStale points) then
      s.publishOrPoison { s.manifest with
        generation := nextGeneration s.manifest.generation
        rollups := s.manifest.rollups.map fun d =>
          if isStale points d then { d with active := false } else d } io
    else (.ok (), s)

/-- A fresh handle over an opened log. -/
def ofDatabase (database : Database) (directory : Directory) (manifest : Manifest)
    (readOnly : Bool) : Store where
  database := database
  directory := directory
  manifest := manifest
  poisoned := false
  readOnly := readOnly
  staleRollupFiles := 0
  materializedSeriesRevisions := ∅
  lastMaintainNow := none

/-- What the system does to a writable open. -/
structure OpenIo where
  log : Ftwdb.OpenIo := {}
  statsFails : Bool := false
  publish : PublishIo := {}
  gc : GcIo := {}
  /-- The order in which the live series are written. -/
  order : List UInt64 := []
  reclaim : Database.ReclaimIo := {}
deriving DecidableEq

/-- The steps of an open behind the log: the store as it is left, also by an error. -/
def finishOpen (s : Store) (io : OpenIo) : Result Unit :=
  match s.attachPublishedSegments with
  | (.error e, s) => (.error e, s)
  | (.ok (), s) =>
    if io.statsFails then (.error .io, s)
    else
      match s.verifyAndReconcileManifest io.publish with
      | (.error e, s) => (.error e, s)
      | (.ok (), s) =>
        let s := s.removeUnreferencedFiles io.gc
        if s.database.pendingReclaim then
          let (result, db) := s.database.reclaimLiveLog io.order io.reclaim
          (result, { s with database := db })
        else (.ok (), s)

/-- `open_with`: the store or the error, and what is on disk behind it. -/
def openWith (config : Config) (disk : Disk) (io : OpenIo) : Except Error Store × Disk :=
  match disk.directory.manifests.load with
  | .error e => (.error e, disk)
  | .ok manifest =>
    match Database.openMode config false manifest.publishedSeals disk.log io.log with
    | (.error e, log) => (.error e, { disk with log := log })
    | (.ok db, _) =>
      match finishOpen (ofDatabase db disk.directory manifest false) io with
      | (.error e, s) => (.error e, s.disk)
      | (.ok (), s) => (.ok s, s.disk)

/-- `verify_manifest_read_only`: stale rollups are only counted. -/
def verifyManifestReadOnly (s : Store) : Except Error Store := do
  let points := s.database.statPoints
  each (verifyDescriptor points s.directory.rollups) s.manifest.rollups
  .ok { s with staleRollupFiles := (s.manifest.rollups.filter (isStale points)).length }

/-- `open_read_only`, which always uses the default configuration. -/
def openReadOnly (disk : Disk) : Except Error Store := do
  let manifest ← disk.directory.manifests.load
  let db ← (Database.openMode {} true manifest.publishedSeals disk.log {}).1
  match (ofDatabase db disk.directory manifest true).attachPublishedSegments with
  | (.error e, _) => .error e
  | (.ok (), s) => s.verifyManifestReadOnly

/-! ## Sealing -/

/-- `raw_segment_file_name` -/
def rawSegmentFileName (generation : UInt64) (nonce : Nat) : String :=
  "g" ++ toString generation.toNat ++ "-" ++ toString nonce ++ ".wseg"

/-- `SEAL_BLOCK_POINTS`. -/
def sealBlockPoints : Nat := 16384

/-- What the system does to a seal. -/
structure SealIo where
  flush : Io := {}
  statsFails : Bool := false
  order : List UInt64 := []
  nonce : Nat := 0
  /-- Writing the segment or reading it back fails; in the second case it stays. -/
  createFails : Bool := false
  rereadFails : Bool := false
  contentCrc32 : UInt32 := 0
  checkpoint : Io := {}
  checkpointFlush : Io := {}
  publish : PublishIo := {}
  /-- The order in which the second pass sees the series. -/
  reclaimOrder : List UInt64 := []
  reclaim : Database.ReclaimIo := {}
deriving DecidableEq

/-- The earliest valid time of the points. -/
def minTime (first : Point) (rest : List Point) : Int64 :=
  rest.foldl (fun t p => if p.validTime < t then p.validTime else t) first.validTime

/-- The latest valid time of the points. -/
def maxTime (first : Point) (rest : List Point) : Int64 :=
  rest.foldl (fun t p => if t < p.validTime then p.validTime else t) first.validTime

/-- `Segment::create` of the live points under its new name. -/
def createSegment (s : Store) (live : List Point) (io : SealIo) : Except Error Segment × Store :=
  let file := rawSegmentFileName (nextGeneration s.manifest.generation) io.nonce
  if file ∈ s.directory.segments then (.error .io, s)
  else
    match Segment.create live sealBlockPoints with
    | .error e => (.error e, s)
    | .ok segment =>
      if io.createFails then (.error .io, s)
      else
        let s := { s with directory := { s.directory with
          segments := s.directory.segments.insert file (some ⟨segment, io.contentCrc32⟩) } }
        if io.rereadFails then (.error .io, s) else (.ok segment, s)

/-- The manifest with the new segment. -/
def sealedManifest (s : Store) (segment : Segment) (first : Point) (rest : List Point)
    (points commits : UInt64) (io : SealIo) : Manifest :=
  let generation := nextGeneration s.manifest.generation
  { s.manifest with
    generation := generation
    segments := s.manifest.segments ++ [{
      file := rawSegmentFileName generation io.nonce
      generation := generation
      points := UInt64.ofNat segment.pointCount
      sourceCommit := commits
      sourcePoints := points
      minValidTime := minTime first rest
      maxValidTime := maxTime first rest
      contentCrc32 := io.contentCrc32 }] }

/-- The last part of a seal: the published segment is attached and the live
points leave the handle and the log. -/
def reclaimSealed (s : Store) (io : SealIo) : Result Unit :=
  match s.attachPublishedSegments with
  | (.error e, s) => (.error e, s)
  | (.ok (), s) =>
    let (result, db) := s.database.clearLiveIndex.reclaimLiveLog io.reclaimOrder io.reclaim
    (result, { s with database := db })

/-- `SealReport`. -/
structure SealReport where
  manifestGeneration : UInt64
  segmentFile : String
  sealedPoints : Nat
  livePoints : Nat
  logBytes : Nat
deriving DecidableEq

/-- Behind the segment file: the checkpoint in the log and the new manifest. -/
def publishSealed (s : Store) (segment : Segment) (first : Point) (rest : List Point)
    (points commits : UInt64) (io : SealIo) : Result Unit :=
  let generation := nextGeneration s.manifest.generation
  match s.database.writeSealCheckpoint generation (UInt64.ofNat (first :: rest).length)
      io.checkpoint io.checkpointFlush with
  | (.error e, db) => (.error e, { s with database := db })
  | (.ok (), db) =>
    let s := { s with database := db }
    s.publishOrPoison (s.sealedManifest segment first rest points commits io) io.publish

/-- `live_index_len` -/
def liveIndexLen (s : Store) : Nat :=
  (s.database.index.toList.map fun (_, points) => points.length).sum

/-- `seal_and_reclaim`: flush, write the segment, checkpoint, publish, compact the
log. -/
def sealAndReclaim (s : Store) (io : SealIo) : Result SealReport :=
  match s.ensureWritable with
  | .error e => (.error e, s)
  | .ok () =>
    match s.database.flush io.flush with
    | (.error e, db) => (.error e, { s with database := db })
    | (.ok (), db) =>
      let s := { s with database := db }
      if io.statsFails then (.error .io, s)
      else
        match Database.livePointsSnapshot db.index io.order with
        | [] => (.ok ⟨s.manifest.generation, "", 0, 0, db.file.length⟩, s)
        | first :: rest =>
          let file := rawSegmentFileName (nextGeneration s.manifest.generation) io.nonce
          match s.createSegment (first :: rest) io with
          | (.error e, s) => (.error e, s)
          | (.ok segment, s) =>
            match s.publishSealed segment first rest db.statPoints db.statCommits io with
            | (.error e, s) => (.error e, s)
            | (.ok (), s) =>
              match s.reclaimSealed io with
              | (.error e, s) => (.error e, s)
              | (.ok (), s) =>
                (.ok ⟨s.manifest.generation, file, segment.pointCount, s.liveIndexLen,
                  s.database.file.length⟩, s)

end Store

end Ftwdb
