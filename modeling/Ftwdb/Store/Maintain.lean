import Ftwdb.Store.Store

/-!
# Maintenance and gauge queries

`maintain` materializes the completed shards of every gauge series and
publishes one generation if anything changed; `query_gauge` answers from the
current rollup files as far as they cover the range, and from raw points
elsewhere.
-/

namespace Ftwdb

open Check Signed StableSort

namespace Store

/-- `rollup_file_name` -/
def rollupFileName (generation seriesId : UInt64) (ordinal : Nat) (resolution : RollupResolution)
    (nonce : Nat) : String :=
  let tag := match resolution with
    | .fixedMicros micros => "f" ++ toString micros.toInt
    | .calendar .day _ => "cDay"
    | .calendar .month _ => "cMonth"
    | .calendar .year _ => "cYear"
  "g" ++ toString generation.toNat ++ "-s" ++ toString seriesId.toNat ++ "-" ++ tag ++ "-" ++
    toString ordinal ++ "-" ++ toString nonce ++ ".rseg"

/-- An active rollup of this series and resolution. -/
def isActiveOf (seriesId : UInt64) (resolution : RollupResolution) (d : RollupDescriptor) : Bool :=
  d.active && decide (d.seriesId = seriesId ∧ d.resolution = resolution)

/-- `ranges_overlap`, of half-open ranges. -/
def rangesOverlap (leftStart leftStop rightStart rightStop : Int64) : Bool :=
  decide (leftStart < rightStop ∧ rightStart < leftStop)

/-! ## Retention -/

/-- Where the rollups of a tier expire. -/
def retentionCutoff (tier : RollupTier) (now : Int64) : Option Int64 :=
  tier.retainForMicros.map (saturatingSub now)

/-- A rollup of the tier that has expired. -/
def isExpired (seriesId : UInt64) (tier : RollupTier) (now : Int64) (d : RollupDescriptor) : Bool :=
  isActiveOf seriesId tier.resolution d &&
    (retentionCutoff tier now).any fun cutoff => decide (d.stop < cutoff)

/-- `has_retention_work`: some active rollup is past its tier's retention. -/
def hasRetentionWork (m : Manifest) (definitions : List SeriesDefinition) (now : Int64) : Bool :=
  definitions.any fun definition =>
    decide (definition.semantics = .gauge) && definition.rollupPolicy.tiers.any fun tier =>
      m.rollups.any (isExpired definition.id tier now)

/-- One tier of `deactivate_expired_rollups`. -/
def deactivateTier (definition : SeriesDefinition) (now : Int64) (rollups : List RollupDescriptor)
    (tier : RollupTier) : List RollupDescriptor :=
  rollups.map fun d => if isExpired definition.id tier now d then { d with active := false } else d

/-- `deactivate_expired_rollups`, tier by tier. -/
def deactivateExpiredRollups (definition : SeriesDefinition) (now : Int64)
    (rollups : List RollupDescriptor) : List RollupDescriptor :=
  definition.rollupPolicy.tiers.foldl (deactivateTier definition now) rollups

/-! ## What can be skipped -/

/-- `stamp_active_series_source`: the rollups of a series take the current counters. -/
def stampActiveSeriesSource (seriesId commits points : UInt64) (rollups : List RollupDescriptor) :
    List RollupDescriptor :=
  rollups.map fun d =>
    if d.active && decide (d.seriesId = seriesId) then
      { d with sourceCommit := commits, sourcePoints := points }
    else d

variable [Jiff]

/-- `needed_completed_shards`; `none` takes every active rollup as current. -/
def neededCompletedShards (seriesId : UInt64) (resolution : RollupResolution)
    (earliest latest now : Int64) (rollups : List RollupDescriptor) (points : Option UInt64) :
    Except Error (List ShardBounds) :=
  let current := rollups.filter fun d =>
    isActiveOf seriesId resolution d && points.all fun points => decide (d.sourcePoints = points)
  neededShards resolution earliest latest now (current.map fun d => ⟨d.start, d.stop⟩)

/-- `series_gained_completed_shard` between two runs. -/
def seriesGainedCompletedShard (definition : SeriesDefinition) (previousNow now : Int64) :
    Except Error Bool :=
  if now ≤ previousNow then .ok false
  else
    definition.rollupPolicy.tiers.foldlM (fun gained tier =>
      if gained then .ok true
      else do
        let current ← latestCompletedShardEnd now tier.resolution
        let previous ← latestCompletedShardEnd previousNow tier.resolution
        .ok (decide (previous < current))) false

/-- `series_has_missing_completed_shard`: a tier lacks a finished shard. -/
def seriesHasMissingCompletedShard (definition : SeriesDefinition)
    (bounds : Option (Int64 × Int64)) (now : Int64) (rollups : List RollupDescriptor) :
    Except Error Bool :=
  match bounds with
  | none => .ok false
  | some (earliest, latest) =>
    definition.rollupPolicy.tiers.foldlM (fun missing tier =>
      if missing then .ok true
      else (neededCompletedShards definition.id tier.resolution earliest latest now rollups
        none).map fun needed => decide (needed ≠ [])) false

/-- Whether nothing was written to the series since the last maintenance and no
shard has been completed since. -/
def unchangedSince (s : Store) (definition : SeriesDefinition) (now : Int64) : Except Error Bool :=
  let known := s.materializedSeriesRevisions[definition.id]? =
    some (s.database.seriesRevisionCount definition.id)
  match s.lastMaintainNow with
  | some previousNow =>
    if known then (seriesGainedCompletedShard definition previousNow now).map (!·) else .ok false
  | none => .ok false

/-- `can_skip_series_latest_query`: no new revision and no shard to build. -/
def canSkipSeriesLatestQuery (s : Store) (definition : SeriesDefinition) (now : Int64)
    (rollups : List RollupDescriptor) : Except Error Bool := do
  let unchanged ← s.unchangedSince definition now
  if unchanged then .ok true
  else (seriesHasMissingCompletedShard definition (s.database.seriesValidBounds definition.id) now
    rollups).map (!·)

/-- The gauge series, in the order of the catalog. -/
def gauges (s : Store) : List SeriesDefinition :=
  (s.database.catalog.series.toList.map Prod.snd).filter fun d => decide (d.semantics = .gauge)

/-- `can_skip_maintain_scan`: no series needs work. -/
def canSkipMaintainScan (s : Store) (now : Int64) : Except Error Bool :=
  if s.manifest.rollups.any fun d =>
      d.active && decide (d.sourcePoints ≠ s.database.statPoints) then
    .ok false
  else if hasRetentionWork s.manifest s.gauges now then .ok false
  else
    s.gauges.foldlM (fun skip definition =>
      if skip then s.canSkipSeriesLatestQuery definition now s.manifest.rollups else .ok false) true

/-! ## Maintenance -/

/-- What the system does to a maintenance: the time stamps of new files, and which
of them cannot be created; a file whose creation fails late exists. -/
structure MaintainIo where
  flush : Io := {}
  statsFails : Bool := false
  nonce : Nat → Nat := fun _ => 0
  createFails : Nat → Bool := fun _ => false
  createFailsLate : Nat → Bool := fun _ => false
  publish : PublishIo := {}

/-- The manifest under construction and the files written so far. -/
structure Work where
  rollups : List RollupDescriptor
  files : RollupFiles
  filesWritten : Nat
  bucketsWritten : Nat
  changed : Bool

/-- An error leaves the files that were written before. -/
abbrev Built := Except (Error × RollupFiles) Work

/-- The error of a step that writes no file. -/
def Work.lift {α : Type} (w : Work) (x : Except Error α) : Except (Error × RollupFiles) α :=
  x.mapError fun e => (e, w.files)

/-- `RollupSegment::create` under its new name. -/
def Work.create (w : Work) (file : String) (buckets : List GaugeBucket) (io : MaintainIo) :
    Except (Error × RollupFiles) RollupFiles := do
  w.lift (checkRollup buckets)
  failIf (file ∈ w.files ∨ io.createFails w.filesWritten = true) (Error.io, w.files)
  let files := w.files.insert file (some buckets)
  failIf (io.createFailsLate w.filesWritten = true) (Error.io, files)
  .ok files

/-- One shard: nothing if it is current, else a new file in place of all that overlap. -/
def writeShard (s : Store) (seriesId : UInt64) (resolution : RollupResolution) (io : MaintainIo)
    (w : Work) (shard : RollupShard) : Built :=
  let points := s.database.statPoints
  if w.rollups.any fun d => isActiveOf seriesId resolution d &&
      decide (d.start = shard.start ∧ d.stop = shard.stop ∧ d.sourcePoints = points) then .ok w
  else do
    let file := rollupFileName (nextGeneration s.manifest.generation) seriesId w.filesWritten
      resolution (io.nonce w.filesWritten)
    let files ← w.create file shard.buckets io
    let replaced := w.rollups.map fun d =>
      if isActiveOf seriesId resolution d &&
          rangesOverlap d.start d.stop shard.start shard.stop then
        { d with active := false }
      else d
    .ok {
      rollups := replaced ++ [{
        file := file
        seriesId := seriesId
        resolution := resolution
        start := shard.start
        stop := shard.stop
        sourceCommit := s.database.statCommits
        sourcePoints := points
        active := true }]
      files := files
      filesWritten := w.filesWritten + 1
      bucketsWritten := w.bucketsWritten + shard.buckets.length
      changed := true }

/-- The least start and the greatest end of some shards, with defaults for none. -/
def shardSpan (needed : List ShardBounds) : Option (Int64 × Int64) :=
  match needed with
  | [] => none
  | first :: rest => some (
      rest.foldl (fun t shard => if shard.start < t then shard.start else t) first.start,
      rest.foldl (fun t shard => if t < shard.stop then shard.stop else t) first.stop)

/-- The shards of one tier, rebuilt from raw points. -/
def rebuiltShards (s : Store) (definition : SeriesDefinition) (resolution : RollupResolution)
    (now : Int64) (needed : List ShardBounds) (span : Int64 × Int64) :
    Except Error (List RollupShard) := do
  let maxGap := definition.maximumGapMicros.getD 0
  let points := s.database.queryLatest definition.id (saturatingSub span.1 maxGap)
    (saturatingAdd span.2 (if 1 ≤ maxGap then maxGap else 1))
  let buckets ← materialize points resolution maxGap
  let shards ← rollupShards (buckets.filter fun b => decide (b.stop ≤ now)) resolution now
  .ok (shards.filter fun shard => decide (shard.toShardBounds ∈ needed))

/-- One tier of a series: its missing shards are materialized. -/
def maintainTier (s : Store) (definition : SeriesDefinition) (bounds : Int64 × Int64) (now : Int64)
    (io : MaintainIo) (w : Work) (tier : RollupTier) : Built := do
  let needed ← w.lift (neededCompletedShards definition.id tier.resolution bounds.1 bounds.2 now
    w.rollups (some s.database.statPoints))
  let needed := needed.filter fun shard =>
    (retentionCutoff tier now).all fun cutoff => decide (cutoff ≤ shard.stop)
  match shardSpan needed with
  | none => .ok w
  | some span => do
      let shards ← w.lift (s.rebuiltShards definition tier.resolution now needed span)
      shards.foldlM (s.writeShard definition.id tier.resolution io) w

/-- One series: expired rollups go, then each tier is brought up to date. -/
def maintainSeries (s : Store) (now : Int64) (io : MaintainIo) (w : Work)
    (definition : SeriesDefinition) : Built := do
  let kept := deactivateExpiredRollups definition now w.rollups
  let w := { w with rollups := kept, changed := w.changed || decide (kept ≠ w.rollups) }
  let skip ← w.lift (s.canSkipSeriesLatestQuery definition now w.rollups)
  if skip then
    let stamped := stampActiveSeriesSource definition.id s.database.statCommits
      s.database.statPoints w.rollups
    .ok { w with rollups := stamped, changed := w.changed || decide (stamped ≠ w.rollups) }
  else
    match s.database.seriesValidBounds definition.id with
    | none => .ok w
    | some bounds =>
      definition.rollupPolicy.tiers.foldlM (s.maintainTier definition bounds now io) w

/-- `remember_materialized_revisions`. -/
def rememberMaterializedRevisions (s : Store) (now : Int64) : Store :=
  { s with
    materializedSeriesRevisions := s.gauges.foldl
      (fun m d => m.insert d.id (s.database.seriesRevisionCount d.id)) ∅
    lastMaintainNow := some now }

/-- `MaintenanceReport`. -/
structure MaintenanceReport where
  manifestGeneration : UInt64
  rollupFilesWritten : Nat
  rollupBucketsWritten : Nat
deriving DecidableEq

/-- The part of `maintain` behind the loop over the series. -/
def finishMaintain (s : Store) (now : Int64) (io : MaintainIo) (w : Work) :
    Result MaintenanceReport :=
  let s := { s with directory := { s.directory with rollups := w.files } }
  let published : Result Unit := if w.changed then
      s.publishOrPoison { s.manifest with
        generation := nextGeneration s.manifest.generation
        rollups := w.rollups } io.publish
    else (.ok (), s)
  match published with
  | (.error e, s) => (.error e, s)
  | (.ok (), s) =>
    (.ok ⟨s.manifest.generation, w.filesWritten, w.bucketsWritten⟩,
      s.rememberMaterializedRevisions now)

/-- `maintain`: flush, rebuild what is missing, publish if anything changed. -/
def maintain (s : Store) (now : Int64) (io : MaintainIo) : Result MaintenanceReport :=
  match s.ensureWritable with
  | .error e => (.error e, s)
  | .ok () =>
    match s.database.flush io.flush with
    | (.error e, db) => (.error e, { s with database := db })
    | (.ok (), db) =>
      let s := { s with database := db }
      if io.statsFails then (.error .io, s)
      else
        match s.canSkipMaintainScan now with
        | .error e => (.error e, s)
        | .ok true =>
          (.ok ⟨s.manifest.generation, 0, 0⟩, s.rememberMaterializedRevisions now)
        | .ok false =>
          match s.gauges.foldlM (s.maintainSeries now io)
              ⟨s.manifest.rollups, s.directory.rollups, 0, 0, false⟩ with
          | .error (e, files) =>
            (.error e, { s with directory := { s.directory with rollups := files } })
          | .ok w => s.finishMaintain now io w

/-! ## Gauge queries -/

/-- `CoveragePlan`: the rollups to read and the ranges they leave. -/
structure CoveragePlan where
  descriptors : List RollupDescriptor
  gaps : List (Int64 × Int64)

/-- `max_by_key` of the ends, which takes the last one among equals. -/
def furthest : List RollupDescriptor → Option RollupDescriptor
  | [] => none
  | d :: rest =>
    match furthest rest with
    | some best => if best.stop < d.stop then some d else some best
    | none => some d

/-- The end of a gap: the next rollup, or the end of the range. -/
def gapEnd (candidates : List RollupDescriptor) (cursor stop : Int64) : Int64 :=
  candidates.foldl (fun t d => if cursor < d.start ∧ d.start < t then d.start else t) stop

/-- The walk of `coverage_plan`.  Each round advances the cursor. -/
def coverFrom (candidates : List RollupDescriptor) (stop : Int64) : Nat → Int64 → CoveragePlan
  | 0, _ => ⟨[], []⟩
  | fuel + 1, cursor =>
    if cursor < stop then
      match furthest (candidates.filter fun d => decide (d.start ≤ cursor ∧ cursor < d.stop)) with
      | some d =>
        let plan := coverFrom candidates stop fuel (if d.stop ≤ stop then d.stop else stop)
        { plan with descriptors := d :: plan.descriptors }
      | none =>
        let next := gapEnd candidates cursor stop
        let plan := coverFrom candidates stop fuel next
        { plan with gaps := (cursor, next) :: plan.gaps }
    else ⟨[], []⟩

/-- The order of the candidates. -/
def byBounds (a b : RollupDescriptor) : Bool :=
  lex (fun a b => decide (a.start ≤ b.start)) (fun a b => decide (a.stop ≤ b.stop)) a b

/-- `coverage_plan`: candidates in order of their bounds, taken greedily. -/
def coveragePlan (candidates : List RollupDescriptor) (start stop : Int64) : CoveragePlan :=
  coverFrom (stableSort byBounds candidates) stop (stop.toInt - start.toInt).toNat start

/-- The buckets that touch the range, as one interval. -/
def queryEnvelope (start stop : Int64) (resolution : RollupResolution) :
    Except Error (Int64 × Int64) :=
  let last := saturatingSub stop 1
  match resolution with
  | .fixedMicros micros =>
    if micros ≤ 0 then .error (.invalidModel "fixed rollup resolution must be positive")
    else .ok (alignDown start micros, saturatingAdd (alignDown last micros) micros)
  | .calendar unit zone => do
      let first ← calendarBucketBounds start unit zone
      let last ← calendarBucketBounds last unit zone
      .ok (first.1, last.2)

/-- `materialize_raw_range`: the points around a range, rolled up and cut to it. -/
def materializeRawRange (s : Store) (seriesId : UInt64) (start stop : Int64)
    (resolution : RollupResolution) (maxGap : Int64) : Except Error (List GaugeBucket) := do
  let points := s.database.queryLatest seriesId (saturatingSub start maxGap)
    (saturatingAdd stop (if 1 ≤ maxGap then maxGap else 1))
  let buckets ← materialize points resolution maxGap
  .ok (buckets.filter fun b => decide (start ≤ b.start ∧ b.stop ≤ stop))

/-- `cached_rollup_buckets`, which reads the files it does not have. -/
def rollupBuckets (s : Store) (descriptors : List RollupDescriptor) (start stop : Int64) :
    Except Error (List GaugeBucket) :=
  (descriptors.mapM fun d =>
    (openRollup s.directory.rollups d.file).map fun buckets => queryRollup buckets start stop).map
      List.flatten

/-- `RollupSource`: where the buckets of an answer come from. -/
inductive RollupSource where
  | materialized
  | hybrid
  | raw
deriving DecidableEq

/-- `RollupQuery`. -/
structure RollupQuery where
  buckets : List GaugeBucket
  source : RollupSource
  manifestGeneration : UInt64
deriving DecidableEq

/-- The current rollups that touch the range. -/
def candidates (s : Store) (seriesId : UInt64) (resolution : RollupResolution)
    (range : Int64 × Int64) : List RollupDescriptor :=
  s.manifest.rollups.filter fun d =>
    isActiveOf seriesId resolution d && decide (d.sourcePoints = s.database.statPoints) &&
      rangesOverlap d.start d.stop range.1 range.2

/-- `query_gauge`: materialized where possible, from raw points elsewhere. -/
def queryGauge (s : Store) (seriesId : UInt64) (start stop : Int64)
    (resolution : RollupResolution) : Except Error RollupQuery := do
  s.ensureHealthy
  failIf (stop ≤ start) (Error.invalidModel "rollup query range must have positive duration")
  let definition ← (s.database.catalog.series[seriesId]?).elim
    (.error (.invalidModel ("undefined series " ++ toString seriesId.toNat))) .ok
  failIf (definition.semantics ≠ .gauge)
    (Error.invalidModel ("series " ++ toString seriesId.toNat ++ " is not a gauge"))
  let range ← queryEnvelope start stop resolution
  let maxGap := definition.maximumGapMicros.getD 0
  let plan := coveragePlan (s.candidates seriesId resolution range) range.1 range.2
  if plan.descriptors ≠ [] then
    let covered ← s.rollupBuckets plan.descriptors start stop
    let gaps ← plan.gaps.mapM fun gap =>
      s.materializeRawRange seriesId gap.1 gap.2 resolution maxGap
    .ok {
      buckets := stableSort (fun a b => decide (a.start ≤ b.start)) (covered ++ gaps.flatten)
      source := if plan.gaps = [] then .materialized else .hybrid
      manifestGeneration := s.manifest.generation }
  else
    let buckets ← s.materializeRawRange seriesId range.1 range.2 resolution maxGap
    .ok ⟨buckets, .raw, s.manifest.generation⟩

end Store

end Ftwdb
