import Ftwdb.Lib.Signed
import Ftwdb.Lib.Check
import Ftwdb.Model.Catalog
import Ftwdb.Model.Order

/-!
# Rollups

The buckets of `rollup.rs`, the files of `rollup_segment.rs` at the level of
their buckets, and the arithmetic of shards and coverage in `store.rs`.  The
numbers in a bucket are exact rationals in place of doubles; times are 64-bit
numbers, and the products that the source leaves unchecked wrap around.

A rollup of fixed width and one by calendar units differ only in how the bucket
of an instant is found, so both are `build` over a `BucketRule`.
-/

namespace Ftwdb

open Check Signed StableSort

/-! ## Buckets -/

/-- A sample with its exact value. -/
structure Sample where
  timestamp : Int64
  value : ℚ
deriving DecidableEq

/-- `GaugeBucket`, over exact values. -/
structure GaugeBucket where
  start : Int64
  stop : Int64
  count : UInt64
  sum : ℚ
  min : Option ℚ
  max : Option ℚ
  first : Option Sample
  last : Option Sample
  integralValueMicros : ℚ
  coveredMicros : Int64
deriving DecidableEq

namespace GaugeBucket

/-- A bucket that has seen nothing. -/
def empty (start stop : Int64) : GaugeBucket :=
  ⟨start, stop, 0, 0, none, none, none, none, 0, 0⟩

/-- `add_sample`. -/
def addSample (b : GaugeBucket) (s : Sample) : GaugeBucket :=
  { b with
    count := b.count + 1
    sum := b.sum + s.value
    min := some (b.min.elim s.value (· ⊓ s.value))
    max := some (b.max.elim s.value (· ⊔ s.value))
    first := some (b.first.getD s)
    last := some s }

/-- `add_covered_interval`: a value held for some time. -/
def addCoveredInterval (b : GaugeBucket) (value : ℚ) (duration : Int64) : GaugeBucket :=
  { b with
    integralValueMicros := b.integralValueMicros + value * duration.toInt
    coveredMicros := b.coveredMicros + duration
    min := some (b.min.elim value (· ⊓ value))
    max := some (b.max.elim value (· ⊔ value)) }

/-- `option_min`: of two values the least, of one that one. -/
def optionMin : Option ℚ → Option ℚ → Option ℚ := Option.merge (· ⊓ ·)

/-- `option_max` -/
def optionMax : Option ℚ → Option ℚ → Option ℚ := Option.merge (· ⊔ ·)

/-- One bucket out of two that meet. -/
def mergeExact (b next : GaugeBucket) : Except Error GaugeBucket :=
  if b.stop ≠ next.start then .error (.invalidArgument "rollup buckets must be adjacent")
  else
    .ok {
      start := b.start
      stop := next.stop
      count := b.count + next.count
      sum := b.sum + next.sum
      min := optionMin b.min next.min
      max := optionMax b.max next.max
      first := b.first.or next.first
      last := next.last.or b.last
      integralValueMicros := b.integralValueMicros + next.integralValueMicros
      coveredMicros := b.coveredMicros + next.coveredMicros }

end GaugeBucket

/-! ## Building -/

/-- The buckets of a rollup by their start. -/
abbrev Buckets := Std.ExtTreeMap Int64 GaugeBucket

/-- `entry(start).or_insert_with(..)` and a change of the entry. -/
def Buckets.update (buckets : Buckets) (start stop : Int64) (f : GaugeBucket → GaugeBucket) :
    Buckets :=
  buckets.insert start (f (buckets[start]?.getD (.empty start stop)))

/-- How the bucket of an instant is found, and the texts of the two overflows. -/
structure BucketRule where
  bounds : Int64 → Except Error (Int64 × Int64)
  gapOverflows : String
  coverageOverflows : String

namespace BucketRule

/-- The first pass: every point goes to its bucket. -/
def addSamples (rule : BucketRule) : Buckets → List Point → Except Error Buckets
  | buckets, [] => .ok buckets
  | buckets, p :: ps => do
      let (start, stop) ← rule.bounds p.validTime
      rule.addSamples (buckets.update start stop (·.addSample ⟨p.validTime, p.value.toRat⟩)) ps

/-- The loop of `add_interval` and `add_calendar_interval`.  Each round advances
if a bucket lies around its instant; the source would not end otherwise. -/
def addInterval (rule : BucketRule) (value : ℚ) (stop : Int64) :
    Nat → Int64 → Buckets → Except Error Buckets
  | 0, start, buckets =>
    if start < stop then .error (.invalidArgument "rollup interval does not advance")
    else .ok buckets
  | fuel + 1, start, buckets =>
    if start < stop then do
      let (bucket, bucketEnd) ← rule.bounds start
      let intervalEnd := if stop ≤ bucketEnd then stop else bucketEnd
      let duration ← (checkedSub intervalEnd start).elim
        (.error (.invalidArgument rule.coverageOverflows)) .ok
      rule.addInterval value stop fuel intervalEnd
        (buckets.update bucket bucketEnd (·.addCoveredInterval value duration))
    else .ok buckets

/-- Two neighbours that are close enough hold the earlier value in between. -/
def addGap (rule : BucketRule) (maxGap gap : Int64) (p q : Point) (buckets : Buckets) :
    Except Error Buckets :=
  if gap = 0 ∨ maxGap < gap then .ok buckets
  else
    rule.addInterval p.value.toRat q.validTime (q.validTime.toInt - p.validTime.toInt).toNat
      p.validTime buckets

/-- The second pass: the time between neighbours is covered, if it is short enough. -/
def addGaps (rule : BucketRule) (maxGap : Int64) : Buckets → List Point → Except Error Buckets
  | buckets, p :: q :: ps => do
      let gap ← (checkedSub q.validTime p.validTime).elim
        (.error (.invalidArgument rule.gapOverflows)) .ok
      let buckets ← rule.addGap maxGap gap p q buckets
      rule.addGaps maxGap buckets (q :: ps)
  | buckets, _ => .ok buckets

/-- The common part of `FixedGaugeRollup::build` and `CalendarGaugeRollup::build`. -/
def build (rule : BucketRule) (points : List Point) (maxGap : Int64) :
    Except Error (List GaugeBucket) := do
  let ordered := stableSort byValidTime points
  let buckets ← rule.addSamples ∅ ordered
  let buckets ← rule.addGaps maxGap buckets ordered
  .ok (buckets.toList.map Prod.snd)

end BucketRule

/-- The bucket of an instant at a fixed resolution. -/
def fixedBounds (resolution t : Int64) : Except Error (Int64 × Int64) :=
  let start := alignDown t resolution
  match checkedAdd start resolution with
  | none => .error (.invalidArgument "rollup bucket end overflows")
  | some stop => .ok (start, stop)

/-- The rule of a fixed resolution. -/
def fixedRule (resolution : Int64) : BucketRule where
  bounds := fixedBounds resolution
  gapOverflows := "rollup sample timestamps overflow a gap"
  coverageOverflows := "rollup coverage overflows"

/-- `FixedGaugeRollup::build`, and the buckets of the result. -/
def fixedGaugeRollup (points : List Point) (resolution maxGap : Int64) :
    Except Error (List GaugeBucket) := do
  failIf (resolution ≤ 0) (Error.invalidArgument "fixed rollup resolution must be positive")
  failIf (maxGap < 0) (Error.invalidArgument "fixed rollup maximum gap must not be negative")
  (fixedRule resolution).build points maxGap

/-- `FixedGaugeRollup::range` on the buckets of a rollup.  A map that is not empty has
no range that starts behind its end, and `none` is the panic of asking for one. -/
def fixedRange (resolution : Int64) (buckets : List GaugeBucket) (start stop : Int64) :
    Option (List GaugeBucket) :=
  let first := alignDown start resolution
  if buckets ≠ [] ∧ stop < first then none
  else some (buckets.filter fun b => decide (first ≤ b.start ∧ b.start < stop))

section Calendar

variable [Jiff]

/-- The error of the time zone library, without its own text. -/
def calendarError : Error := .invalidModel "invalid calendar rollup"

/-- The start of the day, month or year around an instant. -/
def startOfUnit (unit : CalendarUnit) (zoned : Jiff.Zoned) : Option Jiff.Zoned :=
  match unit with
  | .day => Jiff.startOfDay zoned
  | .month => (Jiff.firstOfMonth zoned).bind Jiff.startOfDay
  | .year => (Jiff.firstOfYear zoned).bind Jiff.startOfDay

/-- `calendar_bucket_bounds`. -/
def calendarBucketBounds (t : Int64) (unit : CalendarUnit) (zone : String) :
    Except Error (Int64 × Int64) :=
  let bounds := do
    let zoned ← Jiff.inTz t zone
    let start ← startOfUnit unit zoned
    let stop ← Jiff.addUnit unit start
    some (Jiff.asMicrosecond start, Jiff.asMicrosecond stop)
  bounds.elim (.error calendarError) .ok

/-- The rule of a calendar resolution. -/
def calendarRule (unit : CalendarUnit) (zone : String) : BucketRule where
  bounds := fun t => calendarBucketBounds t unit zone
  gapOverflows := "calendar sample timestamps overflow a gap"
  coverageOverflows := "calendar coverage overflows"

/-- `CalendarGaugeRollup::build`, and the buckets of the result. -/
def calendarGaugeRollup (points : List Point) (unit : CalendarUnit) (zone : String)
    (maxGap : Int64) : Except Error (List GaugeBucket) := do
  failIf (maxGap < 0) (Error.invalidArgument "calendar rollup maximum gap must not be negative")
  failIf (Jiff.inTz 0 zone = none) calendarError
  (calendarRule unit zone).build points maxGap

/-- `materialize`: the buckets of a list of points. -/
def materialize (points : List Point) (resolution : RollupResolution) (maxGap : Int64) :
    Except Error (List GaugeBucket) :=
  match resolution with
  | .fixedMicros micros => do
      failIf (micros ≤ 0) (Error.invalidModel "fixed rollup resolution must be positive")
      fixedGaugeRollup points micros maxGap
  | .calendar unit zone => calendarGaugeRollup points unit zone maxGap

end Calendar

/-! ## Files -/

/-- `validate_buckets` for one bucket behind `previous`.  Rationals are finite. -/
def validateBucket (previous : Option GaugeBucket) (b : GaugeBucket) (offset : Nat) :
    Except Error Unit := do
  let corrupt := Error.corruption offset
  failIf (b.stop ≤ b.start ∨ b.coveredMicros < 0) (corrupt "invalid bucket bounds")
  failIf (previous.any fun a => decide (b.start < a.stop))
    (corrupt "rollup buckets overlap or are unsorted")
  let duration ← (checkedSub b.stop b.start).elim
    (.error (corrupt "rollup bucket duration overflows")) .ok
  let hasSamples := decide (0 < b.count)
  let hasValues := hasSamples || decide (0 < b.coveredMicros)
  failIf (hasSamples ≠ (b.first.isSome && b.last.isSome) ∨
      hasValues ≠ (b.min.isSome && b.max.isSome) ∨
      b.min.isSome ≠ b.max.isSome ∨ b.first.isSome ≠ b.last.isSome)
    (corrupt "inconsistent rollup aggregate presence")
  failIf (duration < b.coveredMicros) (corrupt "rollup coverage exceeds bucket duration")
  match b.min, b.max with
  | some least, some greatest =>
    failIf (greatest < least) (corrupt "rollup aggregate minimum exceeds maximum")
    match b.first, b.last with
    | some first, some last =>
      failIf (first.timestamp < b.start ∨ b.stop ≤ first.timestamp ∨
          last.timestamp < b.start ∨ b.stop ≤ last.timestamp ∨
          last.timestamp < first.timestamp ∨ first.value < least ∨ greatest < first.value ∨
          last.value < least ∨ greatest < last.value ∨ (b.count = 1 ∧ first ≠ last))
        (corrupt "rollup samples violate aggregate bounds")
    | _, _ => .ok ()
  | _, _ => .ok ()

/-- `BUCKET_BYTES`. -/
def bucketBytes : Nat := 104

/-- `validate_buckets`: each bucket against the one before it. -/
def validateBuckets : Option GaugeBucket → List GaugeBucket → Nat → Except Error Unit
  | _, [], _ => .ok ()
  | previous, b :: bs, offset => do
      validateBucket previous b offset
      validateBuckets (some b) bs (offset + bucketBytes)

/-- `MAX_ROLLUP_BUCKETS`. -/
def maxRollupBuckets : Nat := 262144

/-- The tests of `RollupSegment::create`, which come before the file is written. -/
def checkRollup (buckets : List GaugeBucket) : Except Error Unit := do
  failIf (maxRollupBuckets < buckets.length)
    (Error.invalidModel "rollup segment exceeds 262144 buckets")
  validateBuckets none buckets 0

/-- `RollupSegment::query`.  The buckets are in order, so the two binary
searches find the ends of these runs. -/
def queryRollup (buckets : List GaugeBucket) (start stop : Int64) : List GaugeBucket :=
  (buckets.dropWhile fun b => decide (b.stop ≤ start)).takeWhile fun b => decide (b.start < stop)

/-! ## Shards -/

/-- `UTC_DAY_MICROS`. -/
def utcDayMicros : Int64 := 86400000000

/-- The width of the files of a tier: a day if that is a multiple of the resolution. -/
def shardWidth (micros : Int64) : Int64 :=
  if micros ≤ utcDayMicros ∧ utcDayMicros % micros = 0 then utcDayMicros else micros

/-- `fixed_shard_width`. -/
def fixedShardWidth (micros : Int64) : Except Error Int64 :=
  if micros ≤ 0 then .error (.invalidModel "fixed rollup resolution must be positive")
  else .ok (shardWidth micros)

/-- `ShardBounds`. -/
structure ShardBounds where
  start : Int64
  stop : Int64
deriving DecidableEq

/-- `RollupShard`: the buckets of one file. -/
structure RollupShard extends ShardBounds where
  buckets : List GaugeBucket
deriving DecidableEq

/-- The shards from `start` on that are complete and not `covered`.  The rounds
end at `latest`, or where the end of a shard saturates. -/
def fixedShards (width latest now : Int64) (covered : List ShardBounds) :
    Nat → Int64 → List ShardBounds
  | 0, _ => []
  | fuel + 1, start =>
    if start ≤ latest then
      let shard : ShardBounds := ⟨start, saturatingAdd start width⟩
      let found := if shard.stop ≤ now ∧ shard ∉ covered then [shard] else []
      if shard.stop ≤ start then found
      else found ++ fixedShards width latest now covered fuel shard.stop
    else []

/-- Rounds for a walk from `start` to `latest` that advances each time. -/
def roundsTo (start latest : Int64) : Nat := (latest.toInt - start.toInt + 1).toNat

section Shards

variable [Jiff]

/-- The calendar shards from the cursor on that are complete and not covered. -/
def calendarShards (unit : CalendarUnit) (zone : String) (latest now : Int64)
    (covered : List ShardBounds) : Nat → Int64 → Except Error (List ShardBounds)
  | 0, _ => .ok []
  | fuel + 1, cursor =>
    if cursor ≤ latest then do
      let (start, stop) ← calendarBucketBounds cursor unit zone
      let shard : ShardBounds := ⟨start, stop⟩
      let found := if stop ≤ now ∧ shard ∉ covered then [shard] else []
      if stop ≤ cursor then .ok found
      else (calendarShards unit zone latest now covered fuel stop).map (found ++ ·)
    else .ok []

/-- The loop of `needed_completed_shards` behind the set of covered shards. -/
def neededShards (resolution : RollupResolution) (earliest latest now : Int64)
    (covered : List ShardBounds) : Except Error (List ShardBounds) :=
  match resolution with
  | .fixedMicros micros => do
      let width ← fixedShardWidth micros
      let start := alignDown earliest width
      .ok (fixedShards width latest now covered (roundsTo start latest) start)
  | .calendar unit zone =>
    calendarShards unit zone latest now covered (roundsTo earliest latest) earliest

/-- `latest_completed_shard_end`. -/
def latestCompletedShardEnd (now : Int64) (resolution : RollupResolution) : Except Error Int64 :=
  match resolution with
  | .fixedMicros micros => (fixedShardWidth micros).map (alignDown now)
  | .calendar unit zone => (calendarBucketBounds now unit zone).map Prod.fst

end Shards

/-- The buckets by the start of their shard, those of unfinished shards left out. -/
def groupShards (width now : Int64) (buckets : List GaugeBucket) :
    Std.ExtTreeMap Int64 (List GaugeBucket) :=
  buckets.foldl (fun grouped b =>
    let start := alignDown b.start width
    if saturatingAdd start width ≤ now then
      grouped.insert start (grouped[start]?.getD [] ++ [b])
    else grouped) ∅

/-- `rollup_shards`: the buckets by complete shard. -/
def rollupShards (buckets : List GaugeBucket) (resolution : RollupResolution) (now : Int64) :
    Except Error (List RollupShard) :=
  match resolution with
  | .fixedMicros micros => do
      let width ← fixedShardWidth micros
      .ok ((groupShards width now buckets).toList.map fun (start, buckets) =>
        ⟨⟨start, saturatingAdd start width⟩, buckets⟩)
  | .calendar _ _ =>
    .ok ((buckets.filter fun b => decide (b.stop ≤ now)).map fun b => ⟨⟨b.start, b.stop⟩, [b]⟩)

end Ftwdb
