import Ftwdb.Model.Catalog
import Ftwdb.Model.Order
import Mathlib.Data.List.SplitBy

/-!
# Raw segments

`segment.rs` at the level of decoded blocks: how a list of points is sorted, cut
into series and blocks, and read back by range.  The bytes of a block are not
modelled here; what can fail while they are produced is, since a segment that
cannot be encoded is not created.
-/

namespace Ftwdb

open Check StableSort

/-! ## Blocks -/

/-- Points of one series, in order. -/
structure Block where
  seriesId : UInt64
  points : List Point
  nonempty : points ≠ []
deriving DecidableEq

namespace Block

/-- The first valid time of a block. -/
def minTime (b : Block) : Int64 := (b.points.head b.nonempty).validTime

/-- The last valid time of a block. -/
def maxTime (b : Block) : Int64 := (b.points.getLast b.nonempty).validTime

/-- The test a query makes on the index entry of a block. -/
def overlaps (b : Block) (seriesId : UInt64) (start stop : Int64) : Bool :=
  decide (b.seriesId = seriesId ∧ start ≤ b.maxTime ∧ b.minTime < stop)

end Block

/-- `slice::chunks`: blocks of `n` elements and a shorter last one.  The fuel is
the length of the list. -/
def chunks {α : Type} (n : Nat) : Nat → List α → List (List α)
  | 0, _ => []
  | _ + 1, [] => []
  | fuel + 1, l => l.take n :: chunks n fuel (l.drop n)

/-- The blocks of a list in segment order: runs of one series, each cut into
`blockPoints` points. -/
def cutBlocks (blockPoints : Nat) (ordered : List Point) : List Block :=
  (ordered.splitBy fun a b => a.seriesId == b.seriesId).flatMap fun series =>
    (chunks blockPoints series.length series).filterMap fun points =>
      if h : points = [] then none else some ⟨(points.head h).seriesId, points, h⟩

/-! ## What may fail in a block -/

/-- The range of `i64`. -/
def fitsI64 (x : Int) : Bool := decide (-2 ^ 63 ≤ x ∧ x < 2 ^ 63)

/-- `checked_sub` with the error of the encoder. -/
def checkedDelta (left right : Int64) : Except Error Int64 :=
  if fitsI64 (left.toInt - right.toInt) then .ok (left - right)
  else .error (.serialization "timestamp delta overflows i64")

/-- The differences of differences of the valid times behind the first two. -/
def checkDeltas : Int64 → Int64 → List Point → Except Error Unit
  | _, _, [] => .ok ()
  | previousDelta, previous, p :: ps => do
      let delta ← checkedDelta p.validTime previous
      let _ ← checkedDelta delta previousDelta
      checkDeltas delta p.validTime ps

/-- The deltas of the valid times, and theirs, fit. -/
def checkTimes : List Point → Except Error Unit
  | p :: q :: ps => do
      let delta ← checkedDelta q.validTime p.validTime
      checkDeltas delta q.validTime ps
  | _ => .ok ()

/-- The differences `encode_columns` forms; its other steps cannot fail for a
block of at most `2 ^ 18` points. -/
def encodeColumns (points : List Point) : Except Error Unit := do
  checkTimes points
  each (fun p => do
    let _ ← checkedDelta p.validTimeEnd p.validTime
    let _ ← checkedDelta p.knowledgeTime p.validTime
    let _ ← checkedDelta p.changeTime p.knowledgeTime
    .ok ()) points

/-! ## Segments -/

/-- `MAX_BLOCK_POINTS`. -/
def maxBlockPoints : Nat := 262144

/-- The decoded content of a segment file. -/
structure Segment where
  blocks : List Block
  pointCount : Nat
deriving DecidableEq

namespace Segment

/-- `create`: the points in segment order, cut into blocks. -/
def create (points : List Point) (blockPoints : Nat) : Except Error Segment := do
  failIf (blockPoints = 0 ∨ maxBlockPoints < blockPoints)
    (Error.invalidConfig "segment block_points must be in 1..=262144")
  validatePointIntervals points
  let blocks := cutBlocks blockPoints (stableSort bySegment points)
  each (fun b => encodeColumns b.points) blocks
  failIf (2 ^ 32 ≤ blocks.length) (Error.serialization "too many segment blocks")
  failIf (2 ^ 32 ≤ 16 + 40 * blocks.length) (Error.serialization "segment index is too large")
  .ok ⟨blocks, points.length⟩

/-- `overlaps`. -/
def overlaps (s : Segment) (seriesId : UInt64) (start stop : Int64) : Bool :=
  s.blocks.any fun b => b.overlaps seriesId start stop

/-- `query`. -/
def query (s : Segment) (seriesId : UInt64) (start stop : Int64) : List Point :=
  (s.blocks.filter fun b => b.overlaps seriesId start stop).flatMap fun b =>
    b.points.filter fun p => decide (start ≤ p.validTime ∧ p.validTime < stop)

/-- Every point of the segment in its order. -/
def points (s : Segment) : List Point := s.blocks.flatMap Block.points

/-- `series_point_count`. -/
def seriesPointCount (s : Segment) (seriesId : UInt64) : Nat :=
  ((s.blocks.filter fun b => decide (b.seriesId = seriesId)).map fun b => b.points.length).sum

/-- The least first time and the greatest last time among the blocks `p` accepts. -/
def bounds (s : Segment) (p : Block → Bool) : Option (Int64 × Int64) :=
  match s.blocks.filter p with
  | [] => none
  | b :: bs => some (bs.foldl (fun t b => if b.minTime < t then b.minTime else t) b.minTime,
      bs.foldl (fun t b => if t < b.maxTime then b.maxTime else t) b.maxTime)

/-- `series_bounds`. -/
def seriesBounds (s : Segment) (seriesId : UInt64) : Option (Int64 × Int64) :=
  s.bounds fun b => decide (b.seriesId = seriesId)

/-- `valid_bounds`. -/
def validBounds (s : Segment) : Option (Int64 × Int64) := s.bounds fun _ => true

end Segment

end Ftwdb
