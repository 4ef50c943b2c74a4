import Ftwdb.Lib.StableSort
import Ftwdb.Model.Types

/-!
# Orders on points

The sort keys of the source: valid time in the live index, `(valid_time,
knowledge_time, change_time)` in queries, and the series in front of that key in
segments.  A key of several fields is the lexicographic order of its fields.
-/

namespace Ftwdb

open StableSort

/-- By series. -/
def bySeriesId (a b : Point) : Bool := decide (a.seriesId ≤ b.seriesId)

/-- The order of a series in the live index. -/
def byValidTime (a b : Point) : Bool := decide (a.validTime ≤ b.validTime)

/-- By knowledge time. -/
def byKnowledgeTime (a b : Point) : Bool := decide (a.knowledgeTime ≤ b.knowledgeTime)

/-- By change time. -/
def byChangeTime (a b : Point) : Bool := decide (a.changeTime ≤ b.changeTime)

/-- The order of revisions of one valid time. -/
def byRevision : Point → Point → Bool := lex byKnowledgeTime byChangeTime

/-- The order of a history. -/
def byHistory : Point → Point → Bool := lex byValidTime byRevision

/-- The order of points inside a segment. -/
def bySegment : Point → Point → Bool := lex bySeriesId byHistory

/-- Comparing by a 64-bit key. -/
theorem totalPreorder_of_int64 (key : Point → Int64) :
    TotalPreorder fun a b => decide (key a ≤ key b) := by
  have h := totalPreorder_of_key fun p => (key p).toInt
  simpa only [Int64.le_iff_toInt_le] using h

theorem bySeriesId_preorder : TotalPreorder bySeriesId := by
  have h := totalPreorder_of_key fun p : Point => p.seriesId.toNat
  simp only [← UInt64.le_iff_toNat_le] at h
  exact h

theorem byValidTime_preorder : TotalPreorder byValidTime := totalPreorder_of_int64 Point.validTime

theorem byKnowledgeTime_preorder : TotalPreorder byKnowledgeTime :=
  totalPreorder_of_int64 Point.knowledgeTime

theorem byChangeTime_preorder : TotalPreorder byChangeTime :=
  totalPreorder_of_int64 Point.changeTime

theorem byRevision_preorder : TotalPreorder byRevision :=
  byKnowledgeTime_preorder.lex byChangeTime_preorder

/-- The order of a history compares one field after the other. -/
theorem byHistory_preorder : TotalPreorder byHistory := byValidTime_preorder.lex byRevision_preorder

theorem bySegment_preorder : TotalPreorder bySegment := bySeriesId_preorder.lex byHistory_preorder

end Ftwdb
