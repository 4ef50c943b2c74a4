import Ftwdb.Store.Store

/-!
# What can be sealed

A seal encodes the whole live index into one segment.  The encoder forms
differences of times, between fields of one point and between neighbours of a
block, and gives up if one of them leaves the range of 64-bit numbers; the write
path puts no bound on any of them.  `Sealable` lists the differences that have
to fit (`sealing_succeeds_iff`).
-/

namespace Ftwdb

open Check List StableSort

theorem checkedDelta_eq_ok {left right delta : Int64} : checkedDelta left right = .ok delta ↔
    fitsI64 (left.toInt - right.toInt) = true ∧ delta = left - right := by
  rw [checkedDelta]
  split
  · next h => simp [h, eq_comm]
  · next h => simp [h]

theorem fitsI64_iff {x : Int} : fitsI64 x = true ↔ -2 ^ 63 ≤ x ∧ x < 2 ^ 63 := decide_eq_true_iff

theorem toInt_sub_of_fits {left right : Int64} (h : fitsI64 (left.toInt - right.toInt) = true) :
    (left - right).toInt = left.toInt - right.toInt := by
  rw [fitsI64_iff] at h
  rw [Int64.toInt_sub]
  exact Signed.bmod_of_fits h

/-- The time between two neighbours of a block is a number. -/
def CloseEnough (p q : Point) : Prop := q.validTime.toInt - p.validTime.toInt < 2 ^ 63

instance : DecidableRel CloseEnough := fun _ _ => inferInstanceAs (Decidable (_ < _))

section Neighbours
variable {p q : Point} {ps : List Point} {delta previousDelta : Int64} {u : Unit}

/-- One step along a block: times do not decrease, so only the upper bound of the
difference matters, and what follows may rely on its sign. -/
theorem neighbours_step {check : Int64 → Except Error Unit} (hpq : byValidTime p q = true)
    (hbehind : ∀ delta : Int64, 0 ≤ delta.toInt →
      (check delta = .ok u ↔ (q :: ps).IsChain CloseEnough)) :
    (∃ delta, checkedDelta q.validTime p.validTime = .ok delta ∧ check delta = .ok u) ↔
      (p :: q :: ps).IsChain CloseEnough := by
  have hle : p.validTime.toInt ≤ q.validTime.toInt :=
    Int64.le_iff_toInt_le.mp (of_decide_eq_true hpq)
  have hfits : fitsI64 (q.validTime.toInt - p.validTime.toInt) = true ↔ CloseEnough p q := by
    rw [fitsI64_iff, CloseEnough]
    omega
  have hnonneg : CloseEnough p q → 0 ≤ (q.validTime - p.validTime).toInt := by
    intro hclose
    rw [toInt_sub_of_fits (hfits.mpr hclose)]
    omega
  simp only [checkedDelta_eq_ok, hfits, isChain_cons_cons]
  constructor
  · rintro ⟨delta, ⟨hclose, rfl⟩, hcheck⟩
    exact ⟨hclose, (hbehind _ (hnonneg hclose)).mp hcheck⟩
  · rintro ⟨hclose, hchain⟩
    exact ⟨_, ⟨hclose, rfl⟩, (hbehind _ (hnonneg hclose)).mpr hchain⟩

/-- The difference of two differences that are not negative is a number. -/
theorem checkedDelta_of_nonneg (hdelta : 0 ≤ delta.toInt) (hprevious : 0 ≤ previousDelta.toInt) :
    checkedDelta delta previousDelta = .ok (delta - previousDelta) := by
  refine checkedDelta_eq_ok.mpr ⟨?_, rfl⟩
  have hrange := Signed.fits_toInt delta
  have hrange' := Signed.fits_toInt previousDelta
  rw [fitsI64_iff]
  omega

theorem checkDeltas_eq_ok (hprevious : 0 ≤ previousDelta.toInt)
    (hsorted : Sorted byValidTime (p :: ps)) :
    checkDeltas previousDelta p.validTime ps = .ok u ↔ (p :: ps).IsChain CloseEnough := by
  induction ps generalizing previousDelta p with
  | nil => simp [checkDeltas]
  | cons q ps ih =>
    obtain ⟨hp, hrest⟩ := pairwise_cons.mp hsorted
    have hbehind : ∀ delta : Int64, 0 ≤ delta.toInt →
        ((do let _ ← checkedDelta delta previousDelta
             checkDeltas delta q.validTime ps) = .ok u ↔ (q :: ps).IsChain CloseEnough) := by
      intro delta hdelta
      rw [checkedDelta_of_nonneg hdelta hprevious]
      exact ih hdelta hrest
    rw [checkDeltas, bind_eq_ok]
    exact neighbours_step (hp q mem_cons_self) hbehind

theorem checkTimes_eq_ok {points : List Point} (hsorted : Sorted byValidTime points) :
    checkTimes points = .ok u ↔ points.IsChain CloseEnough := by
  match points with
  | [] => simp [checkTimes]
  | [p] => simp [checkTimes]
  | p :: q :: rest =>
    obtain ⟨hp, hrest⟩ := pairwise_cons.mp hsorted
    rw [checkTimes, bind_eq_ok]
    exact neighbours_step (hp q mem_cons_self) fun delta hdelta =>
      checkDeltas_eq_ok hdelta hrest

end Neighbours

/-- The fields of a point that are stored relative to one another. -/
structure Compact (p : Point) : Prop where
  stop : fitsI64 (p.validTimeEnd.toInt - p.validTime.toInt) = true
  knowledge : fitsI64 (p.knowledgeTime.toInt - p.validTime.toInt) = true
  change : fitsI64 (p.changeTime.toInt - p.knowledgeTime.toInt) = true

theorem encodeColumns_eq_ok {points : List Point} {u : Unit} (hsorted : Sorted byValidTime points) :
    encodeColumns points = .ok u ↔
      points.IsChain CloseEnough ∧ ∀ p ∈ points, Compact p := by
  have hpoint : ∀ p : Point, (do
      let _ ← checkedDelta p.validTimeEnd p.validTime
      let _ ← checkedDelta p.knowledgeTime p.validTime
      let _ ← checkedDelta p.changeTime p.knowledgeTime
      .ok ()) = Except.ok () ↔ Compact p := by
    intro p
    simp only [bind_eq_ok, checkedDelta_eq_ok]
    constructor
    · rintro ⟨_, ⟨hstop, -⟩, _, ⟨hknowledge, -⟩, _, ⟨hchange, -⟩, -⟩
      exact ⟨hstop, hknowledge, hchange⟩
    · rintro ⟨hstop, hknowledge, hchange⟩
      exact ⟨_, ⟨hstop, rfl⟩, _, ⟨hknowledge, rfl⟩, _, ⟨hchange, rfl⟩, trivial⟩
  rw [encodeColumns, bind_eq_ok]
  simp only [checkTimes_eq_ok hsorted, each_eq_ok, hpoint]
  constructor
  · rintro ⟨_, h⟩
    exact h
  · intro h
    exact ⟨(), h⟩

/-- What a seal asks of the live points: the times inside each point and between
neighbours of a block are apart by a number, and the index of the blocks has a
length. -/
structure Sealable (blockPoints : Nat) (points : List Point) : Prop where
  compact : ∀ p ∈ points, Compact p
  close : ∀ b ∈ cutBlocks blockPoints (stableSort bySegment points), b.points.IsChain CloseEnough
  index : 16 + 40 * (cutBlocks blockPoints (stableSort bySegment points)).length < 2 ^ 32

/-- Accepted points can be sealed exactly if their times are close enough. -/
theorem sealing_succeeds_iff {points : List Point}
    (haccepted : validatePointIntervals points = .ok ()) :
    (∃ segment, Segment.create points Store.sealBlockPoints = .ok segment) ↔
      Sealable Store.sealBlockPoints points := by
  have hblocks : ∀ b ∈ cutBlocks Store.sealBlockPoints (stableSort bySegment points),
      Sorted byValidTime b.points := fun b hb =>
    (Segment.sorted_of_mem_cutBlocks (by decide) hb).imp le_of_lex
  have hpoints : ∀ p, p ∈ points ↔
      ∃ b ∈ cutBlocks Store.sealBlockPoints (stableSort bySegment points), p ∈ b.points := by
    intro p
    have hflat : p ∈ (cutBlocks Store.sealBlockPoints (stableSort bySegment points)).flatMap
        Block.points ↔ p ∈ points := by
      rw [Segment.flatMap_cutBlocks (by decide), mem_stableSort]
    rw [← hflat, mem_flatMap]
  simp only [Segment.create, bind_eq_ok, failIf_eq_ok, each_eq_ok, haccepted]
  constructor
  · rintro ⟨segment, _, -, _, -, _, hencode, _, -, _, hindex, -⟩
    have hencode := fun b hb => (encodeColumns_eq_ok (hblocks b hb)).mp (hencode b hb)
    refine ⟨fun p hp => ?_, fun b hb => (hencode b hb).1, Nat.lt_of_not_le hindex⟩
    obtain ⟨b, hb, hp⟩ := (hpoints p).mp hp
    exact (hencode b hb).2 p hp
  · rintro ⟨hcompact, hclose, hindex⟩
    refine ⟨_, (), by decide, (), trivial, (), fun b hb => ?_, (), by omega, (),
      Nat.not_le.mpr hindex, rfl⟩
    exact (encodeColumns_eq_ok (hblocks b hb)).mpr
      ⟨hclose b hb, fun p hp => hcompact p ((hpoints p).mpr ⟨b, hb, hp⟩)⟩

/-- A point that starts at the least time and ends at the greatest one. -/
def endlessPoint : Point :=
  { Point.actual 7 Int64.minValue ⟨0⟩ with validTimeEnd := Int64.maxValue }

/-- One accepted point keeps the store from sealing it and all the others. -/
theorem endlessPoint_blocks_sealing :
    letI := Jiff.withoutZones
    (Store.openWith {} ⟨.empty, {}⟩ {}).1.map (fun s =>
      let accepted := s.append [.actual 7 100 ⟨1⟩, endlessPoint] {}
      (accepted.1.isOk, (accepted.2.sealAndReclaim {}).1.map fun _ => ())) =
      .ok (true, .error (.serialization "timestamp delta overflows i64")) := by
  decide +kernel

theorem sealing_succeeds_pair :
    ∃ segment, Segment.create [.actual 7 100 ⟨1⟩, .actual 7 50 ⟨2⟩] Store.sealBlockPoints =
      .ok segment := by
  refine (sealing_succeeds_iff (by decide)).mpr ⟨?_, by decide +kernel, by decide +kernel⟩
  intro p hp
  simp only [mem_cons, not_mem_nil, or_false] at hp
  rcases hp with rfl | rfl
  · exact ⟨by decide, by decide, by decide⟩
  · exact ⟨by decide, by decide, by decide⟩

end Ftwdb
