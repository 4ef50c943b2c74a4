import Mathlib.Data.List.TakeDrop

/-!
# Partition points

`partitionPoint p l` looks for the end of the elements at the front of `l` that
satisfy `p` by halving the part that is left, as the standard library of the
source language does.  Over a list on which `p`, once false, stays false, it
finds it: taking and dropping that many elements is `takeWhile` and `dropWhile`,
which are then filters.
-/

namespace BinarySearch

open List

variable {α : Type}

/-- Whether the element at a position satisfies `p`. -/
def holdsAt (p : α → Bool) (l : List α) (i : Nat) : Bool := l[i]?.any p

/-- The loop: the answer lies within `size` elements from `base`.  The fuel is the
length of the list. -/
def bisect (p : α → Bool) (l : List α) : Nat → Nat → Nat → Nat
  | 0, base, _ => base
  | fuel + 1, base, size =>
    if 1 < size then
      bisect p l fuel (if holdsAt p l (base + size / 2) then base + size / 2 else base)
        (size - size / 2)
    else base

/-- `partition_point`. -/
def partitionPoint (p : α → Bool) (l : List α) : Nat :=
  if l.isEmpty then 0
  else
    let base := bisect p l l.length 0 l.length
    if holdsAt p l base then base + 1 else base

/-- Once false, `p` stays false. -/
def Partitioned (p : α → Bool) (l : List α) : Prop := l.Pairwise fun a b => p b = true → p a = true

variable {p : α → Bool} {l : List α}

namespace Partitioned

theorem takeWhile_eq_filter (h : Partitioned p l) :
    l.takeWhile p = l.filter p ∧ l.dropWhile p = l.filter fun a => !p a := by
  induction l with
  | nil => exact ⟨rfl, rfl⟩
  | cons a l ih =>
    obtain ⟨ha, hl⟩ := pairwise_cons.mp h
    cases hpa : p a with
    | true =>
      obtain ⟨htake, hdrop⟩ := ih hl
      simp [hpa, htake, hdrop]
    | false =>
      have hall : ∀ b ∈ l, p b = false := by
        intro b hb
        rw [← Bool.not_eq_true]
        exact fun hpb => by simp [ha b hb hpb] at hpa
      have hnone : l.filter p = [] := filter_eq_nil_iff.mpr fun b hb => by simp [hall b hb]
      have hkept : (l.filter fun b => !p b) = l :=
        filter_eq_self.mpr fun b hb => by simp [hall b hb]
      simp [hpa, hnone, hkept]

/-- Exactly the positions at the front hold. -/
theorem holdsAt_iff (h : Partitioned p l) {i : Nat} :
    holdsAt p l i = true ↔ i < (l.takeWhile p).length := by
  induction l generalizing i with
  | nil => simp [holdsAt]
  | cons a l ih =>
    obtain ⟨ha, hl⟩ := pairwise_cons.mp h
    cases i with
    | zero =>
      show p a = true ↔ _
      cases hpa : p a <;> simp [hpa]
    | succ i =>
      show holdsAt p l i = true ↔ _
      rw [ih hl]
      cases hpa : p a with
      | true => simp [hpa]
      | false =>
        have hnone : l.takeWhile p = [] := by
          rw [(takeWhile_eq_filter hl).1]
          exact filter_eq_nil_iff.mpr fun b hb hpb => by simp [ha b hb hpb] at hpa
        simp [hpa, hnone]

/-- The loop keeps the end of the front between `base` and `base + size`. -/
theorem bisect_spec (h : Partitioned p l) {fuel base size : Nat} (hfuel : size ≤ fuel + 1)
    (hsize : 0 < size) (hbase : base = 0 ∨ base < (l.takeWhile p).length)
    (hend : (l.takeWhile p).length ≤ base + size) :
    let found := bisect p l fuel base size
    (found = 0 ∨ found < (l.takeWhile p).length) ∧ (l.takeWhile p).length ≤ found + 1 := by
  induction fuel generalizing base size with
  | zero => exact ⟨hbase, by show _ ≤ base + 1; omega⟩
  | succ fuel ih =>
    rw [bisect]
    split
    · next hlarge =>
      by_cases hmid : holdsAt p l (base + size / 2) = true
      · rw [if_pos hmid]
        rw [h.holdsAt_iff] at hmid
        exact ih (by omega) (by omega) (.inr hmid) (by omega)
      · rw [if_neg hmid]
        rw [h.holdsAt_iff] at hmid
        exact ih (by omega) (by omega) hbase (by omega)
    · next hsmall => exact ⟨hbase, by show _ ≤ base + 1; omega⟩

theorem partitionPoint_eq (h : Partitioned p l) :
    partitionPoint p l = (l.takeWhile p).length := by
  rw [partitionPoint]
  split
  · next hempty => simp [List.isEmpty_iff.mp hempty]
  · next hne =>
    have hlength : 0 < l.length := length_pos_iff.mpr fun hnil => hne (by simp [hnil])
    have hfront : (l.takeWhile p).length ≤ 0 + l.length := by
      simpa using (takeWhile_sublist p).length_le
    obtain ⟨hbase, hend⟩ := h.bisect_spec (Nat.le_succ _) hlength (.inl rfl) hfront
    by_cases hlast : holdsAt p l (bisect p l l.length 0 l.length) = true
    · simp only [if_pos hlast]
      rw [h.holdsAt_iff] at hlast
      omega
    · simp only [if_neg hlast]
      rw [h.holdsAt_iff] at hlast
      omega

theorem take_partitionPoint (h : Partitioned p l) :
    l.take (partitionPoint p l) = l.filter p := by
  rw [h.partitionPoint_eq, ← h.takeWhile_eq_filter.1]
  calc l.take (l.takeWhile p).length
    _ = (l.takeWhile p ++ l.dropWhile p).take (l.takeWhile p).length := by
        rw [takeWhile_append_dropWhile]
    _ = l.takeWhile p := take_left

theorem drop_partitionPoint (h : Partitioned p l) :
    l.drop (partitionPoint p l) = l.filter fun a => !p a := by
  rw [h.partitionPoint_eq, ← h.takeWhile_eq_filter.2]
  calc l.drop (l.takeWhile p).length
    _ = (l.takeWhile p ++ l.dropWhile p).drop (l.takeWhile p).length := by
        rw [takeWhile_append_dropWhile]
    _ = l.dropWhile p := drop_left

theorem sublist {l' : List α} (h : Partitioned p l) (hsub : l'.Sublist l) : Partitioned p l' :=
  List.Pairwise.sublist hsub h

end Partitioned

end BinarySearch
