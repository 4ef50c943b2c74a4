import Mathlib.Data.List.Induction
import Mathlib.Data.List.Perm.Basic
import Mathlib.Data.List.Sort
import Mathlib.Order.Defs.LinearOrder

/-!
# Stable sorting

`stableSort le l` sorts `l` by insertion, one element after the other, each
behind the elements it ties with.  Sorting a longer list is therefore one more
insertion, which is how an index kept sorted under appends is described.

What the result is does not depend on the algorithm.  Call two elements tied if
each is below the other.  `eq_of_ties_eq` says that a sorted list is determined
by its tie classes, each read from left to right, and stable sorting leaves
them as they were (`ties_stableSort`).  Every other law is read off from these
two: filtering, sorting twice, and sorting by a finer order a list that was
already sorted by a coarser one.
-/

namespace StableSort

open List

variable {α : Type}

/-- `x` behind the leading elements that are not above it. -/
def insertAfter (le : α → α → Bool) (x : α) : List α → List α
  | [] => [x]
  | y :: ys => if le y x then y :: insertAfter le x ys else x :: y :: ys

/-- The elements inserted one after the other. -/
def stableSort (le : α → α → Bool) (l : List α) : List α :=
  l.foldl (fun sorted x => insertAfter le x sorted) []

/-- Each element is below the later ones. -/
def Sorted (le : α → α → Bool) (l : List α) : Prop := l.Pairwise fun a b => le a b = true

/-- The elements tied with `x`, from left to right. -/
def ties (le : α → α → Bool) (x : α) (l : List α) : List α := l.filter fun y => le x y && le y x

/-- A list in strict order is determined by its members. -/
theorem eq_of_strict {r : α → α → Prop} {l l' : List α} (hl : l.Pairwise r) (hl' : l'.Pairwise r)
    (hmem : ∀ a, a ∈ l ↔ a ∈ l') (hirrefl : ∀ a, ¬ r a a)
    (htrans : ∀ {a b c}, r a b → r b c → r a c) : l = l' := by
  have : Std.Irrefl r := ⟨hirrefl⟩
  have : Std.Antisymm r := ⟨fun a b hab hba => absurd (htrans hab hba) (hirrefl a)⟩
  exact hl.eq_of_mem_iff hl' hmem

/-- A total preorder given as a test. -/
structure TotalPreorder (le : α → α → Bool) : Prop where
  trans : ∀ {a b c}, le a b = true → le b c = true → le a c = true
  total : ∀ a b, le a b = true ∨ le b a = true

/-- The preorder of a key in a linear order. -/
theorem totalPreorder_of_key {κ : Type} [LinearOrder κ] (key : α → κ) :
    TotalPreorder fun a b => decide (key a ≤ key b) where
  trans hab hbc := by
    rw [decide_eq_true_eq] at hab hbc ⊢
    exact le_trans hab hbc
  total a b := by
    rw [decide_eq_true_eq, decide_eq_true_eq]
    exact le_total (key a) (key b)

/-- By the first order, and by the second one among its ties: the order of a
pair of keys. -/
def lex (first second : α → α → Bool) (a b : α) : Bool := first a b && (!first b a || second a b)

theorem le_of_lex {first second : α → α → Bool} {a b : α} (h : lex first second a b = true) :
    first a b = true := (Bool.and_eq_true_iff.mp h).1

namespace TotalPreorder

variable {le : α → α → Bool}

theorem refl (h : TotalPreorder le) (a : α) : le a a = true := (h.total a a).elim id id

theorem le_of_not (h : TotalPreorder le) {a b : α} (hab : ¬ le a b = true) : le b a = true :=
  (h.total a b).resolve_left hab

theorem lex {first second : α → α → Bool} (h₁ : TotalPreorder first) (h₂ : TotalPreorder second) :
    TotalPreorder (StableSort.lex first second) where
  trans {a b c} hab hbc := by
    simp only [StableSort.lex, Bool.and_eq_true, Bool.or_eq_true, Bool.not_eq_true'] at hab hbc ⊢
    refine ⟨h₁.trans hab.1 hbc.1, ?_⟩
    by_cases hca : first c a = true
    · have hba : first b a = true := h₁.trans hbc.1 hca
      have hcb : first c b = true := h₁.trans hca hab.1
      exact Or.inr (h₂.trans (hab.2.resolve_left (by simp [hba]))
        (hbc.2.resolve_left (by simp [hcb])))
    · exact Or.inl (by simpa using hca)
  total a b := by
    simp only [StableSort.lex, Bool.and_eq_true, Bool.or_eq_true, Bool.not_eq_true']
    by_cases hab : first a b = true
    · by_cases hba : first b a = true
      · exact (h₂.total a b).imp (fun h => ⟨hab, Or.inr h⟩) fun h => ⟨hba, Or.inr h⟩
      · exact Or.inl ⟨hab, Or.inl (by simpa using hba)⟩
    · exact Or.inr ⟨h₁.le_of_not hab, Or.inl (by simpa using hab)⟩

end TotalPreorder

theorem insertAfter_eq_takeWhile (le : α → α → Bool) (x : α) (l : List α) :
    insertAfter le x l = l.takeWhile (fun y => le y x) ++ x :: l.dropWhile (fun y => le y x) := by
  induction l with
  | nil => rfl
  | cons y ys ih =>
    rw [insertAfter, takeWhile_cons, dropWhile_cons]
    split
    · rw [ih, cons_append]
    · rfl

/-- One more element is one more insertion. -/
theorem stableSort_concat (le : α → α → Bool) (l : List α) (x : α) :
    stableSort le (l ++ [x]) = insertAfter le x (stableSort le l) := by
  rw [stableSort, foldl_append]
  rfl

theorem insertAfter_perm (le : α → α → Bool) (x : α) (l : List α) :
    (insertAfter le x l).Perm (x :: l) := by
  induction l with
  | nil => exact List.Perm.refl _
  | cons y ys ih =>
    rw [insertAfter]
    split
    · exact (List.Perm.cons y ih).trans (List.Perm.swap x y ys)
    · exact List.Perm.refl _

theorem stableSort_perm (le : α → α → Bool) (l : List α) : (stableSort le l).Perm l := by
  induction l using List.reverseRecOn with
  | nil => exact List.Perm.refl _
  | append_singleton l x ih =>
    rw [stableSort_concat]
    have hcons : (x :: stableSort le l).Perm (x :: l) := List.Perm.cons x ih
    exact (insertAfter_perm le x _).trans (hcons.trans (perm_append_singleton x l).symm)

@[simp] theorem mem_stableSort {le : α → α → Bool} {l : List α} {x : α} :
    x ∈ stableSort le l ↔ x ∈ l := (stableSort_perm le l).mem_iff

@[simp] theorem length_stableSort (le : α → α → Bool) (l : List α) :
    (stableSort le l).length = l.length := (stableSort_perm le l).length_eq

/-! ## Sortedness and ties -/

/-- `x` is the greatest element of `l`, the later one among ties. -/
def Greatest (le : α → α → Bool) (l : List α) (x : α) : Prop :=
  ∃ before after, l = before ++ x :: after ∧ (∀ y ∈ before, le y x = true) ∧
    ∀ y ∈ after, le x y = false

theorem Greatest.mem {l : List α} {x : α} (hx : Greatest le l x) : x ∈ l := by
  obtain ⟨before, after, rfl, -⟩ := hx
  simp

theorem greatest_concat {l : List α} {x y : α} :
    Greatest le (l ++ [y]) x ↔
      (x = y ∧ ∀ z ∈ l, le z y = true) ∨ (Greatest le l x ∧ le x y = false) := by
  constructor
  · rintro ⟨before, after, hl, hbefore, hafter⟩
    rcases eq_nil_or_concat after with rfl | ⟨after, z, rfl⟩
    · obtain ⟨rfl, hxy⟩ := append_inj' hl rfl
      obtain rfl : y = x := by simpa using hxy
      exact .inl ⟨rfl, hbefore⟩
    · have hl' : l ++ [y] = (before ++ x :: after) ++ [z] := by simpa using hl
      obtain ⟨rfl, hyz⟩ := append_inj' hl' rfl
      obtain rfl : y = z := by simpa using hyz
      exact .inr ⟨⟨before, after, rfl, hbefore, fun w hw => hafter w (by simp [hw])⟩,
        hafter y (by simp)⟩
  · rintro (⟨rfl, hbelow⟩ | ⟨⟨before, after, rfl, hbefore, hafter⟩, hxy⟩)
    · exact ⟨l, [], rfl, hbelow, nofun⟩
    · refine ⟨before, after ++ [y], by simp, hbefore, fun w hw => ?_⟩
      rcases mem_append.mp hw with hw | hw
      · exact hafter w hw
      · obtain rfl := mem_singleton.mp hw
        exact hxy

section Laws

variable {le : α → α → Bool} (h : TotalPreorder le)

include h

theorem sorted_insertAfter (x : α) {l : List α} (hl : Sorted le l) :
    Sorted le (insertAfter le x l) := by
  induction l with
  | nil => exact pairwise_singleton _ _
  | cons y ys ih =>
    obtain ⟨hy, hys⟩ := pairwise_cons.mp hl
    rw [insertAfter]
    split
    · next hyx =>
      refine pairwise_cons.mpr ⟨fun z hz => ?_, ih hys⟩
      rcases mem_cons.mp ((insertAfter_perm le x ys).mem_iff.mp hz) with rfl | hz
      · exact hyx
      · exact hy z hz
    · next hyx =>
      have hxy : le x y = true := h.le_of_not hyx
      refine pairwise_cons.mpr ⟨fun z hz => ?_, hl⟩
      rcases mem_cons.mp hz with rfl | hz
      · exact hxy
      · exact h.trans hxy (hy z hz)

theorem sorted_stableSort (l : List α) : Sorted le (stableSort le l) := by
  induction l using List.reverseRecOn with
  | nil => exact List.Pairwise.nil
  | append_singleton l x ih =>
    rw [stableSort_concat]
    exact sorted_insertAfter h x ih

/-- An insertion adds its element at the end of its own tie class. -/
theorem ties_insertAfter (x y : α) {l : List α} (hl : Sorted le l) :
    ties le y (insertAfter le x l) = ties le y (l ++ [x]) := by
  induction l with
  | nil => rfl
  | cons z zs ih =>
    obtain ⟨hz, hzs⟩ := pairwise_cons.mp hl
    rw [insertAfter]
    split
    · have ih' := ih hzs
      simp only [ties, cons_append, filter_cons] at ih' ⊢
      rw [ih']
    · next hzx =>
      -- Everything from `z` on is strictly above `x`, so none of it is tied with `x`.
      by_cases hy : le y x = true ∧ le x y = true
      · have hnone : ∀ w ∈ z :: zs, ¬ (le y w && le w y) = true := by
          intro w hw hwy
          obtain ⟨-, hwy⟩ := Bool.and_eq_true_iff.mp hwy
          have hzw : le z w = true := by
            rcases mem_cons.mp hw with rfl | hw
            · exact h.refl w
            · exact hz w hw
          exact hzx (h.trans hzw (h.trans hwy hy.1))
        have hempty : ties le y (z :: zs) = [] := filter_eq_nil_iff.mpr hnone
        simp only [ties] at hempty ⊢
        rw [filter_cons, filter_append, hempty]
        simp [hy.1, hy.2]
      · have hout : (le y x && le x y) = false := by
          rw [Bool.and_eq_false_iff, ← Bool.not_eq_true, ← Bool.not_eq_true, ← not_and_or]
          exact hy
        simp only [ties]
        rw [filter_cons, filter_append, hout]
        simp [hout]

theorem ties_stableSort (y : α) (l : List α) : ties le y (stableSort le l) = ties le y l := by
  induction l using List.reverseRecOn with
  | nil => rfl
  | append_singleton l x ih =>
    rw [stableSort_concat, ties_insertAfter h x y (sorted_stableSort h l)]
    simp only [ties, filter_append] at ih ⊢
    rw [ih]

theorem eq_of_ties_eq {l₁ l₂ : List α} (h₁ : Sorted le l₁) (h₂ : Sorted le l₂)
    (hties : ∀ x, ties le x l₁ = ties le x l₂) : l₁ = l₂ := by
  induction l₁ generalizing l₂ with
  | nil =>
    cases l₂ with
    | nil => rfl
    | cons b bs =>
      have hb := hties b
      simp [ties, h.refl b] at hb
  | cons a as ih =>
    cases l₂ with
    | nil =>
      have ha := hties a
      simp [ties, h.refl a] at ha
    | cons b bs =>
      obtain ⟨hA, has⟩ := pairwise_cons.mp h₁
      obtain ⟨hB, hbs⟩ := pairwise_cons.mp h₂
      have hab : le a b = true := by
        have hmem : b ∈ ties le b (a :: as) := by
          rw [hties b]
          simp [ties, h.refl b]
        rcases mem_cons.mp (mem_of_mem_filter hmem) with heq | hmem
        · rw [heq]; exact h.refl a
        · exact hA b hmem
      have hba : le b a = true := by
        have hmem : a ∈ ties le a (b :: bs) := by
          rw [← hties a]
          simp [ties, h.refl a]
        rcases mem_cons.mp (mem_of_mem_filter hmem) with heq | hmem
        · rw [heq]; exact h.refl b
        · exact hB a hmem
      have hhead := hties a
      simp only [ties, filter_cons, h.refl a, hab, hba, Bool.and_self, if_true,
        List.cons.injEq] at hhead
      obtain ⟨rfl, -⟩ := hhead
      congr 1
      refine ih has hbs fun x => ?_
      have hx := hties x
      simp only [ties, filter_cons] at hx ⊢
      split at hx
      · exact (List.cons.inj hx).2
      · exact hx

/-! ## Consequences -/

/-- A sorted list with the tie classes of `l` is the stable sort of `l`. -/
theorem eq_stableSort {l s : List α} (hs : Sorted le s) (hties : ∀ x, ties le x s = ties le x l) :
    s = stableSort le l :=
  eq_of_ties_eq h hs (sorted_stableSort h l) fun x => by rw [hties x, ties_stableSort h]

theorem stableSort_of_sorted {l : List α} (hl : Sorted le l) : stableSort le l = l :=
  (eq_stableSort h hl fun _ => rfl).symm

theorem stableSort_filter (p : α → Bool) (l : List α) :
    stableSort le (l.filter p) = (stableSort le l).filter p := by
  refine (eq_stableSort h ((sorted_stableSort h l).filter p) fun x => ?_).symm
  have hx := congrArg (List.filter p) (ties_stableSort h x l)
  simp only [ties, filter_filter] at hx ⊢
  simpa only [Bool.and_comm] using hx

/-- Sorting by `le` does not see an earlier stable sort by a coarser order. -/
theorem stableSort_append_of_coarser {coarse : α → α → Bool} (hc : TotalPreorder coarse)
    (hle : ∀ {a b}, le a b = true → coarse a b = true) (l r s : List α) :
    stableSort le (l ++ stableSort coarse r ++ s) = stableSort le (l ++ r ++ s) := by
  refine eq_stableSort h (sorted_stableSort h _) fun x => ?_
  have hclass : ∀ m : List α, ties le x m = (ties coarse x m).filter fun y => le x y && le y x := by
    intro m
    simp only [ties, filter_filter]
    refine filter_congr fun y _ => ?_
    cases hxy : le x y <;> cases hyx : le y x <;> simp
    exact ⟨hle hxy, hle hyx⟩
  have hr : ties le x (stableSort coarse r) = ties le x r := by
    rw [hclass, hclass, ties_stableSort hc]
  rw [ties_stableSort h]
  simp only [ties, filter_append] at hr ⊢
  rw [hr]

/-- A sorted part of the input may be sorted beforehand. -/
theorem stableSort_append_stableSort (l r : List α) :
    stableSort le (stableSort le l ++ stableSort le r) = stableSort le (l ++ r) := by
  have hleft := stableSort_append_of_coarser h h id [] l (stableSort le r)
  have hright := stableSort_append_of_coarser h h id l r []
  rw [nil_append, nil_append] at hleft
  rw [append_nil, append_nil] at hright
  rw [hleft, hright]

/-- Sorting by one order what was sorted by another one sorts by the pair of them. -/
theorem stableSort_stableSort {second : α → α → Bool} (h₂ : TotalPreorder second) (l : List α) :
    stableSort le (stableSort second l) = stableSort (lex le second) l := by
  have hlex := h.lex h₂
  have hclass : ∀ (x : α) (m : List α),
      ties (lex le second) x m = ties le x (ties second x m) := by
    intro x m
    simp only [ties, filter_filter]
    refine filter_congr fun y _ => ?_
    simp only [lex]
    cases le x y <;> cases le y x <;> simp
  refine eq_stableSort hlex ?_ fun x => ?_
  · -- two elements tied in `le` keep the order they have in the list sorted before
    have hsorted := sorted_stableSort h (stableSort second l)
    rw [Sorted, pairwise_iff_forall_sublist] at hsorted ⊢
    intro a b hab
    have hle := hsorted hab
    rw [lex, hle, Bool.true_and, Bool.or_eq_true, Bool.not_eq_true']
    by_cases hback : le b a = true
    · right
      have hties : [a, b].Sublist (ties le a (stableSort second l)) := by
        rw [← ties_stableSort h a]
        have hfilter := hab.filter fun y => le a y && le y a
        simpa [ties, h.refl a, hle, hback] using hfilter
      have hsub := hties.trans filter_sublist
      exact pairwise_iff_forall_sublist.mp (sorted_stableSort h₂ l) hsub
    · left
      rwa [Bool.not_eq_true] at hback
  · rw [hclass, hclass]
    have hfirst := ties_stableSort h x (stableSort second l)
    have hsecond := ties_stableSort h₂ x l
    simp only [ties, filter_filter] at hfirst hsecond ⊢
    have hswap := congrArg (List.filter fun y => second x y && second y x) hfirst
    have hdrop := congrArg (List.filter fun y => le x y && le y x) hsecond
    simp only [filter_filter] at hswap hdrop
    rw [← hdrop]
    simpa only [Bool.and_comm] using hswap

/-! ## The greatest element -/

theorem Greatest.above {l : List α} {x : α} (hx : Greatest le l x) {y : α} (hy : y ∈ l) :
    le y x = true := by
  obtain ⟨before, after, rfl, hbefore, hafter⟩ := hx
  rcases mem_append.mp hy with hy | hy
  · exact hbefore y hy
  rcases mem_cons.mp hy with rfl | hy
  · exact h.refl y
  · exact h.le_of_not (by simp [hafter y hy])

theorem Greatest.getLast?_ties {l : List α} {x : α} (hx : Greatest le l x) :
    (ties le x l).getLast? = some x := by
  obtain ⟨before, after, rfl, -, hafter⟩ := hx
  have hnone : (after.filter fun y => le x y && le y x) = [] := by
    refine filter_eq_nil_iff.mpr fun y hy => ?_
    simp [hafter y hy]
  rw [ties, filter_append, filter_cons_of_pos (by simp [h.refl x]), hnone,
    getLast?_append, getLast?_singleton, Option.some_or]

theorem Greatest.unique {l : List α} {x y : α} (hx : Greatest le l x) (hy : Greatest le l y) :
    x = y := by
  have hxy := hy.above h hx.mem
  have hyx := hx.above h hy.mem
  have hsame : ties le x l = ties le y l := by
    refine filter_congr fun z _ => ?_
    have hup : le x z = true ↔ le y z = true := ⟨h.trans hyx, h.trans hxy⟩
    have hdown : le z x = true ↔ le z y = true :=
      ⟨fun hz => h.trans hz hxy, fun hz => h.trans hz hyx⟩
    rw [Bool.eq_iff_iff.mpr hup, Bool.eq_iff_iff.mpr hdown]
  have hlast := hx.getLast?_ties h
  rw [hsame, hy.getLast?_ties h] at hlast
  exact (Option.some.inj hlast).symm

/-- The last element of the sorted list is the greatest one. -/
theorem greatest_of_getLast? {l : List α} {x : α} (hlast : (stableSort le l).getLast? = some x) :
    Greatest le l x := by
  obtain ⟨init, hinit⟩ := getLast?_eq_some_iff.mp hlast
  have hsorted := sorted_stableSort h l
  rw [hinit, Sorted, pairwise_append] at hsorted
  have habove : ∀ y ∈ l, le y x = true := by
    intro y hy
    have hy' : y ∈ init ++ [x] := hinit ▸ mem_stableSort.mpr hy
    rcases mem_append.mp hy' with hy' | hy'
    · exact hsorted.2.2 y hy' x (mem_singleton_self x)
    · obtain rfl := mem_singleton.mp hy'
      exact h.refl y
  have hties := ties_stableSort h x l
  rw [hinit, ties, filter_append, filter_cons_of_pos (by simp [h.refl x]),
    filter_nil] at hties
  obtain ⟨first, second, rfl, -, hsecond⟩ := filter_eq_append_iff.mp hties.symm
  obtain ⟨between, after, rfl, -, -, hafter⟩ := filter_eq_cons_iff.mp hsecond
  refine ⟨first ++ between, after, by simp, fun y hy => habove y (by
    rcases mem_append.mp hy with hy | hy <;> simp [hy]), fun y hy => ?_⟩
  have hnot := filter_eq_nil_iff.mp hafter y hy
  simpa [habove y (by simp [hy])] using hnot

/-- The greatest element is the last one of the sorted list. -/
theorem getLast?_stableSort {l : List α} {x : α} :
    (stableSort le l).getLast? = some x ↔ Greatest le l x := by
  refine ⟨greatest_of_getLast? h, fun hx => ?_⟩
  have hne : stableSort le l ≠ [] := ne_nil_of_mem (mem_stableSort.mpr hx.mem)
  have hlast := getLast?_eq_some_getLast hne
  rw [hlast, hx.unique h (greatest_of_getLast? h hlast)]

end Laws

end StableSort
