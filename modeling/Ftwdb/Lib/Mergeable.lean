import Mathlib.Data.Option.Basic
import Mathlib.Data.List.Basic

/-!
# Mergeable states

A state is built from samples by `single` and `push`, and two states are
combined by `merge`; both may fail.  If merging commutes with pushing on the
states that arise, then folding is a homomorphism: a list is folded by folding
its two halves and merging the results, and the one fails exactly where the
other does (`Mergeable.fold_append`).
-/

variable {α σ : Type}

/-- `ok` holds of every state that is built, and on such states a merge may be
done before a push or behind it. -/
structure Mergeable (single : α → σ) (push : σ → α → Option σ) (merge : σ → σ → Option σ)
    (ok : σ → Prop) : Prop where
  ok_single : ∀ a, ok (single a)
  ok_push : ∀ s a t, ok s → push s a = some t → ok t
  merge_single : ∀ s a, ok s → merge s (single a) = push s a
  merge_push : ∀ s t a, ok s → ok t →
    ((merge s t).bind fun u => push u a) = (push t a).bind (merge s)

namespace Mergeable

variable {single : α → σ} {push : σ → α → Option σ} {merge : σ → σ → Option σ} {ok : σ → Prop}

/-- The samples of a non-empty list pushed one after the other. -/
def fold (single : α → σ) (push : σ → α → Option σ) (a : α) (as : List α) : Option σ :=
  as.foldlM push (single a)

theorem ok_foldlM (h : Mergeable single push merge ok) {as : List α} {s t : σ} (hs : ok s)
    (hfold : as.foldlM push s = some t) : ok t := by
  induction as generalizing s with
  | nil =>
    cases hfold
    exact hs
  | cons a as ih =>
    obtain ⟨u, hu, hrest⟩ := Option.bind_eq_some_iff.mp hfold
    exact ih (h.ok_push s a u hs hu) hrest

theorem ok_fold (h : Mergeable single push merge ok) {a : α} {as : List α} {s : σ}
    (hfold : fold single push a as = some s) : ok s :=
  h.ok_foldlM (h.ok_single a) hfold

/-- Pushes onto a merged state are pushes onto its second half. -/
theorem merge_foldlM (h : Mergeable single push merge ok) (as : List α) {s t : σ} (hs : ok s)
    (ht : ok t) :
    ((merge s t).bind fun u => as.foldlM push u) = (as.foldlM push t).bind (merge s) := by
  induction as generalizing t with
  | nil => exact Option.bind_fun_some (merge s t)
  | cons a as ih =>
    calc ((merge s t).bind fun u => (push u a).bind fun v => as.foldlM push v)
        = ((merge s t).bind fun u => push u a).bind fun v => as.foldlM push v :=
          (Option.bind_assoc ..).symm
      _ = ((push t a).bind (merge s)).bind fun v => as.foldlM push v := by
          rw [h.merge_push s t a hs ht]
      _ = (push t a).bind fun t' => (merge s t').bind fun v => as.foldlM push v :=
          Option.bind_assoc ..
      _ = (push t a).bind fun t' => (as.foldlM push t').bind (merge s) := by
          refine Option.bind_congr fun t' ht' => ih (h.ok_push t a t' ht ht')
      _ = ((push t a).bind fun t' => as.foldlM push t').bind (merge s) :=
          (Option.bind_assoc ..).symm

/-- Folding is a homomorphism. -/
theorem fold_append (h : Mergeable single push merge ok) (a : α) (as : List α) (b : α)
    (bs : List α) :
    fold single push a (as ++ b :: bs) =
      (fold single push a as).bind fun s => (fold single push b bs).bind (merge s) := by
  rw [fold, List.foldlM_append]
  refine Option.bind_congr fun s hs => ?_
  have hok := h.ok_fold hs
  rw [List.foldlM_cons, ← h.merge_single s b hok]
  exact h.merge_foldlM bs hok (h.ok_single b)

theorem fold_append_eq_some (h : Mergeable single push merge ok) {a : α} {as : List α} {b : α}
    {bs : List α} {u : σ} :
    fold single push a (as ++ b :: bs) = some u ↔
      ∃ s t, fold single push a as = some s ∧ fold single push b bs = some t ∧
        merge s t = some u := by
  rw [h.fold_append]
  simp only [Option.bind_eq_some_iff, exists_and_left]

/-- Merging built states is associative, failures included. -/
theorem merge_assoc (h : Mergeable single push merge ok) {a b c : α} {as bs cs : List α}
    {s t u : σ} (hs : fold single push a as = some s) (ht : fold single push b bs = some t)
    (hu : fold single push c cs = some u) :
    ((merge s t).bind fun v => merge v u) = (merge t u).bind (merge s) := by
  have hst : fold single push a (as ++ b :: bs) = merge s t := by
    rw [h.fold_append, hs, ht]
    rfl
  have htu : fold single push b (bs ++ c :: cs) = merge t u := by
    rw [h.fold_append, ht, hu]
    rfl
  calc ((merge s t).bind fun v => merge v u)
      = fold single push a ((as ++ b :: bs) ++ c :: cs) := by
        rw [h.fold_append a (as ++ b :: bs), hst, hu]
        rfl
    _ = fold single push a (as ++ b :: (bs ++ c :: cs)) := by
        rw [List.append_assoc, List.cons_append]
    _ = (merge t u).bind (merge s) := by
        rw [h.fold_append a as, hs, htu]
        rfl

end Mergeable
