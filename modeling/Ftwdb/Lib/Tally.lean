import Mathlib.Algebra.BigOperators.Group.List.Basic
import Ftwdb.Lib.KeyedMap

/-!
# Tallies

A map filled by a list of updates, each of which changes the entry of its own
key.  The entry of a key depends only on the updates of that key, in their
order, and a quantity summed over the updates of every key is the sum over all
updates.
-/

namespace Tally

open List

variable {κ α β : Type}

/-! ## The updates of a key -/

section Keys

variable [DecidableEq κ]

/-- The updates of one key. -/
def ofKey (k : κ) (us : List (κ × α)) : List (κ × α) := us.filter fun u => decide (u.1 = k)

theorem mem_ofKey {k : κ} {us : List (κ × α)} {u : κ × α} : u ∈ ofKey k us ↔ u ∈ us ∧ u.1 = k := by
  rw [ofKey, mem_filter, decide_eq_true_eq]

theorem ofKey_append (k : κ) (us vs : List (κ × α)) :
    ofKey k (us ++ vs) = ofKey k us ++ ofKey k vs :=
  filter_append ..

theorem ofKey_cons (k : κ) (u : κ × α) (us : List (κ × α)) :
    ofKey k (u :: us) = if u.1 = k then u :: ofKey k us else ofKey k us := by
  simp only [ofKey, filter_cons, decide_eq_true_eq]

/-- A sum over distinct keys in which one key counts. -/
theorem sum_single {M : Type} [AddCommMonoid M] {k : κ} {ks : List κ} (hks : ks.Nodup)
    (hk : k ∈ ks) (x : M) : (ks.map fun k' => if k = k' then x else 0).sum = x := by
  induction ks with
  | nil => cases hk
  | cons k' ks ih =>
    rw [nodup_cons] at hks
    rw [map_cons, sum_cons]
    rcases mem_cons.mp hk with rfl | hmem
    · have hzero : (ks.map fun k' => if k = k' then x else 0).sum = 0 := by
        apply sum_eq_zero
        intro y hy
        obtain ⟨k', hk', rfl⟩ := mem_map.mp hy
        exact if_neg fun h : k = k' => hks.1 (h ▸ hk')
      rw [if_pos rfl, hzero, add_zero]
    · rw [if_neg fun h : k = k' => hks.1 (h ▸ hmem), zero_add, ih hks.2 hmem]

/-- The updates are partitioned by their keys. -/
theorem sum_ofKey {M : Type} [AddCommMonoid M] (w : κ × α → M) {ks : List κ} (hks : ks.Nodup)
    {us : List (κ × α)} (hus : ∀ u ∈ us, u.1 ∈ ks) :
    (ks.map fun k => ((ofKey k us).map w).sum).sum = (us.map w).sum := by
  induction us with
  | nil => simp [ofKey]
  | cons u us ih =>
    have hu : u.1 ∈ ks := hus u (mem_cons_self ..)
    have hrest := ih fun v hv => hus v (mem_cons_of_mem _ hv)
    have hsplit : ∀ k, ((ofKey k (u :: us)).map w).sum =
        (if u.1 = k then w u else 0) + ((ofKey k us).map w).sum := by
      intro k
      rw [ofKey_cons]
      split
      · rw [map_cons, sum_cons]
      · rw [zero_add]
    simp only [hsplit, map_cons, sum_cons]
    rw [sum_map_add, sum_single hks hu, hrest]

end Keys

/-! ## The map -/

variable [Ord κ] [Std.TransOrd κ] {step : Option β → κ × α → β}

/-- Each update makes the entry of its key from the one that stood there. -/
def tally (step : Option β → κ × α → β) (m : Std.ExtTreeMap κ β) (us : List (κ × α)) :
    Std.ExtTreeMap κ β :=
  us.foldl (fun m u => m.insert u.1 (step m[u.1]? u)) m

theorem tally_append (m : Std.ExtTreeMap κ β) (us vs : List (κ × α)) :
    tally step m (us ++ vs) = tally step (tally step m us) vs := foldl_append

variable [Std.LawfulEqOrd κ] [DecidableEq κ]

/-- The entry of a key comes from the updates of that key. -/
theorem getElem?_tally (m : Std.ExtTreeMap κ β) (us : List (κ × α)) (k : κ) :
    (tally step m us)[k]? = (ofKey k us).foldl (fun o u => some (step o u)) m[k]? := by
  induction us generalizing m with
  | nil => rfl
  | cons u us ih =>
    rw [tally, foldl_cons, ← tally, ih, KeyedMap.getElem?_insert_eq, ofKey_cons]
    by_cases hk : u.1 = k
    · rw [if_pos hk, if_pos hk, foldl_cons, ← hk]
    · rw [if_neg hk, if_neg hk]

/-- The keys are those that were updated. -/
theorem mem_tally {us : List (κ × α)} {k : κ} :
    k ∈ tally step ∅ us ↔ ofKey k us ≠ [] := by
  rw [Std.ExtTreeMap.mem_iff_isSome_getElem?, getElem?_tally]
  cases h : ofKey k us with
  | nil => simp
  | cons u us =>
    rw [foldl_cons]
    have hsome : ∀ (l : List (κ × α)) (b : β),
        (l.foldl (fun o u => some (step o u)) (some b)).isSome = true := by
      intro l
      induction l with
      | nil => exact fun _ => rfl
      | cons v l ih => exact fun b => ih _
    simp [hsome]

end Tally
