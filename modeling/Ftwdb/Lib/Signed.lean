import Mathlib.Order.Defs.LinearOrder
import Mathlib.Algebra.Order.Group.Int
import Mathlib.Tactic.Linarith

/-!
# Signed arithmetic with a limit

Checked, saturating and Euclidean operations on 64-bit signed numbers.  Each is
described by its value as an integer.
-/

namespace Signed

open List

/-- The range of a 64-bit signed number. -/
def fits (x : Int) : Bool := decide (-2 ^ 63 ≤ x ∧ x < 2 ^ 63)

/-- `checked_add` -/
def checkedAdd (a b : Int64) : Option Int64 :=
  if fits (a.toInt + b.toInt) then some (a + b) else none

/-- `checked_sub` -/
def checkedSub (a b : Int64) : Option Int64 :=
  if fits (a.toInt - b.toInt) then some (a - b) else none

/-- The nearest representable number. -/
def clamp (x : Int) : Int64 :=
  if x < -2 ^ 63 then Int64.minValue else if 2 ^ 63 ≤ x then Int64.maxValue else Int64.ofInt x

/-- `saturating_add` -/
def saturatingAdd (a b : Int64) : Int64 := clamp (a.toInt + b.toInt)

/-- `saturating_sub` -/
def saturatingSub (a b : Int64) : Int64 := clamp (a.toInt - b.toInt)

/-- `div_euclid` by a positive number. -/
def divEuclid (a b : Int64) : Int64 := Int64.ofInt (a.toInt / b.toInt)

/-- The greatest multiple of `width` up to `t`; below the least representable
multiple the product wraps around. -/
def alignDown (t width : Int64) : Int64 := divEuclid t width * width

/-! ## As integers -/

theorem fits_iff {x : Int} : fits x = true ↔ -2 ^ 63 ≤ x ∧ x < 2 ^ 63 := decide_eq_true_iff

theorem fits_toInt (a : Int64) : -2 ^ 63 ≤ a.toInt ∧ a.toInt < 2 ^ 63 := ⟨a.le_toInt, a.toInt_lt⟩

theorem bmod_of_fits {x : Int} (h : -2 ^ 63 ≤ x ∧ x < 2 ^ 63) : x.bmod (2 ^ 64) = x := by
  rw [Int.bmod_eq_of_le] <;> omega

/-- A wrapped result that is given only where the exact one fits is the exact one. -/
theorem checked_eq_some {x : Int} {w c : Int64} (hw : w.toInt = x.bmod (2 ^ 64)) :
    (if fits x then some w else none) = some c ↔ c.toInt = x := by
  have hc := fits_toInt c
  split
  · next hfits =>
    rw [fits_iff] at hfits
    rw [Option.some_inj, ← Int64.toInt_inj, hw, bmod_of_fits hfits, eq_comm]
  · next hfits =>
    rw [fits_iff] at hfits
    constructor
    · intro h
      cases h
    · omega

/-- A checked sum is the sum, if it fits. -/
theorem checkedAdd_eq_some {a b c : Int64} :
    checkedAdd a b = some c ↔ c.toInt = a.toInt + b.toInt :=
  checked_eq_some (Int64.toInt_add a b)

theorem checkedSub_eq_some {a b c : Int64} :
    checkedSub a b = some c ↔ c.toInt = a.toInt - b.toInt :=
  checked_eq_some (Int64.toInt_sub a b)

theorem checkedAdd_eq_none {a b : Int64} :
    checkedAdd a b = none ↔ ¬ (-2 ^ 63 ≤ a.toInt + b.toInt ∧ a.toInt + b.toInt < 2 ^ 63) := by
  rw [checkedAdd, ← fits_iff]
  split <;> simp_all

/-- The nearest 64-bit number. -/
theorem toInt_clamp (x : Int) : (clamp x).toInt = max (-2 ^ 63) (min x (2 ^ 63 - 1)) := by
  rw [clamp]
  split
  · rw [Int64.toInt_minValue]
    omega
  · split
    · rw [Int64.toInt_maxValue]
      omega
    · rw [Int64.toInt_ofInt_of_le (by omega) (by omega)]
      omega

theorem toInt_saturatingAdd (a b : Int64) :
    (saturatingAdd a b).toInt = max (-2 ^ 63) (min (a.toInt + b.toInt) (2 ^ 63 - 1)) :=
  toInt_clamp _

theorem toInt_saturatingSub (a b : Int64) :
    (saturatingSub a b).toInt = max (-2 ^ 63) (min (a.toInt - b.toInt) (2 ^ 63 - 1)) :=
  toInt_clamp _

/-! ## Alignment

The exact multiple lies at most one width below `t`, so it leaves the range of
the numbers only downwards. -/

theorem toInt_divEuclid {a b : Int64} (hb : 0 < b.toInt) :
    (divEuclid a b).toInt = a.toInt / b.toInt := by
  have ha := fits_toInt a
  have hup : a.toInt / b.toInt ≤ max a.toInt 0 := by
    rcases le_or_gt 0 a.toInt with hpos | hneg
    · exact (Int.ediv_le_self _ hpos).trans (le_max_left _ _)
    · exact (Int.ediv_nonpos_of_nonpos_of_neg hneg.le hb).trans (le_max_right _ _)
  have hlow : min a.toInt 0 ≤ a.toInt / b.toInt := by
    rcases le_or_gt 0 a.toInt with hpos | hneg
    · exact (min_le_right _ _).trans (Int.ediv_nonneg hpos hb.le)
    · refine (min_le_left _ _).trans ?_
      rw [Int.le_ediv_iff_mul_le hb]
      nlinarith
  exact Int64.toInt_ofInt_of_le (by omega) (by omega)

/-- Aligning wraps around below the least number. -/
theorem toInt_alignDown {t width : Int64} (hwidth : 0 < width.toInt) :
    (alignDown t width).toInt = (t.toInt / width.toInt * width.toInt).bmod (2 ^ 64) := by
  rw [alignDown, Int64.toInt_mul, toInt_divEuclid hwidth]

theorem align_bounds {t width : Int} (hwidth : 0 < width) :
    t / width * width ≤ t ∧ t < t / width * width + width := by
  have hmod := Int.emod_nonneg t hwidth.ne'
  have hlt := Int.emod_lt_of_pos t hwidth
  have hdiv := Int.ediv_mul_add_emod t width
  omega

theorem toInt_alignDown_of_le {t width : Int64} (hwidth : 0 < width.toInt)
    (hfits : -2 ^ 63 ≤ t.toInt / width.toInt * width.toInt) :
    (alignDown t width).toInt = t.toInt / width.toInt * width.toInt := by
  have ht := fits_toInt t
  have hle := (align_bounds (t := t.toInt) hwidth).1
  rw [toInt_alignDown hwidth, bmod_of_fits ⟨hfits, by omega⟩]

/-- A multiple below the range comes back from above, less than one width under
the greatest number. -/
theorem toInt_alignDown_of_lt {t width : Int64} (hwidth : 0 < width.toInt)
    (hwraps : t.toInt / width.toInt * width.toInt < -2 ^ 63) :
    (alignDown t width).toInt = t.toInt / width.toInt * width.toInt + 2 ^ 64 ∧
      2 ^ 63 < (alignDown t width).toInt + width.toInt := by
  have ht := fits_toInt t
  have hw := fits_toInt width
  have hlt := (align_bounds (t := t.toInt) hwidth).2
  have hval : (alignDown t width).toInt = t.toInt / width.toInt * width.toInt + 2 ^ 64 := by
    rw [toInt_alignDown hwidth, ← Int.add_bmod_right, bmod_of_fits] <;> omega
  exact ⟨hval, by omega⟩

/-- The least multiple of `width` among the numbers. -/
def leastMultiple (width : Int64) : Int := -(2 ^ 63 / width.toInt * width.toInt)

/-- The multiple up to `t` is one of the numbers exactly from the least multiple on. -/
theorem align_fits_iff {t width : Int64} (hwidth : 0 < width.toInt) :
    -2 ^ 63 ≤ t.toInt / width.toInt * width.toInt ↔ leastMultiple width ≤ t.toInt := by
  rw [leastMultiple, ← Int.neg_mul, ← Int.le_ediv_iff_mul_le hwidth]
  constructor
  · intro hfits
    have hquot : -(t.toInt / width.toInt) ≤ 2 ^ 63 / width.toInt := by
      rw [Int.le_ediv_iff_mul_le hwidth, Int.neg_mul]
      omega
    omega
  · intro hle
    have hmul := Int.mul_le_mul_of_nonneg_right hle hwidth.le
    have hquot := Int.ediv_mul_le (2 ^ 63) hwidth.ne'
    rw [Int.neg_mul] at hmul
    omega

/-! ## Extremes -/

section Extremes

variable {α : Type}

/-- A walk that keeps what is before all else ends at one of its values, and none is
before that. -/
theorem foldl_first {before : Int64 → Int64 → Prop} [DecidableRel before]
    (hirrefl : ∀ x, ¬ before x x) (htrans : ∀ {x y z}, before x y → before y z → before x z)
    (htotal : ∀ {x y z}, ¬ before y x → ¬ before z y → ¬ before z x) (f : α → Int64) (l : List α)
    (t : Int64) :
    let m := l.foldl (fun t a => if before (f a) t then f a else t) t
    (∀ x ∈ t :: l.map f, ¬ before x m) ∧ m ∈ t :: l.map f := by
  induction l generalizing t with
  | nil => exact ⟨forall_mem_singleton.mpr (hirrefl t), mem_singleton.mpr rfl⟩
  | cons a l ih =>
    obtain ⟨hall, hmem⟩ := ih (if before (f a) t then f a else t)
    obtain ⟨hle, hall⟩ := forall_mem_cons.mp hall
    have hstep : ¬ before t (if before (f a) t then f a else t) ∧
        ¬ before (f a) (if before (f a) t then f a else t) := by
      split
      · next hlt => exact ⟨fun h => hirrefl _ (htrans hlt h), hirrefl _⟩
      · next hge => exact ⟨hirrefl _, hge⟩
    refine ⟨forall_mem_cons.mpr ⟨htotal hle hstep.1,
      forall_mem_cons.mpr ⟨htotal hle hstep.2, hall⟩⟩, ?_⟩
    rw [foldl_cons]
    rcases mem_cons.mp hmem with heq | hmem
    · rw [heq]
      split
      · exact mem_cons_of_mem _ mem_cons_self
      · exact mem_cons_self
    · exact mem_cons_of_mem _ (mem_cons_of_mem _ hmem)

theorem foldl_least (f : α → Int64) (l : List α) (t : Int64) :
    let m := l.foldl (fun t a => if f a < t then f a else t) t
    (∀ x ∈ t :: l.map f, m ≤ x) ∧ m ∈ t :: l.map f := by
  obtain ⟨hall, hmem⟩ := foldl_first (fun _ => Std.lt_irrefl) Std.lt_trans
    (fun h h' => Std.not_lt.mpr (Std.le_trans (Std.not_lt.mp h) (Std.not_lt.mp h'))) f l t
  exact ⟨fun x hx => Std.not_lt.mp (hall x hx), hmem⟩

theorem foldl_greatest (f : α → Int64) (l : List α) (t : Int64) :
    let m := l.foldl (fun t a => if t < f a then f a else t) t
    (∀ x ∈ t :: l.map f, x ≤ m) ∧ m ∈ t :: l.map f := by
  obtain ⟨hall, hmem⟩ := @foldl_first α (fun x y => y < x) inferInstance
    (fun _ => Std.lt_irrefl) (fun h h' => Std.lt_trans h' h)
    (fun h h' => Std.not_lt.mpr (Std.le_trans (Std.not_lt.mp h') (Std.not_lt.mp h))) f l t
  exact ⟨fun x hx => Std.not_lt.mp (hall x hx), hmem⟩

end Extremes

end Signed
