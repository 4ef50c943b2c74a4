import Ftwdb.Model.Types
import Mathlib.Algebra.Order.Field.Rat
import Mathlib.Data.Int.ConditionallyCompleteOrder
import Mathlib.Order.Monotone.Odd
import Mathlib.Tactic.Positivity

/-!
# Comparing doubles

The comparison `<` of the source, read off the bits: without the sign they are
ordered like the numbers they stand for (`strictMono_magnitude`).  On finite
doubles `<` and `==` are therefore the comparisons of the rationals.
-/

namespace Ftwdb

namespace F64

/-- The bits as a signed number. -/
def order (x : F64) : Int :=
  if x.isNegative then -((x.bits.toNat % 2 ^ 63 : Nat) : Int)
  else ((x.bits.toNat % 2 ^ 63 : Nat) : Int)

/-- The comparison `<` of the source: no value compares with a NaN. -/
def lt (x y : F64) : Bool := !x.isNan && !y.isNan && decide (x.order < y.order)

theorem not_isNan_of_isFinite {x : F64} (h : x.isFinite = true) : x.isNan = false := by
  rw [isFinite, decide_eq_true_eq] at h
  simp [isNan, h]

/-! ## The number behind the bits -/

/-- The number of least subnormals in a finite double, from its bits without the sign. -/
def magnitude (n : Nat) : Nat :=
  if n / 2 ^ 52 = 0 then n % 2 ^ 52 else (2 ^ 52 + n % 2 ^ 52) * 2 ^ (n / 2 ^ 52 - 1)

theorem magnitude_eq {e f : Nat} (hf : f < 2 ^ 52) :
    magnitude (2 ^ 52 * e + f) = if e = 0 then f else (2 ^ 52 + f) * 2 ^ (e - 1) := by
  rw [magnitude, Nat.mul_add_div (by decide), Nat.div_eq_of_lt hf, Nat.add_zero,
    Nat.mul_add_mod, Nat.mod_eq_of_lt hf]

/-- The bits of a positive float are ordered as its magnitude. -/
theorem strictMono_magnitude : StrictMono magnitude := by
  refine strictMono_nat_of_lt_succ fun n => ?_
  have hdiv : n = 2 ^ 52 * (n / 2 ^ 52) + n % 2 ^ 52 := (Nat.div_add_mod n (2 ^ 52)).symm
  have hmod : n % 2 ^ 52 < 2 ^ 52 := Nat.mod_lt _ (by decide)
  generalize n / 2 ^ 52 = e at hdiv
  generalize n % 2 ^ 52 = f at hdiv hmod
  subst hdiv
  rw [magnitude_eq hmod]
  by_cases hlast : f + 1 = 2 ^ 52
  · -- the fraction is full, and the next number starts the next exponent
    have hnext : 2 ^ 52 * e + f + 1 = 2 ^ 52 * (e + 1) + 0 := by omega
    rw [hnext, magnitude_eq (by decide), if_neg (Nat.succ_ne_zero e), Nat.add_sub_cancel]
    by_cases he : e = 0
    · rw [if_pos he, he]
      omega
    · rw [if_neg he]
      obtain ⟨k, rfl⟩ := Nat.exists_eq_succ_of_ne_zero he
      have hpow : 2 ^ k.succ = 2 * 2 ^ k := Nat.pow_succ'
      rw [Nat.succ_sub_one, Nat.add_zero, hpow, ← Nat.mul_assoc]
      exact Nat.mul_lt_mul_of_pos_right (by omega) (Nat.two_pow_pos k)
  · rw [Nat.add_assoc, magnitude_eq (by omega)]
    split_ifs with he
    · exact Nat.lt_succ_self f
    · exact Nat.mul_lt_mul_of_pos_right (by omega) (Nat.two_pow_pos _)

/-- The number of least subnormals, with the sign. -/
def units (n : Int) : Int := n.sign * magnitude n.natAbs

theorem units_natCast (n : Nat) : units n = magnitude n := by
  cases n with
  | zero => simp [units, magnitude]
  | succ n =>
    rw [units, Int.sign_natCast_of_ne_zero (Nat.succ_ne_zero n), Int.natAbs_natCast, one_mul]

theorem units_neg (n : Int) : units (-n) = -units n := by
  simp [units]

theorem strictMono_units : StrictMono units := by
  refine strictMono_of_odd_strictMonoOn_nonneg units_neg fun a ha b hb hab => ?_
  obtain ⟨m, rfl⟩ := Int.eq_ofNat_of_zero_le ha
  obtain ⟨n, rfl⟩ := Int.eq_ofNat_of_zero_le hb
  rw [units_natCast, units_natCast]
  exact Int.ofNat_lt.mpr (strictMono_magnitude (Int.ofNat_lt.mp hab))

theorem bits_mod (x : F64) : x.bits.toNat % 2 ^ 63 = 2 ^ 52 * x.exponent + x.fraction := by
  rw [exponent, fraction]
  omega

theorem fraction_lt (x : F64) : x.fraction < 2 ^ 52 := Nat.mod_lt _ (by decide)

/-- The value of a float in units of the least positive one. -/
theorem toRat_eq (x : F64) : x.toRat = (units x.order : ℚ) / 2 ^ 1074 := by
  refine (congrArg (fun m : ℚ => if x.isNegative then -m else m)
    (?_ : _ = (magnitude (x.bits.toNat % 2 ^ 63) : ℚ) / 2 ^ 1074)).trans ?_
  · rw [bits_mod, magnitude_eq x.fraction_lt]
    split_ifs with hzero hsmall
    · rfl
    · rw [Nat.cast_mul, Nat.cast_pow, div_eq_div_iff (by positivity) (by positivity), mul_assoc,
        Nat.cast_two, ← pow_add]
      congr 2
      omega
    · rw [Nat.cast_mul, Nat.cast_pow, eq_div_iff (by positivity), mul_assoc, Nat.cast_two,
        ← pow_add]
      congr 2
      omega
  · rw [order]
    split
    · rw [units_neg, units_natCast, Int.cast_neg, Int.cast_natCast, neg_div]
    · rw [units_natCast, Int.cast_natCast]

/-- Only the two zeros share their place. -/
theorem order_eq_iff {x y : F64} :
    (x.isZero = true ∧ y.isZero = true) ∨ x = y ↔ x.order = y.order := by
  have hzero : ∀ z : F64, z.isZero = true ↔ z.bits.toNat % 2 ^ 63 = 0 := by
    intro z
    rw [isZero, decide_eq_true_eq, bits_mod]
    omega
  have hbits : x = y ↔ x.bits.toNat = y.bits.toNat := by
    rw [F64.mk.injEq, UInt64.toNat_inj]
  have hx := x.bits.toNat_lt
  have hy := y.bits.toNat_lt
  rw [hzero, hzero, hbits, order, order, isNegative, isNegative]
  split <;> split <;> simp only [decide_eq_true_eq] at * <;> omega

/-- On finite doubles `<` is that of the numbers. -/
theorem lt_iff {x y : F64} (hx : x.isFinite = true) (hy : y.isFinite = true) :
    x.lt y = true ↔ x.toRat < y.toRat := by
  have hunits : x.order < y.order ↔ (units x.order : ℚ) < units y.order := by
    rw [Int.cast_lt]
    exact strictMono_units.lt_iff_lt.symm
  rw [lt, not_isNan_of_isFinite hx, not_isNan_of_isFinite hy, toRat_eq, toRat_eq,
    div_lt_div_iff_of_pos_right (by positivity), ← hunits]
  simp

/-- On finite doubles `==` is that of the numbers. -/
theorem eq_iff {x y : F64} (hx : x.isFinite = true) (hy : y.isFinite = true) :
    x.eq y = true ↔ x.toRat = y.toRat := by
  have hunits : x.toRat = y.toRat ↔ x.order = y.order := by
    rw [toRat_eq, toRat_eq, div_left_inj' (by positivity), Int.cast_inj]
    exact strictMono_units.injective.eq_iff
  rw [hunits, ← order_eq_iff, eq, not_isNan_of_isFinite hx, not_isNan_of_isFinite hy]
  simp

end F64

end Ftwdb
