import Ftwdb.Lib.Postcard

/-!
# Variable-length numbers, read byte by byte

`readGroups` reads the groups of seven bits that `writeVarint` writes, with an
accumulator of 128 bits and a bound on the number of bytes, and names the reason
where it stops.  It takes delimited groups whose number fits, and nothing else
(`readGroups_eq_ok`).  `foldSign` folds signed numbers onto unsigned ones with
shifts, one for one.
-/

namespace ByteCodec

/-! ## Signs -/

/-- `0, -1, 1, -2, …` onto `0, 1, 2, 3, …`, by moving the sign to the lowest bit. -/
def foldSign (v : Int64) : UInt64 := (v.toUInt64 <<< 1) ^^^ (v >>> 63).toUInt64

/-- The inverse of `foldSign`, on bits. -/
def unfoldSign (n : UInt64) : Int64 := (n >>> 1).toInt64 ^^^ -(n &&& 1).toInt64

/-- All bits are the sign. -/
theorem sshiftRight_last (x : BitVec 64) :
    x.sshiftRight 63 = if x.msb then BitVec.allOnes 64 else 0#64 := by
  apply BitVec.eq_of_getLsbD_eq
  intro i hi
  have hbit : (x.sshiftRight 63).getLsbD i = x.msb := by
    rw [BitVec.getLsbD_sshiftRight, BitVec.msb_eq_getLsbD_last]
    by_cases h : i = 0
    · simp [h]
    · have hover : ¬ 63 + i < 64 := by omega
      simp [hover, hi]
  rw [hbit]
  cases x.msb with
  | false => simp
  | true => rw [if_pos rfl, BitVec.getLsbD_allOnes, decide_eq_true hi]

theorem unfold_fold_bits (x : BitVec 64) :
    (((x <<< 1) ^^^ x.sshiftRight 63) >>> 1) ^^^ -(((x <<< 1) ^^^ x.sshiftRight 63) &&& 1#64) =
      x := by
  have heven : (x <<< 1) &&& 1#64 = 0#64 := by
    apply BitVec.eq_of_getLsbD_eq
    intro i hi
    by_cases h : i = 0 <;> simp [BitVec.getLsbD_one, h]
  have hodd : ~~~(x <<< 1) &&& 1#64 = 1#64 := by
    apply BitVec.eq_of_getLsbD_eq
    intro i hi
    by_cases h : i = 0 <;> simp [BitVec.getLsbD_one, h]
  have hlast : x.getLsbD 63 = x.msb := (BitVec.msb_eq_getLsbD_last x).symm
  rw [sshiftRight_last]
  -- the shift to the left loses the sign, which the other operand still has
  cases hsign : x.msb with
  | false =>
    rw [if_neg Bool.false_ne_true, BitVec.xor_zero, heven, BitVec.neg_zero, BitVec.xor_zero]
    apply BitVec.eq_of_getLsbD_eq
    intro i hi
    by_cases h : i = 63
    · rw [h, hlast, hsign]
      simp
    · have hshort : 1 + i < 64 := by omega
      simp [hi, hshort]
  | true =>
    have hneg : -(1#64) = BitVec.allOnes 64 := by decide
    rw [if_pos rfl, BitVec.xor_allOnes, hodd, hneg, BitVec.xor_allOnes]
    apply BitVec.eq_of_getLsbD_eq
    intro i hi
    by_cases h : i = 63
    · rw [h, hlast, hsign]
      simp
    · have hshort : 1 + i < 64 := by omega
      simp [hi, hshort]

@[simp] theorem unfoldSign_foldSign (v : Int64) : unfoldSign (foldSign v) = v := by
  apply Int64.toBitVec_inj.mp
  simpa [unfoldSign, foldSign] using unfold_fold_bits v.toBitVec

theorem fold_unfold_bits (x : BitVec 64) :
    (((x >>> 1) ^^^ -(x &&& 1#64)) <<< 1) ^^^ ((x >>> 1) ^^^ -(x &&& 1#64)).sshiftRight 63 = x := by
  have hbit : x &&& 1#64 = if x[0] then 1#64 else 0#64 := by
    apply BitVec.eq_of_getLsbD_eq
    intro i hi
    by_cases h : i = 0
    · subst h
      cases hlow : x[0] <;> simp [hlow]
    · cases x[0] <;> simp [BitVec.getLsbD_one, h]
  have hneg : -(1#64) = BitVec.allOnes 64 := by decide
  rw [hbit, sshiftRight_last]
  cases hlow : x[0] with
  | false =>
    have hmsb : (x >>> 1).msb = false := by simp [BitVec.msb_eq_getLsbD_last]
    rw [if_neg Bool.false_ne_true, BitVec.neg_zero, BitVec.xor_zero, hmsb,
      if_neg Bool.false_ne_true, BitVec.xor_zero]
    apply BitVec.eq_of_getLsbD_eq
    intro i hi
    by_cases h : i = 0
    · subst h
      simp [hlow]
    · have hback : 1 + (i - 1) = i := by omega
      simp [hi, h, hback]
  | true =>
    have hmsb : (~~~(x >>> 1)).msb = true := by simp [BitVec.msb_eq_getLsbD_last]
    rw [if_pos rfl, hneg, BitVec.xor_allOnes, hmsb, if_pos rfl, BitVec.xor_allOnes]
    apply BitVec.eq_of_getLsbD_eq
    intro i hi
    by_cases h : i = 0
    · subst h
      simp [hlow]
    · have hback : 1 + (i - 1) = i := by omega
      simp [hi, h, hback]

@[simp] theorem foldSign_unfoldSign (n : UInt64) : foldSign (unfoldSign n) = n := by
  apply UInt64.toBitVec_inj.mp
  simpa [unfoldSign, foldSign] using fold_unfold_bits n.toBitVec

/-! ## Groups -/

/-- Why no number was read. -/
inductive VarintFault where
  | truncated
  | overflow
  | tooLong
deriving DecidableEq

/-- The loop behind `index` groups that gave `value`; at most `left` more bytes. -/
def readGroupsFrom : Nat → Nat → Nat → Bytes → Except VarintFault (Nat × Bytes)
  | 0, _, _, _ => .error .tooLong
  | _ + 1, _, _, [] => .error .truncated
  | left + 1, index, value, byte :: rest =>
    let bits := byte.toNat % 128
    let shift := index * 7
    if 128 ≤ shift ∨ (shift = 126 ∧ 3 < bits) then .error .overflow
    else if byte.toNat < 128 then .ok (value ||| bits <<< shift, rest)
    else readGroupsFrom left (index + 1) (value ||| bits <<< shift) rest

/-- A number of at most `most` bytes and 128 bits at the front of `source`. -/
def readGroups (most : Nat) (source : Bytes) : Except VarintFault (Nat × Bytes) :=
  readGroupsFrom most 0 0 source

/-- Bits above the ones that are there are added. -/
theorem or_shiftLeft {value : Nat} (bits : Nat) {index : Nat} (h : value < 2 ^ (index * 7)) :
    value ||| bits <<< (index * 7) = value + bits * 2 ^ (index * 7) := by
  rw [Nat.or_comm, ← Nat.shiftLeft_add_eq_or_of_lt h, Nat.shiftLeft_eq, Nat.add_comm]

/-- The number that groups stand for, lowest first. -/
def groupsValue : Bytes → Nat
  | [] => 0
  | b :: bs => b.toNat % 128 + 128 * groupsValue bs

/-- Exactly the last of the bytes has its high bit clear. -/
def Delimited : Bytes → Prop
  | [] => False
  | b :: bs => if b.toNat < 128 then bs = [] else Delimited bs

theorem exists_last_of_delimited {groups : Bytes} (h : Delimited groups) :
    ∃ b ∈ groups, b.toNat < 128 := by
  induction groups with
  | nil => cases h
  | cons b bs ih =>
    rw [Delimited] at h
    split at h
    · next hlast => exact ⟨b, List.mem_cons_self, hlast⟩
    · obtain ⟨b', hmem, hlast⟩ := ih h
      exact ⟨b', List.mem_cons_of_mem b hmem, hlast⟩

theorem exists_cons_of_delimited {byte : UInt8} {tail rest groups : Bytes}
    (h : byte :: tail = groups ++ rest) (hgroups : Delimited groups) :
    ∃ more, groups = byte :: more ∧ tail = more ++ rest := by
  cases groups with
  | nil => cases hgroups
  | cons b more =>
    obtain ⟨rfl, rfl⟩ := List.cons.inj h
    exact ⟨more, rfl, rfl⟩

/-- The loop takes delimited groups whose number has at most 128 bits, and nothing else. -/
theorem readGroupsFrom_eq_ok {left index value n : Nat} {source rest : Bytes}
    (hindex : index + left ≤ 19) (hvalue : value < 2 ^ (index * 7)) :
    readGroupsFrom left index value source = .ok (n, rest) ↔ ∃ groups, source = groups ++ rest ∧
      Delimited groups ∧ groups.length ≤ left ∧ n = value + groupsValue groups * 2 ^ (index * 7) ∧
      n < 2 ^ 128 := by
  induction left generalizing index value source with
  | zero =>
    constructor
    · intro h
      cases h
    · rintro ⟨groups, -, hgroups, hlength, -⟩
      obtain rfl := List.length_eq_zero_iff.mp (Nat.le_zero.mp hlength)
      cases hgroups
  | succ left ih =>
    cases source with
    | nil =>
      constructor
      · intro h
        cases h
      · rintro ⟨groups, hnil, hgroups, -⟩
        obtain ⟨rfl, -⟩ := List.append_eq_nil_iff.mp hnil.symm
        cases hgroups
    | cons byte tail =>
      have hbits : byte.toNat % 128 < 128 := Nat.mod_lt _ (by decide)
      have hshift : ¬ 128 ≤ index * 7 := by omega
      have hstep : 2 ^ ((index + 1) * 7) = 2 ^ (index * 7) * 128 := by
        rw [Nat.add_mul, Nat.pow_add]
      have hnext : value + byte.toNat % 128 * 2 ^ (index * 7) < 2 ^ ((index + 1) * 7) := by
        have hlow : (byte.toNat % 128 + 1) * 2 ^ (index * 7) ≤ 128 * 2 ^ (index * 7) :=
          Nat.mul_le_mul_right _ hbits
        rw [hstep, Nat.mul_comm _ 128]
        rw [Nat.add_mul] at hlow
        omega
      have hcons : ∀ more, value + groupsValue (byte :: more) * 2 ^ (index * 7) =
          value + byte.toNat % 128 * 2 ^ (index * 7) +
            groupsValue more * 2 ^ ((index + 1) * 7) := by
        intro more
        rw [groupsValue, hstep]
        ring
      simp only [readGroupsFrom, or_shiftLeft _ hvalue]
      by_cases hover : index * 7 = 126 ∧ 3 < byte.toNat % 128
      · -- the group reaches beyond the last bit
        rw [if_pos (.inr hover)]
        constructor
        · intro h
          cases h
        · rintro ⟨groups, hsource, hgroups, -, rfl, hsmall⟩
          obtain ⟨more, rfl, rfl⟩ := exists_cons_of_delimited hsource hgroups
          rw [hcons, hover.1] at hsmall
          omega
      rw [if_neg (not_or.mpr ⟨hshift, hover⟩)]
      by_cases hlast : byte.toNat < 128
      · rw [if_pos hlast, Except.ok.injEq, Prod.mk.injEq]
        constructor
        · rintro ⟨rfl, rfl⟩
          refine ⟨[byte], rfl, ?_, Nat.succ_le_succ (Nat.zero_le left), ?_, ?_⟩
          · rw [Delimited, if_pos hlast]
          · rw [hcons, groupsValue, Nat.zero_mul, Nat.add_zero]
          · by_cases hend : index * 7 = 126
            · rw [hend] at hvalue ⊢
              omega
            · exact Nat.lt_of_lt_of_le hnext (Nat.pow_le_pow_right (by decide) (by omega))
        · rintro ⟨groups, hsource, hgroups, -, rfl, -⟩
          obtain ⟨more, rfl, rfl⟩ := exists_cons_of_delimited hsource hgroups
          rw [Delimited, if_pos hlast] at hgroups
          subst hgroups
          rw [hcons, groupsValue, Nat.zero_mul, Nat.add_zero]
          exact ⟨rfl, rfl⟩
      · rw [if_neg hlast, ih (by omega) hnext]
        constructor
        · rintro ⟨more, rfl, hmore, hlength, rfl, hsmall⟩
          refine ⟨byte :: more, rfl, ?_, Nat.succ_le_succ hlength, (hcons more).symm, hsmall⟩
          rwa [Delimited, if_neg hlast]
        · rintro ⟨groups, hsource, hgroups, hlength, rfl, hsmall⟩
          obtain ⟨more, rfl, rfl⟩ := exists_cons_of_delimited hsource hgroups
          rw [Delimited, if_neg hlast] at hgroups
          exact ⟨more, rfl, hgroups, Nat.le_of_succ_le_succ hlength, hcons more, hsmall⟩

theorem readGroups_eq_ok {most n : Nat} {source rest : Bytes} (hmost : most ≤ 19) :
    readGroups most source = .ok (n, rest) ↔ ∃ groups, source = groups ++ rest ∧
      Delimited groups ∧ groups.length ≤ most ∧ n = groupsValue groups ∧ n < 2 ^ 128 := by
  rw [readGroups, readGroupsFrom_eq_ok (by omega) (by decide)]
  simp

/-- What the first group leaves to the others. -/
theorem high_of_large {left n : Nat} (hn : n < 128 ^ (left + 1)) (hlarge : ¬ n < 128) :
    0 < left ∧ n / 128 < 128 ^ left := by
  constructor
  · rcases Nat.eq_zero_or_pos left with rfl | hleft
    · omega
    · exact hleft
  · rw [Nat.div_lt_iff_lt_mul (by decide), ← Nat.pow_succ]
    exact hn

theorem writeVarint_delimited {left n : Nat} (hpos : 0 < left) (hn : n < 128 ^ left) :
    Delimited (writeVarint left n) ∧ groupsValue (writeVarint left n) = n := by
  induction left generalizing n with
  | zero => cases hpos
  | succ left ih =>
    rw [writeVarint]
    split
    · next hsmall =>
      have hbyte : (UInt8.ofNat n).toNat = n := by
        rw [UInt8.toNat_ofNat']
        exact Nat.mod_eq_of_lt (by omega)
      constructor
      · rw [Delimited, hbyte, if_pos hsmall]
      · rw [groupsValue, groupsValue, hbyte]
        omega
    · next hlarge =>
      have hbyte : (UInt8.ofNat (n % 128 + 128)).toNat = n % 128 + 128 := by
        rw [UInt8.toNat_ofNat']
        exact Nat.mod_eq_of_lt (by omega)
      obtain ⟨hleft, hhigh⟩ := high_of_large hn hlarge
      obtain ⟨hdelimited, hvalue⟩ := ih hleft hhigh
      constructor
      · rw [Delimited, hbyte, if_neg (by omega)]
        exact hdelimited
      · rw [groupsValue, hbyte, hvalue]
        omega

/-- The loop stops at the number, not at its limit. -/
theorem writeVarint_of_le {left more n : Nat} (hpos : 0 < left) (hn : n < 128 ^ left)
    (hle : left ≤ more) : writeVarint more n = writeVarint left n := by
  induction left generalizing more n with
  | zero => cases hpos
  | succ left ih =>
    obtain ⟨more, rfl⟩ := Nat.exists_eq_succ_of_ne_zero (by omega : more ≠ 0)
    rw [writeVarint, writeVarint]
    split
    · rfl
    · next hlarge =>
      obtain ⟨hleft, hhigh⟩ := high_of_large hn hlarge
      rw [ih hleft hhigh (Nat.le_of_succ_le_succ hle)]

theorem readGroups_writeVarint (rest : Bytes) {most n : Nat} (hpos : 0 < most) (hmost : most ≤ 19)
    (hn : n < 128 ^ most) (hbits : n < 2 ^ 128) :
    readGroups most (writeVarint most n ++ rest) = .ok (n, rest) := by
  obtain ⟨hdelimited, hvalue⟩ := writeVarint_delimited hpos hn
  exact (readGroups_eq_ok hmost).mpr
    ⟨_, rfl, hdelimited, length_writeVarint_le most n, hvalue.symm, hbits⟩

end ByteCodec
