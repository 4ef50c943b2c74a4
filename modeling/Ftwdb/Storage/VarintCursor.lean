import Ftwdb.Storage.Columns

/-!
# Numbers at a cursor

The readers of `segment.rs` move a cursor over a whole column.  `readGroupsAt` is
their loop; it agrees with the readers of the column codec, which keep the bytes
that are left instead (`readGroupsAt_eq`).  What a reader makes of arbitrary bytes
is then a property of the groups behind the cursor (`Exact`): it takes them if
they are delimited within the limit and stand for a number that fits, and stops
with an error otherwise.
-/

namespace Ftwdb

open ByteCodec Check List

namespace StoredSegment

/-! ## The loop -/

/-- `read_unsigned_u128_limited`, behind `index` groups that gave `value`. -/
def readGroupsAt (source : Bytes) : Nat → Nat → Nat → Nat → Except VarintFault (Nat × Nat)
  | 0, _, _, _ => .error .tooLong
  | left + 1, index, value, cursor =>
    match source[cursor]? with
    | none => .error .truncated
    | some byte =>
      let bits := byte.toNat % 128
      let shift := index * 7
      if 128 ≤ shift ∨ (shift = 126 ∧ 3 < bits) then .error .overflow
      else if byte.toNat < 128 then .ok (value ||| bits <<< shift, cursor + 1)
      else readGroupsAt source left (index + 1) (value ||| bits <<< shift) (cursor + 1)

/-- The cursor stands in front of the bytes that are left. -/
theorem readGroupsAt_eq (source : Bytes) (left index value cursor : Nat) :
    readGroupsAt source left index value cursor =
      (readGroupsFrom left index value (source.drop cursor)).map fun p =>
        (p.1, source.length - p.2.length) := by
  induction left generalizing index value cursor with
  | zero => rfl
  | succ left ih =>
    rw [readGroupsAt]
    cases hget : source[cursor]? with
    | none =>
      have hend : source.length ≤ cursor := List.getElem?_eq_none_iff.mp hget
      rw [drop_eq_nil_of_le hend]
      rfl
    | some byte =>
      obtain ⟨hlt, hbyte⟩ := List.getElem?_eq_some_iff.mp hget
      rw [drop_eq_getElem_cons hlt, hbyte, readGroupsFrom]
      simp only
      split
      · rfl
      split
      · show _ = Except.ok (_, source.length - (source.drop (cursor + 1)).length)
        rw [length_drop, show source.length - (source.length - (cursor + 1)) = cursor + 1 by
          omega]
      · exact ih (index + 1) _ (cursor + 1)

variable {source : Bytes} {cursor next offset : Nat}

/-- No byte at or behind `cursor + left` is looked at. -/
theorem readGroupsAt_congr {other : Bytes} {left index value : Nat}
    (h : source.take (cursor + left) = other.take (cursor + left)) :
    readGroupsAt source left index value cursor = readGroupsAt other left index value cursor := by
  induction left generalizing index value cursor with
  | zero => rfl
  | succ left ih =>
    have hget : source[cursor]? = other[cursor]? := by
      have hboth := congrArg (fun l => l[cursor]?) h
      simpa [getElem?_take] using hboth
    rw [readGroupsAt, readGroupsAt, hget]
    have hrest : source.take (cursor + 1 + left) = other.take (cursor + 1 + left) := by
      rwa [Nat.add_right_comm]
    simp only [ih hrest]

/-! ## The readers -/

/-- `read_unsigned_u128` at a cursor. -/
def readUnsignedU128At (offset : Nat) (source : Bytes) (cursor : Nat) :
    Except Error (U128 × Nat) := do
  let (value, cursor) ← (readGroupsAt source 19 0 0 cursor).mapError (varintError offset)
  .ok (BitVec.ofNat 128 value, cursor)

/-- `read_unsigned_u64` at a cursor. -/
def readUnsignedU64At (offset : Nat) (source : Bytes) (cursor : Nat) :
    Except Error (UInt64 × Nat) := do
  let (value, cursor) ← (readGroupsAt source 10 0 0 cursor).mapError (varintError offset)
  failIf (2 ^ 64 ≤ value) (Error.corruption offset "u64 varint overflows")
  .ok (UInt64.ofNat value, cursor)

/-- `read_signed` at a cursor. -/
def readSignedAt (offset : Nat) (source : Bytes) (cursor : Nat) : Except Error (Int64 × Nat) := do
  let (value, cursor) ← readUnsignedU64At offset source cursor
  .ok (unfoldSign value, cursor)

/-! ## What a reader takes -/

theorem readGroupsAt_eq_ok {most n : Nat} (hmost : most ≤ 19) :
    readGroupsAt source most 0 0 cursor = .ok (n, next) ↔ ∃ groups rest,
      source.drop cursor = groups ++ rest ∧ Delimited groups ∧ groups.length ≤ most ∧
      groupsValue groups = n ∧ n < 2 ^ 128 ∧ next = cursor + groups.length := by
  -- the cursor behind the groups, counted from the end
  have hnext : ∀ {groups rest : Bytes}, source.drop cursor = groups ++ rest → Delimited groups →
      source.length - rest.length = cursor + groups.length := by
    intro groups rest hsource hgroups
    have hpos : 0 < groups.length := by
      obtain ⟨b, hb, -⟩ := exists_last_of_delimited hgroups
      exact length_pos_of_mem hb
    have hlength := congrArg List.length hsource
    rw [length_drop, length_append] at hlength
    omega
  rw [readGroupsAt_eq, map_eq_ok]
  constructor
  · rintro ⟨⟨n', rest⟩, hread, heq⟩
    obtain ⟨groups, hsource, hgroups, hlength, hvalue, hsmall⟩ := (readGroups_eq_ok hmost).mp hread
    cases heq
    exact ⟨groups, rest, hsource, hgroups, hlength, hvalue.symm, hsmall, hnext hsource hgroups⟩
  · rintro ⟨groups, rest, hsource, hgroups, hlength, hvalue, hsmall, rfl⟩
    refine ⟨(n, rest), (readGroups_eq_ok hmost).mpr ?_, ?_⟩
    · exact ⟨groups, hsource, hgroups, hlength, hvalue.symm, hsmall⟩
    · exact Prod.ext rfl (hnext hsource hgroups)

/-- A writer and a reader at a cursor, for numbers of `width` bits in at most `most` bytes. -/
structure Exact {α : Type} (write : α → Bytes) (read : Bytes → Nat → Except Error (α × Nat))
    (most width : Nat) (number : α → Nat) : Prop where
  -- the writer's loop ends at the number, whatever limit it is given
  write_eq : ∀ a limit, most ≤ limit → write a = writeVarint limit (number a)
  length_pos : ∀ a, 0 < (write a).length
  length_le : ∀ a, (write a).length ≤ most
  read_write : ∀ before a after, read (before ++ write a ++ after) before.length =
    .ok (a, before.length + (write a).length)
  read_eq_ok : ∀ source cursor a next, read source cursor = .ok (a, next) ↔ ∃ groups rest,
    source.drop cursor = groups ++ rest ∧ Delimited groups ∧ groups.length ≤ most ∧
      groupsValue groups = number a ∧ next = cursor + groups.length
  unfinished : ∀ source cursor, (∀ b ∈ (source.drop cursor).take most, 128 ≤ b.toNat) →
    ∃ e, read source cursor = .error e
  oversized : ∀ source cursor groups rest, source.drop cursor = groups ++ rest →
    Delimited groups → 2 ^ width ≤ groupsValue groups → ∃ e, read source cursor = .error e
  bounded : ∀ source other cursor, source.take (cursor + most) = other.take (cursor + most) →
    read source cursor = read other cursor

/-- Two readings of the same bytes take the same groups. -/
theorem eq_of_delimited {groups groups' rest rest' : Bytes} (hgroups : Delimited groups)
    (hgroups' : Delimited groups') (h : groups ++ rest = groups' ++ rest') : groups = groups' := by
  induction groups generalizing groups' with
  | nil => cases hgroups
  | cons byte more ih =>
    obtain ⟨more', rfl, hmore⟩ := exists_cons_of_delimited h hgroups'
    rw [Delimited] at hgroups hgroups'
    split at hgroups
    · next hlast =>
      rw [if_pos hlast] at hgroups'
      rw [hgroups, hgroups']
    · next hlast =>
      rw [if_neg hlast] at hgroups'
      rw [ih hgroups hgroups' hmore]

theorem Exact.of_groups {α : Type} {write : α → Bytes} {read : Bytes → Nat → Except Error (α × Nat)}
    {most width : Nat} {number : α → Nat} (hpos : 0 < most) (hmost : most ≤ 19)
    (hwidth : width ≤ 128) (hfits : 2 ^ width ≤ 128 ^ most)
    (hnumber : ∀ a, number a < 2 ^ width)
    (hwrite : ∀ a, write a = writeVarint most (number a))
    (hread : ∀ source cursor a next, read source cursor = .ok (a, next) ↔
      readGroupsAt source most 0 0 cursor = .ok (number a, next))
    (hbounded : ∀ source other cursor,
      readGroupsAt source most 0 0 cursor = readGroupsAt other most 0 0 cursor →
      read source cursor = read other cursor) : Exact write read most width number := by
  have hsmall : ∀ a, number a < 2 ^ 128 := fun a =>
    Nat.lt_of_lt_of_le (hnumber a) (Nat.pow_le_pow_right (by decide) hwidth)
  have htakes : ∀ source cursor a next, read source cursor = .ok (a, next) ↔ ∃ groups rest,
      source.drop cursor = groups ++ rest ∧ Delimited groups ∧ groups.length ≤ most ∧
        groupsValue groups = number a ∧ next = cursor + groups.length := by
    intro source cursor a next
    rw [hread, readGroupsAt_eq_ok hmost]
    simp only [hsmall a, true_and]
  have hwritten : ∀ a, Delimited (write a) ∧ groupsValue (write a) = number a := by
    intro a
    rw [hwrite]
    exact writeVarint_delimited hpos (Nat.lt_of_lt_of_le (hnumber a) hfits)
  have hlength : ∀ a, (write a).length ≤ most := by
    intro a
    rw [hwrite]
    exact length_writeVarint_le most _
  constructor
  case write_eq =>
    intro a limit hlimit
    rw [hwrite, writeVarint_of_le hpos (Nat.lt_of_lt_of_le (hnumber a) hfits) hlimit]
  case length_pos =>
    intro a
    rw [hwrite]
    exact writeVarint_pos hpos
  case length_le => exact hlength
  case read_write =>
    intro before a after
    rw [htakes]
    refine ⟨write a, after, ?_, (hwritten a).1, hlength a, (hwritten a).2, rfl⟩
    rw [append_assoc, drop_left]
  case read_eq_ok => exact htakes
  case unfinished =>
    intro source cursor hcontinue
    apply exists_error_of_ne_ok
    rintro ⟨a, next⟩ hok
    obtain ⟨groups, rest, hsource, hgroups, hle, -⟩ := (htakes source cursor a next).mp hok
    obtain ⟨b, hb, hlast⟩ := exists_last_of_delimited hgroups
    have hmem : b ∈ (source.drop cursor).take most := by
      rw [hsource, take_append, take_of_length_le hle]
      exact mem_append_left _ hb
    exact absurd hlast (Nat.not_lt.mpr (hcontinue b hmem))
  case oversized =>
    intro source cursor groups rest hsource hgroups hlarge
    apply exists_error_of_ne_ok
    rintro ⟨a, next⟩ hok
    obtain ⟨groups', rest', hsource', hgroups', -, hvalue, -⟩ :=
      (htakes source cursor a next).mp hok
    obtain rfl := eq_of_delimited hgroups hgroups' (hsource.symm.trans hsource')
    rw [hvalue] at hlarge
    exact absurd (hnumber a) (Nat.not_lt.mpr hlarge)
  case bounded =>
    intro source other cursor hsame
    exact hbounded source other cursor (readGroupsAt_congr hsame)

theorem readUnsignedU64At_eq_ok {v : UInt64} :
    readUnsignedU64At offset source cursor = .ok (v, next) ↔
      readGroupsAt source 10 0 0 cursor = .ok (v.toNat, next) := by
  simp only [readUnsignedU64At, bind_eq_ok, mapError_eq_ok, failIf_eq_ok, Prod.exists]
  constructor
  · rintro ⟨n, cursor', hread, _, hsmall, heq⟩
    cases heq
    rwa [UInt64.toNat_ofNat_of_lt' (Nat.not_le.mp hsmall)]
  · intro hread
    refine ⟨v.toNat, next, hread, (), Nat.not_le.mpr v.toNat_lt, ?_⟩
    rw [UInt64.ofNat_toNat]

theorem readUnsignedU128At_eq_ok {v : U128} :
    readUnsignedU128At offset source cursor = .ok (v, next) ↔
      readGroupsAt source 19 0 0 cursor = .ok (v.toNat, next) := by
  simp only [readUnsignedU128At, bind_eq_ok, mapError_eq_ok, Prod.exists]
  constructor
  · rintro ⟨n, cursor', hread, heq⟩
    cases heq
    obtain ⟨-, -, -, -, -, -, hsmall, -⟩ := (readGroupsAt_eq_ok (Nat.le_refl 19)).mp hread
    rwa [BitVec.toNat_ofNat, Nat.mod_eq_of_lt hsmall]
  · intro hread
    refine ⟨v.toNat, next, hread, ?_⟩
    rw [BitVec.ofNat_toNat, BitVec.setWidth_eq]

theorem readSignedAt_eq_ok {v : Int64} :
    readSignedAt offset source cursor = .ok (v, next) ↔
      readGroupsAt source 10 0 0 cursor = .ok ((foldSign v).toNat, next) := by
  rw [← readUnsignedU64At_eq_ok, readSignedAt, bind_eq_ok]
  constructor
  · rintro ⟨⟨n, cursor'⟩, hread, heq⟩
    cases heq
    rwa [foldSign_unfoldSign]
  · intro hread
    refine ⟨(foldSign v, next), hread, ?_⟩
    show Except.ok (unfoldSign (foldSign v), next) = _
    rw [unfoldSign_foldSign]

/-- Numbers of 64 bits, of 128 bits and with a sign are read back where they were written, and the
readers take nothing that does not stand for such a number. -/
theorem varints_exact (offset : Nat) :
    Exact writeUnsignedU64 (readUnsignedU64At offset) 10 64 UInt64.toNat ∧
      Exact writeUnsignedU128 (readUnsignedU128At offset) 19 128 BitVec.toNat ∧
      Exact writeSigned (readSignedAt offset) 10 64 (fun v => (foldSign v).toNat) ∧
      Function.Bijective foldSign ∧ Function.LeftInverse unfoldSign foldSign ∧
      Function.RightInverse unfoldSign foldSign := by
  refine ⟨?_, ?_, ?_, ?_, unfoldSign_foldSign, foldSign_unfoldSign⟩
  · exact .of_groups (by decide) (by decide) (by decide) (by decide) UInt64.toNat_lt
      (fun _ => rfl) (fun _ _ _ _ => readUnsignedU64At_eq_ok)
      fun _ _ _ hsame => by rw [readUnsignedU64At, readUnsignedU64At, hsame]
  · exact .of_groups (by decide) (by decide) (by decide) (by decide) BitVec.isLt
      (fun _ => rfl) (fun _ _ _ _ => readUnsignedU128At_eq_ok)
      fun _ _ _ hsame => by rw [readUnsignedU128At, readUnsignedU128At, hsame]
  · exact .of_groups (by decide) (by decide) (by decide) (by decide)
      (fun v => (foldSign v).toNat_lt)
      (fun _ => rfl) (fun _ _ _ _ => readSignedAt_eq_ok)
      fun _ _ _ hsame => by
        rw [readSignedAt, readSignedAt, readUnsignedU64At, readUnsignedU64At, hsame]
  · exact ⟨Function.LeftInverse.injective unfoldSign_foldSign,
      Function.RightInverse.surjective foldSign_unfoldSign⟩

end StoredSegment

end Ftwdb
