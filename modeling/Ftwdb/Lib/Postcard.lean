import Ftwdb.Lib.Bytes
import Std.Data.ExtTreeMap

/-!
# Self-delimiting codecs

A `Codec` is a writer and a reader for one type.  The reader takes one value
from the front of a byte string and returns the rest, and the law every codec
carries is that it takes back exactly what the writer put there.  The law is
asked only of encodings a 64-bit machine can hold, since a length is written as
a 64-bit number.

The combinators follow the compact serde format postcard: unsigned numbers in
groups of seven bits, signed numbers folded onto the unsigned ones, an option
and an enumeration behind a tag, sequences, strings and maps behind a length,
and records as their fields in order.
-/

namespace ByteCodec

open List

/-- A writer and a reader that undo each other on every encoding of less than
`2 ^ 64` bytes.  No value is written as the empty string. -/
structure Codec (α : Type) where
  encode : α → Bytes
  decode : Bytes → Option (α × Bytes)
  encode_pos : ∀ a, 0 < (encode a).length
  decode_encode : ∀ a rest, (encode a).length < 2 ^ 64 →
    decode (encode a ++ rest) = some (a, rest)

namespace Codec

variable {α β : Type}

/-- A whole message: a value at the front, whatever follows it. -/
def fromBytes (c : Codec α) (bs : Bytes) : Option α := (c.decode bs).map Prod.fst

/-- What a codec writes, it reads back. -/
theorem fromBytes_encode (c : Codec α) (a : α) (h : (c.encode a).length < 2 ^ 64) :
    c.fromBytes (c.encode a) = some a := by
  have hd := c.decode_encode a [] h
  rw [append_nil] at hd
  rw [fromBytes, hd, Option.map_some]

/-! ## Variable-length numbers -/

end Codec

/-- The groups of seven bits of `n`, lowest first, at most `k` of them.  Every
byte but the last one has its high bit set. -/
def writeVarint : Nat → Nat → Bytes
  | 0, _ => []
  | k + 1, n =>
    if n < 128 then [UInt8.ofNat n] else UInt8.ofNat (n % 128 + 128) :: writeVarint k (n / 128)

/-- A number of at most `k` groups, the `k`-th of which is at most `last`. -/
def readVarint (last : Nat) : Nat → Bytes → Option (Nat × Bytes)
  | 0, _ => none
  | _ + 1, [] => none
  | k + 1, b :: rest =>
    if b.toNat < 128 then
      if k = 0 ∧ last < b.toNat then none else some (b.toNat, rest)
    else
      match readVarint last k rest with
      | none => none
      | some (high, rest') => some (b.toNat - 128 + 128 * high, rest')

theorem writeVarint_pos {k n : Nat} (h : 0 < k) : 0 < (writeVarint k n).length := by
  obtain ⟨j, rfl⟩ := Nat.exists_eq_succ_of_ne_zero (Nat.pos_iff_ne_zero.mp h)
  rw [writeVarint]
  split <;> simp

theorem length_writeVarint_le (k n : Nat) : (writeVarint k n).length ≤ k := by
  induction k generalizing n with
  | zero => simp [writeVarint]
  | succ k ih =>
    have hrest := ih (n / 128)
    rw [writeVarint]
    split
    · simp
    · simpa using hrest

/-- A number is read back if the last group has room for its rest. -/
theorem readVarint_writeVarint (last : Nat) (hlast : last < 128) (rest : Bytes) :
    ∀ (k n : Nat), n < 128 ^ k * (last + 1) →
      readVarint last (k + 1) (writeVarint (k + 1) n ++ rest) = some (n, rest) := by
  intro k
  induction k with
  | zero =>
    intro n hn
    have hsmall : n < 128 := by omega
    have hbyte : (UInt8.ofNat n).toNat = n := by
      rw [UInt8.toNat_ofNat']
      exact Nat.mod_eq_of_lt (by omega)
    have hlow : ¬ last < n := by omega
    simp [writeVarint, readVarint, hsmall, hbyte, hlow]
  | succ k ih =>
    intro n hn
    by_cases hsmall : n < 128
    · have hbyte : (UInt8.ofNat n).toNat = n := by
        rw [UInt8.toNat_ofNat']
        exact Nat.mod_eq_of_lt (by omega)
      simp [writeVarint, readVarint, hsmall, hbyte]
    · have hbyte : (UInt8.ofNat (n % 128 + 128)).toNat = n % 128 + 128 := by
        rw [UInt8.toNat_ofNat']
        exact Nat.mod_eq_of_lt (by omega)
      have hhigh : n / 128 < 128 ^ k * (last + 1) := by
        rw [Nat.div_lt_iff_lt_mul (by decide)]
        calc n < 128 ^ (k + 1) * (last + 1) := hn
          _ = 128 ^ k * (last + 1) * 128 := by ring
      have hlow : ¬ n % 128 + 128 < 128 := by omega
      rw [writeVarint, if_neg hsmall, cons_append, readVarint, hbyte, if_neg hlow,
        ih (n / 128) hhigh]
      simp only [Option.some.injEq, Prod.mk.injEq, and_true]
      omega

namespace Codec

variable {α β : Type}

/-- The same bytes for another type.  Only `pack ∘ unpack` has to be the
identity: several readings may be packed into one value. -/
def iso (c : Codec α) (pack : α → β) (unpack : β → α) (h : ∀ b, pack (unpack b) = b) :
    Codec β where
  encode b := c.encode (unpack b)
  decode bs := (c.decode bs).map fun p => (pack p.1, p.2)
  encode_pos b := c.encode_pos (unpack b)
  decode_encode b rest hs := by
    rw [c.decode_encode (unpack b) rest hs, Option.map_some, h]

/-- Numbers below `128 ^ k * (last + 1)` in at most `k + 1` groups. -/
def varint (k last : Nat) (hlast : last < 128) : Codec (Fin (128 ^ k * (last + 1))) where
  encode n := writeVarint (k + 1) n.val
  decode bs := (readVarint last (k + 1) bs).bind fun p =>
    if h : p.1 < 128 ^ k * (last + 1) then some (⟨p.1, h⟩, p.2) else none
  encode_pos _ := writeVarint_pos (Nat.succ_pos k)
  decode_encode n rest _ := by
    rw [readVarint_writeVarint last hlast rest k n.val n.isLt]
    simp

/-- A `u32`, in at most five groups. -/
def u32 : Codec UInt32 :=
  (varint 4 15 (by decide)).iso (fun n => UInt32.ofNat n.val) (fun x => ⟨x.toNat, x.toNat_lt⟩)
    fun x => UInt32.ofNat_toNat

/-- A `u64`, in at most ten groups. -/
def u64 : Codec UInt64 :=
  (varint 9 1 (by decide)).iso (fun n => UInt64.ofNat n.val) (fun x => ⟨x.toNat, x.toNat_lt⟩)
    fun x => UInt64.ofNat_toNat

theorem length_u64_le (x : UInt64) : (u64.encode x).length ≤ 10 := length_writeVarint_le 10 _

/-- A `u128`, in at most nineteen groups. -/
def u128 : Codec (BitVec 128) :=
  (varint 18 3 (by decide)).iso (fun n => BitVec.ofNat 128 n.val) (fun x => ⟨x.toNat, x.isLt⟩)
    fun x => by simp

/-- The unsigned number a signed one is folded onto: `0, -1, 1, -2, …`. -/
def zigzag (x : Int64) : UInt64 :=
  if x < 0 then UInt64.ofNat (2 * (-x.toInt).toNat - 1) else UInt64.ofNat (2 * x.toInt.toNat)

/-- The inverse of `zigzag`. -/
def unzigzag (n : UInt64) : Int64 :=
  if n.toNat % 2 = 1 then Int64.ofInt (-((n.toNat + 1) / 2 : Nat))
  else Int64.ofInt (n.toNat / 2 : Nat)

theorem unzigzag_zigzag (x : Int64) : unzigzag (zigzag x) = x := by
  have hlo := x.le_toInt
  have hhi := x.toInt_lt
  by_cases hneg : x < 0
  · have hx : x.toInt < 0 := by simpa [Int64.lt_iff_toInt_lt] using hneg
    have hn : (zigzag x).toNat = 2 * (-x.toInt).toNat - 1 := by
      rw [zigzag, if_pos hneg, UInt64.toNat_ofNat']
      exact Nat.mod_eq_of_lt (by omega)
    have hback : (-(((2 * (-x.toInt).toNat - 1 + 1) / 2 : Nat) : Int)) = x.toInt := by omega
    rw [unzigzag, hn, if_pos (by omega), hback, Int64.ofInt_toInt]
  · have hx : 0 ≤ x.toInt := by
      have := mt Int64.lt_iff_toInt_lt.mpr hneg
      simpa using this
    have hn : (zigzag x).toNat = 2 * x.toInt.toNat := by
      rw [zigzag, if_neg hneg, UInt64.toNat_ofNat']
      exact Nat.mod_eq_of_lt (by omega)
    have hback : ((2 * x.toInt.toNat / 2 : Nat) : Int) = x.toInt := by omega
    rw [unzigzag, hn, if_neg (by omega), hback, Int64.ofInt_toInt]

/-- An `i64`, its sign folded into the lowest bit. -/
def i64 : Codec Int64 := u64.iso unzigzag zigzag unzigzag_zigzag

/-! ## Fixed-width values, tags and products -/

/-- One byte. -/
def u8 : Codec UInt8 where
  encode b := [b]
  decode
    | [] => none
    | b :: rest => some (b, rest)
  encode_pos _ := Nat.one_pos
  decode_encode _ _ _ := rfl

/-- Eight bytes, least significant first. -/
def bits64 : Codec UInt64 where
  encode := leU64
  decode bs := if bs.length < 8 then none else some (readU64 (bs.take 8), bs.drop 8)
  encode_pos x := by simp
  decode_encode x rest _ := by
    have hlen : (leU64 x).length = 8 := length_leU64 x
    have hlong : ¬ (leU64 x ++ rest).length < 8 := by
      rw [length_append, hlen]
      omega
    rw [if_neg hlong, ← hlen, take_left, drop_left, readU64_leU64]

/-- A value of a finite type behind its number. -/
def enum (tag : α → UInt32) (ofTag : UInt32 → Option α) (h : ∀ a, ofTag (tag a) = some a) :
    Codec α where
  encode a := u32.encode (tag a)
  decode bs := (u32.decode bs).bind fun p => (ofTag p.1).map fun a => (a, p.2)
  encode_pos a := u32.encode_pos (tag a)
  decode_encode a rest hs := by
    rw [u32.decode_encode (tag a) rest hs, Option.bind_some, h, Option.map_some]

/-- A value behind the number of its constructor.  `body` writes the
constructor's fields and `readBody` reads them for that number. -/
def variant (tag : α → UInt32) (body : α → Bytes) (readBody : UInt32 → Bytes → Option (α × Bytes))
    (h : ∀ a rest, (body a).length < 2 ^ 64 → readBody (tag a) (body a ++ rest) = some (a, rest)) :
    Codec α where
  encode a := u32.encode (tag a) ++ body a
  decode bs := (u32.decode bs).bind fun p => readBody p.1 p.2
  encode_pos a := by
    rw [length_append]
    exact Nat.add_pos_left (u32.encode_pos (tag a)) _
  decode_encode a rest hs := by
    rw [length_append] at hs
    rw [append_assoc, u32.decode_encode (tag a) _ (by omega), Option.bind_some]
    exact h a rest (by omega)

/-- Two values one after the other. -/
def pair (c : Codec α) (d : Codec β) : Codec (α × β) where
  encode p := c.encode p.1 ++ d.encode p.2
  decode bs := (c.decode bs).bind fun p => (d.decode p.2).map fun q => ((p.1, q.1), q.2)
  encode_pos p := by
    rw [length_append]
    exact Nat.add_pos_left (c.encode_pos p.1) _
  decode_encode p rest hs := by
    rw [length_append] at hs
    rw [append_assoc, c.decode_encode p.1 _ (by omega), Option.bind_some,
      d.decode_encode p.2 rest (by omega), Option.map_some]

/-- A tag, and the value if there is one. -/
def option (c : Codec α) : Codec (Option α) where
  encode
    | none => [0]
    | some a => 1 :: c.encode a
  decode
    | [] => none
    | b :: rest =>
      if b = 0 then some (none, rest)
      else if b = 1 then (c.decode rest).map fun p => (some p.1, p.2)
      else none
  encode_pos a := by cases a <;> simp
  decode_encode a rest hs := by
    cases a with
    | none => rfl
    | some a =>
      have hshort : (c.encode a).length < 2 ^ 64 := Nat.lt_of_succ_lt hs
      simp [c.decode_encode a rest hshort]

/-- One byte, zero or one. -/
def bool : Codec Bool where
  encode b := [if b then 1 else 0]
  decode
    | [] => none
    | b :: rest => if b = 0 then some (false, rest) else if b = 1 then some (true, rest) else none
  encode_pos _ := Nat.one_pos
  decode_encode b rest _ := by cases b <;> rfl

/-! ## Sequences -/

/-- `n` values one after the other. -/
def decodeMany (c : Codec α) : Nat → Bytes → Option (List α × Bytes)
  | 0, bs => some ([], bs)
  | n + 1, bs =>
    (c.decode bs).bind fun p => (c.decodeMany n p.2).map fun q => (p.1 :: q.1, q.2)

/-- The items of a list are read back one by one. -/
theorem decodeMany_flatMap (c : Codec α) (as : List α) (rest : Bytes)
    (hs : (as.flatMap c.encode).length < 2 ^ 64) :
    c.decodeMany as.length (as.flatMap c.encode ++ rest) = some (as, rest) := by
  induction as with
  | nil => rfl
  | cons a as ih =>
    rw [flatMap_cons, length_append] at hs
    rw [length_cons, flatMap_cons, append_assoc, decodeMany,
      c.decode_encode a _ (by omega), Option.bind_some, ih (by omega), Option.map_some]

theorem length_le_length_flatMap (c : Codec α) (as : List α) :
    as.length ≤ (as.flatMap c.encode).length := by
  induction as with
  | nil => simp
  | cons a as ih =>
    have ha := c.encode_pos a
    rw [flatMap_cons, length_append, length_cons]
    omega

/-- A length as a 64-bit number, then the values. -/
def list (c : Codec α) : Codec (List α) where
  encode as := u64.encode (UInt64.ofNat as.length) ++ as.flatMap c.encode
  decode bs := (u64.decode bs).bind fun p => c.decodeMany p.1.toNat p.2
  encode_pos as := by
    rw [length_append]
    exact Nat.add_pos_left (u64.encode_pos _) _
  decode_encode as rest hs := by
    rw [length_append] at hs
    have hcount := c.length_le_length_flatMap as
    have hlen : (UInt64.ofNat as.length).toNat = as.length := by
      rw [UInt64.toNat_ofNat']
      exact Nat.mod_eq_of_lt (by omega)
    rw [append_assoc, u64.decode_encode _ _ (by omega), Option.bind_some, hlen,
      c.decodeMany_flatMap as rest (by omega)]

/-- A byte string behind its length. -/
def bytes : Codec Bytes := list u8

/-- Bytes that are valid UTF-8. -/
def readString (bs : Bytes) : Option String := String.fromUTF8? ⟨bs.toArray⟩

theorem readString_toUTF8 (s : String) : readString s.toUTF8.data.toList = some s := by
  have harray : (⟨s.toUTF8.data.toList.toArray⟩ : ByteArray) = s.toUTF8 := by
    rw [Array.toArray_toList]
  rw [readString, harray, String.fromUTF8?, String.toUTF8, dif_pos s.isValidUTF8]
  rfl

/-- A string is read from its UTF-8 bytes alone. -/
theorem readString_eq_some {bs : Bytes} {s : String} :
    readString bs = some s ↔ s.toUTF8.data.toList = bs := by
  constructor
  · intro h
    rw [readString, String.fromUTF8?] at h
    split at h
    · cases h
      rfl
    · cases h
  · rintro rfl
    exact readString_toUTF8 s

/-- The bytes of the text behind their length; bytes that are not text are refused. -/
def string : Codec String where
  encode s := bytes.encode s.toUTF8.data.toList
  decode bs := (bytes.decode bs).bind fun p => (readString p.1).map fun s => (s, p.2)
  encode_pos s := bytes.encode_pos _
  decode_encode s rest hs := by
    rw [bytes.decode_encode _ rest hs, Option.bind_some, readString_toUTF8, Option.map_some]

/-! ## Ordered maps -/

theorem ofList_toList {cmp : α → α → Ordering} [Std.TransCmp cmp] [Std.LawfulEqCmp cmp]
    (m : Std.ExtTreeMap α β cmp) : Std.ExtTreeMap.ofList m.toList cmp = m := by
  apply Std.ExtTreeMap.ext_getElem?
  intro k
  have hdistinct := m.distinct_keys_toList
  cases hk : m[k]? with
  | some v =>
    have hmem : (k, v) ∈ m.toList := Std.ExtTreeMap.mem_toList_iff_getElem?_eq_some.mpr hk
    exact Std.ExtTreeMap.getElem?_ofList_of_mem Std.ReflCmp.compare_self hdistinct hmem
  | none =>
    let equal : BEq α := ⟨fun a b => decide (cmp a b = .eq)⟩
    have lawful : Std.LawfulBEqCmp cmp := ⟨decide_eq_true_iff.symm⟩
    have hkeys : (m.toList.map Prod.fst).contains k = false := by
      rw [Std.ExtTreeMap.map_fst_toList_eq_keys, Std.ExtTreeMap.contains_keys,
        Std.ExtTreeMap.contains_eq_isSome_getElem?, hk, Option.isSome_none]
    exact Std.ExtTreeMap.getElem?_ofList_of_contains_eq_false hkeys

/-- The entries in key order behind their number. -/
def map (c : Codec α) (d : Codec β) {cmp : α → α → Ordering} [Std.TransCmp cmp]
    [Std.LawfulEqCmp cmp] : Codec (Std.ExtTreeMap α β cmp) :=
  (list (pair c d)).iso (fun l => Std.ExtTreeMap.ofList l cmp) (fun m => m.toList) ofList_toList

end Codec

end ByteCodec
