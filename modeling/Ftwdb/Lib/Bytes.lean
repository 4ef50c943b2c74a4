import Mathlib.Data.List.Basic
import Mathlib.Tactic.Ring

/-!
# Byte strings and little-endian numbers

A byte string is a list of bytes.  `leBytes k n` writes the low `k` bytes of
`n`, least significant first, and `leNat` reads a byte string back.  The two
laws are `leNat_leBytes`, which loses exactly what does not fit, and
`leBytes_leNat`, which loses nothing.

Fixed-width words go through the same pair.  Each of them has a writer, a
reader and the round trip between them, stated as a simp lemma so that a record
made of words is read back field by field.
-/

namespace ByteCodec

open List

/-- A byte string. -/
abbrev Bytes := List UInt8

/-- The low `k` bytes of `n`, least significant first. -/
def leBytes : Nat → Nat → Bytes
  | 0, _ => []
  | k + 1, n => UInt8.ofNat (n % 256) :: leBytes k (n / 256)

/-- The number a byte string writes, least significant byte first. -/
def leNat : Bytes → Nat
  | [] => 0
  | b :: bs => b.toNat + 256 * leNat bs

@[simp] theorem length_leBytes (k n : Nat) : (leBytes k n).length = k := by
  induction k generalizing n with
  | zero => rfl
  | succ k ih => rw [leBytes, length_cons, ih]

/-- Reading back keeps what fits in `k` bytes. -/
theorem leNat_leBytes (k n : Nat) : leNat (leBytes k n) = n % 256 ^ k := by
  induction k generalizing n with
  | zero => simp [leBytes, leNat, Nat.mod_one]
  | succ k ih =>
    rw [leBytes, leNat, ih, UInt8.toNat_ofNat']
    have hlow : n % 256 % 2 ^ 8 = n % 256 := Nat.mod_eq_of_lt (Nat.mod_lt n (by decide))
    rw [hlow, Nat.pow_succ', Nat.mod_mul]

theorem leNat_leBytes_of_lt {k n : Nat} (h : n < 256 ^ k) : leNat (leBytes k n) = n := by
  rw [leNat_leBytes, Nat.mod_eq_of_lt h]

/-- Bytes are digits. -/
theorem leNat_lt (bs : Bytes) : leNat bs < 256 ^ bs.length := by
  induction bs with
  | nil => simp [leNat]
  | cons b bs ih =>
    have hb := b.toNat_lt
    rw [leNat, length_cons, Nat.pow_succ]
    omega

/-- Writing back gives the bytes that were read. -/
theorem leBytes_leNat (bs : Bytes) : leBytes bs.length (leNat bs) = bs := by
  induction bs with
  | nil => rfl
  | cons b bs ih =>
    have hb := b.toNat_lt
    have hlow : (b.toNat + 256 * leNat bs) % 256 = b.toNat := by omega
    have hhigh : (b.toNat + 256 * leNat bs) / 256 = leNat bs := by omega
    rw [leNat, length_cons, leBytes, hlow, hhigh, ih]
    simp

/-! ## Words -/

/-- A 16-bit word in little-endian order. -/
def leU16 (x : UInt16) : Bytes := leBytes 2 x.toNat

/-- A 32-bit word. -/
def leU32 (x : UInt32) : Bytes := leBytes 4 x.toNat

/-- A 64-bit word. -/
def leU64 (x : UInt64) : Bytes := leBytes 8 x.toNat

/-- A 128-bit word. -/
def leU128 (x : BitVec 128) : Bytes := leBytes 16 x.toNat

/-- A signed 64-bit word, in two's complement. -/
def leI64 (x : Int64) : Bytes := leU64 x.toUInt64

/-- The word that two bytes spell. -/
def readU16 (bs : Bytes) : UInt16 := UInt16.ofNat (leNat bs)

/-- The word that four bytes spell. -/
def readU32 (bs : Bytes) : UInt32 := UInt32.ofNat (leNat bs)

/-- The word that eight bytes spell. -/
def readU64 (bs : Bytes) : UInt64 := UInt64.ofNat (leNat bs)

/-- The word that sixteen bytes spell. -/
def readU128 (bs : Bytes) : BitVec 128 := BitVec.ofNat 128 (leNat bs)

/-- The signed word that eight bytes spell. -/
def readI64 (bs : Bytes) : Int64 := (readU64 bs).toInt64

@[simp] theorem length_leU16 (x : UInt16) : (leU16 x).length = 2 := length_leBytes ..

@[simp] theorem length_leU32 (x : UInt32) : (leU32 x).length = 4 := length_leBytes ..

@[simp] theorem length_leU64 (x : UInt64) : (leU64 x).length = 8 := length_leBytes ..

@[simp] theorem length_leU128 (x : BitVec 128) : (leU128 x).length = 16 := length_leBytes ..

@[simp] theorem length_leI64 (x : Int64) : (leI64 x).length = 8 := length_leBytes ..

@[simp] theorem readU16_leU16 (x : UInt16) : readU16 (leU16 x) = x := by
  rw [readU16, leU16, leNat_leBytes_of_lt x.toNat_lt, UInt16.ofNat_toNat]

@[simp] theorem readU32_leU32 (x : UInt32) : readU32 (leU32 x) = x := by
  rw [readU32, leU32, leNat_leBytes_of_lt x.toNat_lt, UInt32.ofNat_toNat]

@[simp] theorem readU64_leU64 (x : UInt64) : readU64 (leU64 x) = x := by
  rw [readU64, leU64, leNat_leBytes_of_lt x.toNat_lt, UInt64.ofNat_toNat]

@[simp] theorem readU128_leU128 (x : BitVec 128) : readU128 (leU128 x) = x := by
  rw [readU128, leU128, leNat_leBytes_of_lt x.isLt, BitVec.ofNat_toNat, BitVec.setWidth_eq]

@[simp] theorem readI64_leI64 (x : Int64) : readI64 (leI64 x) = x := by
  rw [readI64, leI64, readU64_leU64, Int64.toInt64_toUInt64]

variable {bs a b : Bytes} {lo hi : Nat}

/-- A word of `w` bits that was read from all its bytes is spelled by them. -/
theorem leBytes_leNat_mod {k w : Nat} (h : bs.length = k) (hw : 256 ^ k = 2 ^ w) :
    leBytes k (leNat bs % 2 ^ w) = bs := by
  rw [← hw, ← h, Nat.mod_eq_of_lt (leNat_lt bs), leBytes_leNat]

theorem leU16_readU16 (h : bs.length = 2) : leU16 (readU16 bs) = bs := by
  rw [leU16, readU16, UInt16.toNat_ofNat', leBytes_leNat_mod h (by decide)]

theorem leU32_readU32 (h : bs.length = 4) : leU32 (readU32 bs) = bs := by
  rw [leU32, readU32, UInt32.toNat_ofNat', leBytes_leNat_mod h (by decide)]

theorem leU64_readU64 (h : bs.length = 8) : leU64 (readU64 bs) = bs := by
  rw [leU64, readU64, UInt64.toNat_ofNat', leBytes_leNat_mod h (by decide)]

theorem leU128_readU128 (h : bs.length = 16) : leU128 (readU128 bs) = bs := by
  rw [leU128, readU128, BitVec.toNat_ofNat, leBytes_leNat_mod h (by decide)]

/-! ## Slices -/

/-- The bytes from `lo` up to `hi`. -/
def slice (bs : Bytes) (lo hi : Nat) : Bytes := (bs.drop lo).take (hi - lo)

/-- A slice behind the first part. -/
theorem slice_skip (h : a.length ≤ lo) :
    slice (a ++ b) lo hi = slice b (lo - a.length) (hi - a.length) := by
  rw [slice, slice, drop_append, drop_eq_nil_of_le h, nil_append]
  congr 1
  omega

/-- The first part. -/
theorem slice_left (h : a.length = hi) : slice (a ++ b) 0 hi = a := by
  rw [slice, drop_zero, Nat.sub_zero, ← h, take_left]

theorem slice_cons_skip {x : UInt8} (h : 1 ≤ lo) :
    slice (x :: b) lo hi = slice b (lo - 1) (hi - 1) := slice_skip (a := [x]) h

theorem slice_cons_one {x : UInt8} : slice (x :: b) 0 1 = [x] := rfl

theorem slice_whole (h : a.length = hi) : slice a 0 hi = a := by
  rw [slice, drop_zero, Nat.sub_zero, ← h, take_length]

theorem slice_append_left (h : hi ≤ a.length) :
    slice (a ++ b) lo hi = slice a lo hi := by
  rw [slice, slice, drop_append, take_append_of_le_length]
  rw [length_drop]
  omega

/-- A slice inside the bytes has the length it asks for. -/
theorem length_slice (h : hi ≤ bs.length) :
    (slice bs lo hi).length = hi - lo := by
  rw [slice, length_take, length_drop]
  omega

/-- Adjacent slices join. -/
theorem slice_append_slice (bs : Bytes) {a b c : Nat} (hab : a ≤ b) (hbc : b ≤ c) :
    slice bs a b ++ slice bs b c = slice bs a c := by
  have hsplit : bs.drop b = (bs.drop a).drop (b - a) := by
    rw [drop_drop]
    congr 1
    omega
  have hlen : c - a = (b - a) + (c - b) := by omega
  rw [slice, slice, slice, hsplit, hlen, take_add]

theorem slice_zero (bs : Bytes) (n : Nat) : slice bs 0 n = bs.take n := rfl

/-- The consecutive blocks of `n` bytes, without a shorter last one. -/
def chunksExact (n : Nat) (bs : Bytes) : List Bytes :=
  (List.range (bs.length / n)).map fun i => (bs.drop (i * n)).take n

theorem chunksExact_nil (n : Nat) : chunksExact n [] = [] := by
  simp [chunksExact]

/-- The first chunk and the others. -/
theorem chunksExact_append {n : Nat} (hn : 0 < n) {rest : Bytes} (hb : b.length = n) :
    chunksExact n (b ++ rest) = b :: chunksExact n rest := by
  have hlen : (b ++ rest).length / n = rest.length / n + 1 := by
    rw [length_append, hb, Nat.add_div_left _ hn]
  have hhead : ((b ++ rest).drop (0 * n)).take n = b := by
    rw [Nat.zero_mul, drop_zero, ← hb, take_left]
  have htail : ∀ i, ((b ++ rest).drop ((i + 1) * n)).take n = (rest.drop (i * n)).take n := by
    intro i
    rw [Nat.add_mul, Nat.one_mul, Nat.add_comm (i * n) n, ← drop_drop]
    conv_lhs => rw [← hb, drop_left]
    rw [hb]
  rw [chunksExact, hlen, range_succ_eq_map, map_cons, map_map, hhead]
  congr 1
  exact map_congr_left fun i _ => htail i

/-- Records of one width are recovered one block each. -/
theorem chunksExact_flatMap {α : Type} {n : Nat} (hn : 0 < n) (f : α → Bytes)
    (hf : ∀ a, (f a).length = n) (as : List α) :
    chunksExact n (as.flatMap f) = as.map f := by
  induction as with
  | nil => exact chunksExact_nil n
  | cons a as ih => rw [flatMap_cons, chunksExact_append hn (hf a), ih, map_cons]

end ByteCodec
