import Ftwdb.Lib.Bytes

/-!
# CRC-32

The reflected CRC-32 with polynomial `0xEDB88320`, initial value and final mask
`0xFFFFFFFF`, computed bit by bit.  A register update is linear over exclusive
or, so what a string of bytes adds to a register does not depend on the
register (`update_xor`).  Two strings of one length with one checksum therefore
keep one checksum behind any common beginning (`hash_append_congr`): a checksum
collision inside a longer message stays a collision.
-/

namespace Crc32

open ByteCodec

/-- The reflected generator polynomial. -/
def polynomial : BitVec 32 := 0xEDB88320#32

/-- One bit shifted out of the register. -/
def shiftOut (crc : BitVec 32) : BitVec 32 :=
  if crc.getLsbD 0 then (crc >>> 1) ^^^ polynomial else crc >>> 1

/-- `n` bits shifted out. -/
def shiftOutN : Nat → BitVec 32 → BitVec 32
  | 0, crc => crc
  | n + 1, crc => shiftOutN n (shiftOut crc)

/-- One byte fed into the register. -/
def feed (crc : BitVec 32) (byte : UInt8) : BitVec 32 :=
  shiftOutN 8 (crc ^^^ byte.toBitVec.setWidth 32)

/-- A byte string fed into the register, first byte first. -/
def update (crc : BitVec 32) (bytes : Bytes) : BitVec 32 := bytes.foldl feed crc

/-- The checksum of a byte string. -/
def hash (bytes : Bytes) : UInt32 :=
  UInt32.ofBitVec (update 0xFFFFFFFF#32 bytes ^^^ 0xFFFFFFFF#32)

/-! ## Linearity -/

theorem shiftOut_xor (x y : BitVec 32) : shiftOut (x ^^^ y) = shiftOut x ^^^ shiftOut y := by
  unfold shiftOut
  rw [BitVec.getLsbD_xor, BitVec.ushiftRight_xor_distrib]
  cases x.getLsbD 0 <;> cases y.getLsbD 0 <;> simp
  · rw [BitVec.xor_assoc]
  · rw [BitVec.xor_assoc, BitVec.xor_comm (y >>> 1), BitVec.xor_assoc]
  · rw [BitVec.xor_assoc (x >>> 1), ← BitVec.xor_assoc polynomial, BitVec.xor_comm polynomial,
      BitVec.xor_assoc (y >>> 1), BitVec.xor_self, BitVec.xor_zero]

theorem shiftOutN_xor (n : Nat) (x y : BitVec 32) :
    shiftOutN n (x ^^^ y) = shiftOutN n x ^^^ shiftOutN n y := by
  induction n generalizing x y with
  | zero => rfl
  | succ n ih => rw [shiftOutN, shiftOutN, shiftOutN, shiftOut_xor, ih]

/-- A difference between two registers is carried through a byte on its own. -/
theorem feed_xor (x d : BitVec 32) (b : UInt8) :
    feed (x ^^^ d) b = feed x b ^^^ shiftOutN 8 d := by
  unfold feed
  rw [BitVec.xor_assoc, BitVec.xor_comm d, ← BitVec.xor_assoc, shiftOutN_xor]

/-- The register after `n` bytes of a message differs from the register started
at another value by an amount that the message does not enter. -/
theorem update_xor (x d : BitVec 32) (bs : Bytes) :
    update (x ^^^ d) bs = update x bs ^^^ (shiftOutN 8)^[bs.length] d := by
  induction bs generalizing x d with
  | nil => rfl
  | cons b bs ih =>
    have ih' := ih (feed x b) (shiftOutN 8 d)
    simp only [update, List.foldl_cons] at ih' ⊢
    rw [feed_xor, ih', List.length_cons, Function.iterate_succ_apply]

theorem update_append (crc : BitVec 32) (xs ys : Bytes) :
    update crc (xs ++ ys) = update (update crc xs) ys := List.foldl_append

/-- Equal registers from one start are equal registers from every start. -/
theorem update_congr {xs ys : Bytes} (hlen : xs.length = ys.length) {c : BitVec 32}
    (h : update c xs = update c ys) (c' : BitVec 32) : update c' xs = update c' ys := by
  have hx := update_xor c (c ^^^ c') xs
  have hy := update_xor c (c ^^^ c') ys
  rw [← BitVec.xor_assoc, BitVec.xor_self, BitVec.zero_xor] at hx hy
  rw [hx, hy, h, hlen]

theorem update_eq_of_hash_eq {xs ys : Bytes} (h : hash xs = hash ys) :
    update 0xFFFFFFFF#32 xs = update 0xFFFFFFFF#32 ys := by
  have hbits := congrArg UInt32.toBitVec h
  simp only [hash, UInt32.toBitVec_ofBitVec] at hbits
  exact (BitVec.xor_left_inj _).mp hbits

/-- A collision between strings of one length survives a common beginning. -/
theorem hash_append_congr {xs ys : Bytes} (hlen : xs.length = ys.length)
    (h : hash xs = hash ys) (start : Bytes) : hash (start ++ xs) = hash (start ++ ys) := by
  unfold hash
  rw [update_append, update_append,
    update_congr hlen (update_eq_of_hash_eq h) (update 0xFFFFFFFF#32 start)]

/-- The published check value of this checksum. -/
example : hash [49, 50, 51, 52, 53, 54, 55, 56, 57] = 0xCBF43926 := by decide +kernel

end Crc32
