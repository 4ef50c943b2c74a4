import Ftwdb.Lib.Bytes

/-!
# Optional block compression

A writer that compresses a block stores whichever of the two forms is shorter,
behind a byte that says which.  `Lz4` is what is asked of the compressor: a block
is restored from its compressed form and its length, and no byte of that form
stands for more than 255 bytes.
-/

namespace ByteCodec

open List

/-- The calls into the compression library.  `none` is an error of the library. -/
class Lz4 where
  compress : Bytes → Bytes
  /-- The block of the given length. -/
  decompress : Bytes → Nat → Option Bytes
  decompress_compress : ∀ block, decompress (compress block) block.length = some block
  length_le : ∀ block, block.length ≤ (compress block).length * 255

/-! ## A compressor of runs -/

/-- A byte and how often it stands there in a row, for each run of a block. -/
def squeeze : Bytes → Bytes
  | [] => []
  | b :: block =>
    match squeeze block with
    | n :: b' :: runs =>
      if b = b' ∧ n < 255 then (n + 1) :: b' :: runs else 1 :: b :: n :: b' :: runs
    | _ => [1, b]

/-- The block of the runs. -/
def expand : Bytes → Bytes
  | n :: b :: runs => List.replicate n.toNat b ++ expand runs
  | _ => []

theorem expand_squeeze (block : Bytes) : expand (squeeze block) = block := by
  induction block with
  | nil => rfl
  | cons b block ih =>
    rw [squeeze]
    split
    · next n b' runs hruns =>
      rw [hruns, expand] at ih
      split
      · next hsame =>
        obtain ⟨rfl, hn⟩ := hsame
        have hnext : (n + 1).toNat = n.toNat + 1 := by
          rw [UInt8.lt_iff_toNat_lt] at hn
          rw [UInt8.toNat_add]
          exact Nat.mod_eq_of_lt (Nat.add_lt_add_right hn 1)
        rw [expand, hnext, replicate_succ, cons_append, ih]
      · rw [expand, expand, ih]
        rfl
    · next hruns =>
      -- a list of fewer than two bytes holds no run
      have hnil : expand (squeeze block) = [] := by
        rw [expand]
        exact hruns
      rw [hnil] at ih
      rw [← ih]
      rfl

theorem length_expand_le (runs : Bytes) : (expand runs).length ≤ runs.length * 255 := by
  induction runs using expand.induct with
  | case1 n b runs ih =>
    have hn := n.toNat_lt
    simp only [expand, length_append, length_replicate, length_cons]
    omega
  | case2 runs hruns => simp [expand]

/-- A library that compresses runs. -/
@[reducible] def Lz4.runs : Lz4 where
  compress := squeeze
  decompress := fun runs _ => some (expand runs)
  decompress_compress := fun block => congrArg some (expand_squeeze block)
  length_le := fun block => by
    have hle := length_expand_le (squeeze block)
    rwa [expand_squeeze] at hle

/-! ## The shorter form -/

/-- The code of uncompressed bytes. -/
def compressionRaw : UInt8 := 0

/-- The code of compressed bytes. -/
def compressionLz4 : UInt8 := 1

/-- No block shrinks by more than this factor. -/
def maxLz4Ratio : Nat := 255

variable [Lz4]

/-- The compressed block behind its length. -/
def compressPrependSize (block : Bytes) : Bytes :=
  leU32 (UInt32.ofNat block.length) ++ Lz4.compress block

/-- The shorter form of a block and its tag. -/
def packBlock (block : Bytes) : UInt8 × Bytes :=
  if (compressPrependSize block).length < block.length then
    (compressionLz4, compressPrependSize block)
  else (compressionRaw, block)

/-- The two forms a stored block has. -/
inductive Packed (block : Bytes) : UInt8 → Bytes → Prop
  | raw : Packed block compressionRaw block
  | lz4 : (compressPrependSize block).length < block.length →
      Packed block compressionLz4 (compressPrependSize block)

theorem packed_packBlock (block : Bytes) :
    Packed block (packBlock block).1 (packBlock block).2 := by
  rw [packBlock]
  split
  · next hshort => exact .lz4 hshort
  · exact .raw

namespace Packed

variable {block payload : Bytes} {tag : UInt8}

theorem length_le (h : Packed block tag payload) : payload.length ≤ block.length := by
  cases h with
  | raw => exact Nat.le_refl _
  | lz4 hshort => exact Nat.le_of_lt hshort

/-- A stored form is not too short for its block. -/
theorem capacity (h : Packed block tag payload) : block.length ≤ payload.length * maxLz4Ratio := by
  cases h with
  | raw => exact Nat.le_mul_of_pos_right _ (by decide)
  | lz4 _ =>
    have hlength : (Lz4.compress block).length ≤ (compressPrependSize block).length := by
      rw [compressPrependSize, length_append]
      exact Nat.le_add_left ..
    exact Nat.le_trans (Lz4.length_le block) (Nat.mul_le_mul_right _ hlength)

end Packed

section Parts
variable {block : Bytes}

/-- The length in front of a compressed block that is not too long. -/
theorem size_compressPrependSize (hsmall : block.length < 2 ^ 32) :
    (readU32 (slice (compressPrependSize block) 0 4)).toNat = block.length := by
  rw [compressPrependSize, slice_left (length_leU32 _), readU32_leU32,
    UInt32.toNat_ofNat_of_lt' hsmall]

theorem drop_compressPrependSize : (compressPrependSize block).drop 4 = Lz4.compress block :=
  drop_left' (length_leU32 _)

theorem length_compressPrependSize :
    (compressPrependSize block).length = 4 + (Lz4.compress block).length := by
  rw [compressPrependSize, length_append, length_leU32]

theorem not_short_compressPrependSize : ¬ (compressPrependSize block).length < 4 := by
  rw [length_compressPrependSize]
  omega

end Parts

end ByteCodec
