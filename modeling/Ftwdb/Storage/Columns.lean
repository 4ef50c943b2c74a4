import Ftwdb.Lib.Varint
import Ftwdb.Lib.Signed
import Ftwdb.Storage.Segment
import Mathlib.Algebra.Order.BigOperators.Group.List
import Mathlib.Algebra.Order.Group.Nat

/-!
# Columns of a block

The bytes of the points of one block in `segment.rs`.  Each field has a column of
its own, in which a point is stored relative to its other fields or to the point
before it.  `decodeColumns_encodeColumns` reads the columns back, and
`encodeColumns_length` bounds their length by the number of points, which the
reader of a file relies on.

The readers work on the bytes that are left of a column instead of a cursor into
it; their tests and the order of them are the source's.
-/

namespace Ftwdb

open ByteCodec Check List

namespace StoredSegment

/-! ## Numbers -/

/-- `write_unsigned_u64`. -/
def writeUnsignedU64 (v : UInt64) : Bytes := writeVarint 10 v.toNat

/-- `write_unsigned_u128`. -/
def writeUnsignedU128 (v : U128) : Bytes := writeVarint 19 v.toNat

/-- `write_signed`. -/
def writeSigned (v : Int64) : Bytes := writeUnsignedU64 (foldSign v)

/-- The text of a bad varint. -/
def varintError (offset : Nat) : VarintFault → Error
  | .truncated => .corruption offset "truncated varint"
  | .overflow => .corruption offset "varint overflows"
  | .tooLong => .corruption offset "varint is too long"

/-- `read_unsigned_u128`. -/
def readUnsignedU128 (offset : Nat) (source : Bytes) : Except Error (U128 × Bytes) := do
  let (value, rest) ← (readGroups 19 source).mapError (varintError offset)
  .ok (BitVec.ofNat 128 value, rest)

/-- `read_unsigned_u64`. -/
def readUnsignedU64 (offset : Nat) (source : Bytes) : Except Error (UInt64 × Bytes) := do
  let (value, rest) ← (readGroups 10 source).mapError (varintError offset)
  failIf (2 ^ 64 ≤ value) (Error.corruption offset "u64 varint overflows")
  .ok (UInt64.ofNat value, rest)

/-- `read_signed`. -/
def readSigned (offset : Nat) (source : Bytes) : Except Error (Int64 × Bytes) := do
  let (value, rest) ← readUnsignedU64 offset source
  .ok (unfoldSign value, rest)

/-- A number of 32 bits that is stored as one of 64. -/
def readU32Varint (offset : Nat) (tooLarge : String) (source : Bytes) :
    Except Error (UInt32 × Bytes) := do
  let (value, rest) ← readUnsignedU64 offset source
  failIf (2 ^ 32 ≤ value.toNat) (Error.corruption offset tooLarge)
  .ok (UInt32.ofNat value.toNat, rest)

/-- `checked_add` with the error of the decoder. -/
def addTime (offset : Nat) (overflows : String) (a b : Int64) : Except Error Int64 :=
  match Signed.checkedAdd a b with
  | none => .error (.corruption offset overflows)
  | some t => .ok t

section Numbers
variable (offset : Nat) (rest : Bytes)

@[simp] theorem readUnsignedU128_write (v : U128) :
    readUnsignedU128 offset (writeUnsignedU128 v ++ rest) = .ok (v, rest) := by
  have hread := readGroups_writeVarint rest (n := v.toNat) (by decide : 0 < 19) (Nat.le_refl 19)
    (Nat.lt_trans v.isLt (by decide)) v.isLt
  rw [readUnsignedU128, writeUnsignedU128, hread]
  simp [Except.mapError, bind, Except.bind]

@[simp] theorem readUnsignedU64_write (v : UInt64) :
    readUnsignedU64 offset (writeUnsignedU64 v ++ rest) = .ok (v, rest) := by
  have hlt := v.toNat_lt
  have hread := readGroups_writeVarint rest (n := v.toNat) (by decide : 0 < 10) (by decide)
    (Nat.lt_trans hlt (by decide)) (Nat.lt_trans hlt (by decide))
  rw [readUnsignedU64, writeUnsignedU64, hread]
  simp [Except.mapError, bind, Except.bind, failIf, Nat.not_le.mpr hlt]

@[simp] theorem readSigned_write (v : Int64) :
    readSigned offset (writeSigned v ++ rest) = .ok (v, rest) := by
  rw [readSigned, writeSigned, readUnsignedU64_write]
  simp [bind, Except.bind]

@[simp] theorem readU32Varint_write (tooLarge : String) (v : UInt32) :
    readU32Varint offset tooLarge (writeUnsignedU64 v.toUInt64 ++ rest) = .ok (v, rest) := by
  have hlt := v.toNat_lt
  rw [readU32Varint, readUnsignedU64_write]
  simp [bind, Except.bind, failIf, Nat.not_le.mpr hlt]

/-- Adding a difference that was formed without overflow. -/
theorem addTime_checkedDelta {left right delta : Int64} (overflows : String)
    (h : checkedDelta left right = .ok delta) :
    addTime offset overflows right delta = .ok left := by
  rw [checkedDelta] at h
  split at h
  · next hfits =>
    cases h
    have hsub : (left - right).toInt = left.toInt - right.toInt := by
      rw [Int64.toInt_sub]
      exact Signed.bmod_of_fits (of_decide_eq_true hfits)
    have hadd : Signed.checkedAdd right (left - right) = some left := by
      rw [Signed.checkedAdd_eq_some, hsub]
      omega
    rw [addTime, hadd]
  · cases h

end Numbers

theorem length_writeUnsignedU64 (v : UInt64) :
    1 ≤ (writeUnsignedU64 v).length ∧ (writeUnsignedU64 v).length ≤ 10 :=
  ⟨writeVarint_pos (by decide), length_writeVarint_le ..⟩

theorem length_writeUnsignedU128 (v : U128) :
    1 ≤ (writeUnsignedU128 v).length ∧ (writeUnsignedU128 v).length ≤ 19 :=
  ⟨writeVarint_pos (by decide), length_writeVarint_le ..⟩

theorem length_writeSigned (v : Int64) :
    1 ≤ (writeSigned v).length ∧ (writeSigned v).length ≤ 10 := length_writeUnsignedU64 _

/-! ## Columns -/

/-- The bytes of each column. -/
structure Columns where
  validTimes : Bytes := []
  validEnds : Bytes := []
  knowledge : Bytes := []
  changes : Bytes := []
  runs : Bytes := []
  values : Bytes := []
  marks : Bytes := []
deriving DecidableEq

namespace Columns

/-- The columns in the order of the file. -/
def toList (c : Columns) : List Bytes :=
  [c.validTimes, c.validEnds, c.knowledge, c.changes, c.runs, c.values, c.marks]

/-- The bytes of all columns. -/
def size (c : Columns) : Nat := (c.toList.map List.length).sum

instance : Append Columns := ⟨fun c d => ⟨c.validTimes ++ d.validTimes, c.validEnds ++ d.validEnds,
  c.knowledge ++ d.knowledge, c.changes ++ d.changes, c.runs ++ d.runs, c.values ++ d.values,
  c.marks ++ d.marks⟩⟩

theorem append_eq (c d : Columns) : c ++ d = ⟨c.validTimes ++ d.validTimes,
    c.validEnds ++ d.validEnds, c.knowledge ++ d.knowledge, c.changes ++ d.changes,
    c.runs ++ d.runs, c.values ++ d.values, c.marks ++ d.marks⟩ := rfl

theorem length_le_size {c : Columns} {column : Bytes} (h : column ∈ c.toList) :
    column.length ≤ c.size := le_sum_of_mem (mem_map_of_mem h)

@[simp] theorem size_append (c d : Columns) : (c ++ d).size = c.size + d.size := by
  simp only [append_eq, size, toList, map_cons, map_nil, sum_cons, sum_nil,
    length_append]
  omega

end Columns

/-! ### Valid times -/

/-- The differences of differences behind the first two times. -/
def encodeDeltas : Int64 → Int64 → List Point → Except Error Bytes
  | _, _, [] => .ok []
  | previousDelta, previous, p :: ps => do
      let delta ← checkedDelta p.validTime previous
      let deltaOfDelta ← checkedDelta delta previousDelta
      let rest ← encodeDeltas delta p.validTime ps
      .ok (writeSigned deltaOfDelta ++ rest)

/-- The first time in full, the others as deltas. -/
def encodeTimes : List Point → Except Error Bytes
  | [] => .ok []
  | [p] => .ok (leI64 p.validTime)
  | p :: q :: ps => do
      let delta ← checkedDelta q.validTime p.validTime
      let rest ← encodeDeltas delta q.validTime ps
      .ok (leI64 p.validTime ++ (writeSigned delta ++ rest))

/-- `n` more times behind one that was reached with `previousDelta`. -/
def readDeltas (offset : Nat) : Nat → Int64 → Int64 → Bytes → Except Error (List Int64 × Bytes)
  | 0, _, _, source => .ok ([], source)
  | n + 1, previousDelta, previous, source => do
      let (deltaOfDelta, source) ← readSigned offset source
      let delta ← addTime offset "timestamp delta-of-delta overflows" previousDelta deltaOfDelta
      let next ← addTime offset "timestamp overflows" previous delta
      let (times, source) ← readDeltas offset n delta next source
      .ok (next :: times, source)

/-- The times of `count` points, of which there is at least one. -/
def readTimes (offset count : Nat) (column : Bytes) : Except Error (List Int64 × Bytes) := do
  failIf (column.length < 8) (Error.corruption offset "truncated first timestamp")
  let first := readI64 (slice column 0 8)
  let source := column.drop 8
  if 1 < count then
    let (delta, source) ← readSigned offset source
    let second ← addTime offset "timestamp delta overflows" first delta
    let (times, source) ← readDeltas offset (count - 2) delta second source
    .ok (first :: second :: times, source)
  else .ok ([first], source)

variable {ps : List Point} {previous : Option UInt64}

theorem readDeltas_encodeDeltas (offset : Nat) (rest : Bytes) {previousDelta previous : Int64}
    {bytes : Bytes} (h : encodeDeltas previousDelta previous ps = .ok bytes) :
    readDeltas offset ps.length previousDelta previous (bytes ++ rest) =
      .ok (ps.map Point.validTime, rest) := by
  induction ps generalizing previousDelta previous bytes with
  | nil =>
    cases h
    rfl
  | cons p ps ih =>
    simp only [encodeDeltas, bind_eq_ok] at h
    obtain ⟨delta, hdelta, second, hsecond, bytes', htail, h⟩ := h
    cases h
    rw [length_cons, readDeltas, append_assoc, readSigned_write]
    simp only [bind, Except.bind, addTime_checkedDelta offset _ hsecond,
      addTime_checkedDelta offset _ hdelta, ih htail, map_cons]

/-- The column of times is read back. -/
theorem readTimes_encodeTimes (offset : Nat) {p : Point} {bytes : Bytes}
    (h : encodeTimes (p :: ps) = .ok bytes) :
    readTimes offset (p :: ps).length bytes = .ok ((p :: ps).map Point.validTime, []) := by
  cases ps with
  | nil =>
    cases h
    simp [readTimes, failIf, bind, Except.bind, slice_whole]
  | cons q ps =>
    simp only [encodeTimes, bind_eq_ok] at h
    obtain ⟨delta, hdelta, bytes', htail, h⟩ := h
    cases h
    have hlong : ¬ (leI64 p.validTime ++ (writeSigned delta ++ bytes')).length < 8 := by simp
    have hmany : 1 < (p :: q :: ps).length := by simp
    have hread := readDeltas_encodeDeltas offset [] htail
    have hcount : (p :: q :: ps).length - 2 = ps.length := rfl
    rw [append_nil] at hread
    rw [readTimes, failIf, if_neg hlong, slice_left (by simp), drop_left' (by simp),
      if_pos hmany]
    simp only [bind, Except.bind, readI64_leI64, readSigned_write,
      addTime_checkedDelta offset _ hdelta, hcount, hread, map_cons]

/-! ### The other fields -/

/-- The value of a point; `previous` are the bits of the value before it, if there is
one. -/
def encodeValue (previous : Option UInt64) (bits : UInt64) : Bytes :=
  match previous with
  | none => leU64 bits
  | some previous => writeUnsignedU64 (bits ^^^ previous)

/-- What one point adds to the columns. -/
def encodeFields (previous : Option UInt64) (p : Point) : Except Error Columns := do
  let validEnd ← checkedDelta p.validTimeEnd p.validTime
  let knowledge ← checkedDelta p.knowledgeTime p.validTime
  let change ← checkedDelta p.changeTime p.knowledgeTime
  .ok {
    validEnds := writeSigned validEnd
    knowledge := writeSigned knowledge
    changes := writeSigned change
    runs := writeUnsignedU128 p.runId
    values := encodeValue previous p.value.bits
    marks := writeUnsignedU64 p.quality.toUInt64 ++ writeUnsignedU64 p.flags.toUInt64 }

/-- The other columns, row by row. -/
def encodeRows : Option UInt64 → List Point → Except Error Columns
  | _, [] => .ok {}
  | previous, p :: ps => do
      let fields ← encodeFields previous p
      let rest ← encodeRows (some p.value.bits) ps
      .ok (fields ++ rest)

/-- The value of the next point. -/
def readValue (offset : Nat) (previous : Option UInt64) (source : Bytes) :
    Except Error (UInt64 × Bytes) :=
  match previous with
  | none => do
      failIf (source.length < 8) (Error.corruption offset "truncated first value")
      .ok (readU64 (slice source 0 8), source.drop 8)
  | some previous => do
      let (change, source) ← readUnsignedU64 offset source
      .ok (previous ^^^ change, source)

/-- One row of the other columns. -/
def readFields (offset : Nat) (seriesId : UInt64) (previous : Option UInt64) (validTime : Int64)
    (c : Columns) : Except Error (Point × Columns) := do
  let (validEndDelta, validEnds) ← readSigned offset c.validEnds
  let (knowledgeDelta, knowledge) ← readSigned offset c.knowledge
  let knowledgeTime ← addTime offset "knowledge timestamp overflows" validTime knowledgeDelta
  let (changeDelta, changes) ← readSigned offset c.changes
  let (runId, runs) ← readUnsignedU128 offset c.runs
  let (bits, values) ← readValue offset previous c.values
  let (quality, marks) ← readU32Varint offset "quality exceeds u32" c.marks
  let (flags, marks) ← readU32Varint offset "flags exceed u32" marks
  let validTimeEnd ← addTime offset "valid end timestamp overflows" validTime validEndDelta
  let changeTime ← addTime offset "change timestamp overflows" knowledgeTime changeDelta
  .ok (⟨seriesId, validTime, validTimeEnd, knowledgeTime, changeTime, runId, ⟨bits⟩, quality,
    flags⟩, { c with
      validEnds := validEnds, knowledge := knowledge, changes := changes, runs := runs,
      values := values, marks := marks })

/-- The rows at the given times. -/
def readRows (offset : Nat) (seriesId : UInt64) :
    Option UInt64 → List Int64 → Columns → Except Error (List Point × Columns)
  | _, [], c => .ok ([], c)
  | previous, validTime :: times, c => do
      let (p, c) ← readFields offset seriesId previous validTime c
      let (ps, c) ← readRows offset seriesId (some p.value.bits) times c
      .ok (p :: ps, c)

@[simp] theorem readValue_encodeValue (offset : Nat) (previous : Option UInt64) (bits : UInt64)
    (rest : Bytes) : readValue offset previous (encodeValue previous bits ++ rest) =
      .ok (bits, rest) := by
  cases previous with
  | none =>
    simp (disch := simp) [readValue, encodeValue, failIf, bind, Except.bind, slice_left]
  | some previous =>
    have hback : previous ^^^ (bits ^^^ previous) = bits := by
      rw [UInt64.xor_comm bits, ← UInt64.xor_assoc, UInt64.xor_self, UInt64.zero_xor]
    simp only [readValue, encodeValue, readUnsignedU64_write, bind, Except.bind, hback]

/-- A row is read back from the heads of the columns. -/
theorem readFields_encodeFields (offset : Nat) {p : Point} {fields : Columns}
    (h : encodeFields previous p = .ok fields) (rest : Columns) :
    readFields offset p.seriesId previous p.validTime (fields ++ rest) = .ok (p, rest) := by
  simp only [encodeFields, bind_eq_ok] at h
  obtain ⟨validEnd, hend, knowledge, hknowledge, change, hchange, h⟩ := h
  cases h
  rw [readFields]
  simp only [Columns.append_eq, append_assoc, readSigned_write, readUnsignedU128_write,
    readValue_encodeValue, readU32Varint_write, bind, Except.bind,
      addTime_checkedDelta offset _ hend,
    addTime_checkedDelta offset _ hknowledge, addTime_checkedDelta offset _ hchange, nil_append]

/-- All rows are read back. -/
theorem readRows_encodeRows (offset : Nat) {seriesId : UInt64} {columns : Columns}
    (h : encodeRows previous ps = .ok columns) (hseries : ∀ p ∈ ps, p.seriesId = seriesId)
    (rest : Columns) :
    readRows offset seriesId previous (ps.map Point.validTime) (columns ++ rest) =
      .ok (ps, rest) := by
  induction ps generalizing previous columns with
  | nil =>
    cases h
    rfl
  | cons p ps ih =>
    simp only [encodeRows, bind_eq_ok] at h
    obtain ⟨fields, hfields, tail, htail, h⟩ := h
    cases h
    obtain ⟨rfl, hrest⟩ := forall_mem_cons.mp hseries
    have hassoc : fields ++ tail ++ rest = fields ++ (tail ++ rest) := by
      simp [Columns.append_eq]
    rw [map_cons, readRows, hassoc, readFields_encodeFields offset hfields]
    simp only [bind, Except.bind, ih htail hrest]

/-! ### The columns of a block -/

/-- The number of columns. -/
def columnCount : Nat := 7

/-- The least length of the columns of so many points. -/
def minimumEncodedBytes (points : Nat) : Nat := columnCount * 4 + 14 + points * 8

/-- The greatest length of the columns of so many points. -/
def maximumEncodedBytes (points : Nat) : Nat := columnCount * 4 + points * 89

/-- A column behind its length. -/
def encodeColumn (column : Bytes) : Except Error Bytes := do
  failIf (2 ^ 32 ≤ column.length) (Error.serialization "segment column is too large")
  .ok (leU32 (UInt32.ofNat column.length) ++ column)

/-- Each column behind its length. -/
def joinColumns : List Bytes → Except Error Bytes
  | [] => .ok []
  | column :: columns => do
      let first ← encodeColumn column
      let rest ← joinColumns columns
      .ok (first ++ rest)

/-- `encode_columns`. -/
def encodeColumns (points : List Point) : Except Error Bytes := do
  let validTimes ← encodeTimes points
  let rows ← encodeRows none points
  joinColumns { rows with validTimes := validTimes : Columns }.toList

/-- The column at the front, and what follows it. -/
def takeColumn (offset : Nat) (encoded : Bytes) : Except Error (Bytes × Bytes) := do
  failIf (encoded.length < 4) (Error.corruption offset "truncated segment column length")
  let length := (readU32 (slice encoded 0 4)).toNat
  failIf (encoded.length < 4 + length) (Error.corruption offset "truncated segment column")
  .ok (slice encoded 4 (4 + length), encoded.drop (4 + length))

/-- The columns of a block. -/
def splitColumns (encoded : Bytes) (offset : Nat) : Except Error Columns := do
  let (validTimes, rest) ← takeColumn offset encoded
  let (validEnds, rest) ← takeColumn offset rest
  let (knowledge, rest) ← takeColumn offset rest
  let (changes, rest) ← takeColumn offset rest
  let (runs, rest) ← takeColumn offset rest
  let (values, rest) ← takeColumn offset rest
  let (marks, rest) ← takeColumn offset rest
  failIf (rest ≠ []) (Error.corruption offset "trailing segment column bytes")
  .ok ⟨validTimes, validEnds, knowledge, changes, runs, values, marks⟩

/-- A column is read to its end. -/
def requireConsumed (offset : Nat) (column : String) (rest : Bytes) : Except Error Unit :=
  failIf (rest ≠ []) (Error.corruption offset ("trailing " ++ column ++ " column bytes"))

/-- `decode_columns`. -/
def decodeColumns (encoded : Bytes) (seriesId : UInt64) (count offset : Nat) :
    Except Error (List Point) := do
  failIf (count = 0) (Error.corruption offset "zero-point segment block")
  failIf (encoded.length < minimumEncodedBytes count)
    (Error.corruption offset "block point count exceeds payload capacity")
  let columns ← splitColumns encoded offset
  let (times, rest) ← readTimes offset count columns.validTimes
  requireConsumed offset "timestamp" rest
  let (points, columns) ← readRows offset seriesId none times columns
  each (requireConsumed offset "point")
    [columns.validEnds, columns.knowledge, columns.changes, columns.runs, columns.values,
      columns.marks]
  .ok points

section Lengths
variable {p : Point} {ps : List Point} {bytes : Bytes} {columns : Columns}

theorem length_encodeDeltas {previousDelta previous : Int64}
    (h : encodeDeltas previousDelta previous ps = .ok bytes) :
    ps.length ≤ bytes.length ∧ bytes.length ≤ ps.length * 10 := by
  induction ps generalizing previousDelta previous bytes with
  | nil =>
    cases h
    exact ⟨Nat.le_refl _, Nat.zero_le _⟩
  | cons p ps ih =>
    simp only [encodeDeltas, bind_eq_ok] at h
    obtain ⟨delta, -, second, -, bytes', htail, h⟩ := h
    cases h
    have hfirst := length_writeSigned second
    have hrest := ih htail
    rw [length_append, length_cons]
    omega

theorem length_encodeTimes (h : encodeTimes (p :: ps) = .ok bytes) :
    8 + ps.length ≤ bytes.length ∧ bytes.length ≤ 8 + ps.length * 10 := by
  cases ps with
  | nil =>
    cases h
    simp
  | cons q ps =>
    simp only [encodeTimes, bind_eq_ok] at h
    obtain ⟨delta, -, bytes', htail, h⟩ := h
    cases h
    have hfirst := length_writeSigned delta
    have hrest := length_encodeDeltas htail
    simp only [length_append, length_leI64, length_cons]
    omega

theorem length_encodeValue (previous : Option UInt64) (bits : UInt64) :
    (if previous.isNone then 8 else 1) ≤ (encodeValue previous bits).length ∧
      (encodeValue previous bits).length ≤ if previous.isNone then 8 else 10 := by
  cases previous with
  | none => simp [encodeValue]
  | some previous => exact length_writeUnsignedU64 _

theorem size_encodeFields {previous : Option UInt64} (h : encodeFields previous p = .ok columns) :
    columns.validTimes = [] ∧ (if previous.isNone then 14 else 7) ≤ columns.size ∧
      columns.size ≤ 79 := by
  simp only [encodeFields, bind_eq_ok] at h
  obtain ⟨validEnd, -, knowledge, -, change, -, h⟩ := h
  cases h
  have hend := length_writeSigned validEnd
  have hknowledge := length_writeSigned knowledge
  have hchange := length_writeSigned change
  have hrun := length_writeUnsignedU128 p.runId
  have hvalue := length_encodeValue previous p.value.bits
  have hquality := length_writeUnsignedU64 p.quality.toUInt64
  have hflags := length_writeUnsignedU64 p.flags.toUInt64
  refine ⟨rfl, ?_⟩
  simp only [Columns.size, Columns.toList, map_cons, map_nil, sum_cons,
    sum_nil, length_nil, length_append]
  split at hvalue <;> simp_all <;> omega

theorem size_encodeRows {bits : UInt64} (h : encodeRows (some bits) ps = .ok columns) :
    columns.validTimes = [] ∧ ps.length * 7 ≤ columns.size ∧ columns.size ≤ ps.length * 79 := by
  induction ps generalizing bits columns with
  | nil =>
    cases h
    exact ⟨rfl, Nat.le_refl _, Nat.le_refl _⟩
  | cons p ps ih =>
    simp only [encodeRows, bind_eq_ok] at h
    obtain ⟨fields, hfields, rest, hrest, h⟩ := h
    cases h
    obtain ⟨hnone, hlow, hhigh⟩ := size_encodeFields hfields
    obtain ⟨hnone', hlow', hhigh'⟩ := ih hrest
    rw [Columns.size_append, length_cons]
    refine ⟨by rw [Columns.append_eq]; simp [hnone, hnone'], ?_, ?_⟩
    · simp only [Option.isNone_some, Bool.false_eq_true, if_false] at hlow
      omega
    · omega

theorem size_encodeRows_first (h : encodeRows none (p :: ps) = .ok columns) :
    columns.validTimes = [] ∧ 14 + ps.length * 7 ≤ columns.size ∧
      columns.size ≤ 79 + ps.length * 79 := by
  simp only [encodeRows, bind_eq_ok] at h
  obtain ⟨fields, hfields, rest, hrest, h⟩ := h
  cases h
  obtain ⟨hnone, hlow, hhigh⟩ := size_encodeFields hfields
  obtain ⟨hnone', hlow', hhigh'⟩ := size_encodeRows hrest
  rw [Columns.size_append]
  refine ⟨by rw [Columns.append_eq]; simp [hnone, hnone'], ?_, ?_⟩
  · simp only [Option.isNone_none, if_true] at hlow
    omega
  · omega

theorem length_joinColumns {columns : List Bytes} (h : joinColumns columns = .ok bytes) :
    bytes.length = columns.length * 4 + (columns.map List.length).sum := by
  induction columns generalizing bytes with
  | nil =>
    cases h
    rfl
  | cons column columns ih =>
    simp only [joinColumns, encodeColumn, bind_eq_ok] at h
    obtain ⟨first, ⟨_, -, hfirst⟩, rest, hrest, h⟩ := h
    cases h
    cases hfirst
    simp only [length_append, length_leU32, ih hrest, length_cons, map_cons,
      sum_cons]
    omega

/-- Columns that are short enough can be joined. -/
theorem exists_joinColumns {columns : List Bytes} (h : ∀ c ∈ columns, c.length < 2 ^ 32) :
    ∃ bytes, joinColumns columns = .ok bytes := by
  induction columns with
  | nil => exact ⟨[], rfl⟩
  | cons column columns ih =>
    obtain ⟨hfirst, hrest⟩ := forall_mem_cons.mp h
    obtain ⟨rest, hrest⟩ := ih hrest
    refine ⟨_, bind_eq_ok.mpr ⟨_, bind_eq_ok.mpr ⟨(), failIf_eq_ok.mpr (Nat.not_le.mpr hfirst),
      rfl⟩, bind_eq_ok.mpr ⟨rest, hrest, rfl⟩⟩⟩

/-- The columns of a block, without their lengths in front. -/
theorem size_columns {validTimes : Bytes} {rows : Columns}
    (htimes : encodeTimes (p :: ps) = .ok validTimes)
    (hrows : encodeRows none (p :: ps) = .ok rows) :
    14 + (ps.length + 1) * 8 ≤ ({ rows with validTimes := validTimes : Columns }).size ∧
      ({ rows with validTimes := validTimes : Columns }).size ≤ (ps.length + 1) * 89 := by
  have htime := length_encodeTimes htimes
  obtain ⟨hnone, hlow, hhigh⟩ := size_encodeRows_first hrows
  have hsize : ({ rows with validTimes := validTimes : Columns }).size =
      validTimes.length + rows.size := by
    simp [Columns.size, Columns.toList, hnone]
  rw [hsize]
  omega

/-- The bounds that a reader checks before it allocates. -/
theorem encodeColumns_length (h : encodeColumns (p :: ps) = .ok bytes) :
    minimumEncodedBytes (p :: ps).length ≤ bytes.length ∧
      bytes.length ≤ maximumEncodedBytes (p :: ps).length := by
  simp only [encodeColumns, bind_eq_ok] at h
  obtain ⟨validTimes, htimes, rows, hrows, h⟩ := h
  have hsize := size_columns htimes hrows
  have hlength : bytes.length = 7 * 4 + ({ rows with validTimes := validTimes : Columns }).size :=
    length_joinColumns h
  rw [hlength, minimumEncodedBytes, maximumEncodedBytes, columnCount, length_cons]
  omega

end Lengths

/-! ### Reading the columns back -/

variable {bytes : Bytes} {points : List Point}

theorem takeColumn_encodeColumn (offset : Nat) {column : Bytes}
    (h : encodeColumn column = .ok bytes) (rest : Bytes) :
    takeColumn offset (bytes ++ rest) = .ok (column, rest) := by
  simp only [encodeColumn, bind_eq_ok, failIf_eq_ok, not_le] at h
  obtain ⟨_, hsmall, h⟩ := h
  cases h
  have hlength : readU32 (slice (leU32 (UInt32.ofNat column.length) ++ column ++ rest) 0 4) =
      UInt32.ofNat column.length := by
    rw [append_assoc, slice_left (by simp), readU32_leU32]
  have hcolumn : slice (leU32 (UInt32.ofNat column.length) ++ column ++ rest) 4
      (4 + column.length) = column := by
    rw [append_assoc, slice_skip (by simp)]
    exact slice_left (by simp)
  have hrest : (leU32 (UInt32.ofNat column.length) ++ column ++ rest).drop (4 + column.length) =
      rest := drop_left' (by simp)
  simp only [takeColumn, bind_eq_ok, failIf_eq_ok, hlength,
    UInt32.toNat_ofNat_of_lt' hsmall, hcolumn, hrest]
  exact ⟨(), by simp, (), by simp, trivial⟩

/-- The first of several joined columns. -/
theorem takeColumn_joinColumns (offset : Nat) {column : Bytes} {columns : List Bytes}
    (h : joinColumns (column :: columns) = .ok bytes) :
    ∃ rest, takeColumn offset bytes = .ok (column, rest) ∧ joinColumns columns = .ok rest := by
  simp only [joinColumns, bind_eq_ok] at h
  obtain ⟨first, hfirst, rest, hrest, h⟩ := h
  cases h
  exact ⟨rest, takeColumn_encodeColumn offset hfirst rest, hrest⟩

/-- The columns are found by their lengths. -/
theorem splitColumns_joinColumns (offset : Nat) {columns : Columns}
    (h : joinColumns columns.toList = .ok bytes) : splitColumns bytes offset = .ok columns := by
  rw [Columns.toList] at h
  obtain ⟨_, hvalidTimes, h⟩ := takeColumn_joinColumns offset h
  obtain ⟨_, hvalidEnds, h⟩ := takeColumn_joinColumns offset h
  obtain ⟨_, hknowledge, h⟩ := takeColumn_joinColumns offset h
  obtain ⟨_, hchanges, h⟩ := takeColumn_joinColumns offset h
  obtain ⟨_, hruns, h⟩ := takeColumn_joinColumns offset h
  obtain ⟨_, hvalues, h⟩ := takeColumn_joinColumns offset h
  obtain ⟨_, hmarks, h⟩ := takeColumn_joinColumns offset h
  cases h
  simp [splitColumns, bind, Except.bind, failIf, hvalidTimes, hvalidEnds, hknowledge, hchanges,
    hruns, hvalues, hmarks]

/-- The columns of a block are read back, whatever the block is called in errors. -/
theorem decodeColumns_encodeColumns (offset : Nat) {seriesId : UInt64} (hne : points ≠ [])
    (hseries : ∀ p ∈ points, p.seriesId = seriesId) (h : encodeColumns points = .ok bytes) :
    decodeColumns bytes seriesId points.length offset = .ok points := by
  obtain ⟨p, ps, rfl⟩ := exists_cons_of_ne_nil hne
  have hlength := (encodeColumns_length h).1
  simp only [encodeColumns, bind_eq_ok] at h
  obtain ⟨validTimes, htimes, rows, hrows, h⟩ := h
  have hread := readRows_encodeRows offset hrows hseries { validTimes := validTimes }
  have hcolumns : rows ++ { validTimes := validTimes : Columns } =
      { rows with validTimes := validTimes } := by
    simp [Columns.append_eq, (size_encodeRows_first hrows).1]
  rw [hcolumns] at hread
  have hcount : ¬ (p :: ps).length = 0 := by simp
  simp only [decodeColumns, bind_eq_ok, failIf_eq_ok]
  refine ⟨(), hcount, (), Nat.not_lt.mpr hlength, _, splitColumns_joinColumns offset h, _,
    readTimes_encodeTimes offset htimes, (), ?_, _, hread, (), ?_, rfl⟩
  · simp [requireConsumed]
  · simp [requireConsumed]

/-! ### What may fail -/

theorem encodeDeltas_ok_iff {previousDelta previous : Int64} {ps : List Point} :
    (∃ bytes, encodeDeltas previousDelta previous ps = .ok bytes) ↔
      checkDeltas previousDelta previous ps = .ok () := by
  induction ps generalizing previousDelta previous with
  | nil => exact ⟨fun _ => rfl, fun _ => ⟨[], rfl⟩⟩
  | cons p ps ih =>
    simp only [encodeDeltas, checkDeltas, bind_eq_ok, ← ih]
    constructor
    · rintro ⟨_, delta, hdelta, second, hsecond, rest, hrest, -⟩
      exact ⟨delta, hdelta, second, hsecond, rest, hrest⟩
    · rintro ⟨delta, hdelta, second, hsecond, rest, hrest⟩
      exact ⟨_, delta, hdelta, second, hsecond, rest, hrest, rfl⟩

theorem encodeTimes_ok_iff :
    (∃ bytes, encodeTimes points = .ok bytes) ↔ checkTimes points = .ok () := by
  match points with
  | [] => exact ⟨fun _ => rfl, fun _ => ⟨_, rfl⟩⟩
  | [p] => exact ⟨fun _ => rfl, fun _ => ⟨_, rfl⟩⟩
  | p :: q :: ps =>
    simp only [encodeTimes, checkTimes, bind_eq_ok, ← encodeDeltas_ok_iff]
    constructor
    · rintro ⟨_, delta, hdelta, rest, hrest, -⟩
      exact ⟨delta, hdelta, rest, hrest⟩
    · rintro ⟨delta, hdelta, rest, hrest⟩
      exact ⟨_, delta, hdelta, rest, hrest, rfl⟩

/-- Rows are written unless a difference of times overflows. -/
theorem encodeRows_ok_iff {previous : Option UInt64} {ps : List Point} :
    (∃ columns, encodeRows previous ps = .ok columns) ↔ each (fun p => do
      let _ ← checkedDelta p.validTimeEnd p.validTime
      let _ ← checkedDelta p.knowledgeTime p.validTime
      let _ ← checkedDelta p.changeTime p.knowledgeTime
      .ok ()) ps = .ok () := by
  induction ps generalizing previous with
  | nil => exact ⟨fun _ => rfl, fun _ => ⟨{}, rfl⟩⟩
  | cons p ps ih =>
    simp only [encodeRows, encodeFields, each, bind_eq_ok, ← @ih (some p.value.bits)]
    constructor
    · rintro ⟨_, _, ⟨validEnd, hend, knowledge, hknowledge, change, hchange, -⟩, rest, hrest, -⟩
      exact ⟨(), ⟨validEnd, hend, knowledge, hknowledge, change, hchange, trivial⟩, rest, hrest⟩
    · rintro ⟨_, ⟨validEnd, hend, knowledge, hknowledge, change, hchange, -⟩, rest, hrest⟩
      exact ⟨_, _, ⟨validEnd, hend, knowledge, hknowledge, change, hchange, rfl⟩, rest, hrest, rfl⟩

/-- The bytes of a block fail only where the differences of its times do. -/
theorem encodeColumns_ok_iff (hne : points ≠ []) (hfew : points.length ≤ maxBlockPoints) :
    (∃ bytes, encodeColumns points = .ok bytes) ↔ Ftwdb.encodeColumns points = .ok () := by
  obtain ⟨p, ps, rfl⟩ := exists_cons_of_ne_nil hne
  simp only [encodeColumns, Ftwdb.encodeColumns, bind_eq_ok]
  rw [← @encodeRows_ok_iff none]
  constructor
  · rintro ⟨_, validTimes, htimes, rows, hrows, -⟩
    exact ⟨(), encodeTimes_ok_iff.mp ⟨validTimes, htimes⟩, rows, hrows⟩
  · rintro ⟨_, htimes, rows, hrows⟩
    obtain ⟨validTimes, htimes⟩ := encodeTimes_ok_iff.mpr htimes
    have hsize := (size_columns htimes hrows).2
    rw [length_cons, maxBlockPoints] at hfew
    have hsmall : ∀ c ∈ ({ rows with validTimes := validTimes : Columns }).toList,
        c.length < 2 ^ 32 := by
      intro c hc
      have hc := Columns.length_le_size hc
      omega
    obtain ⟨bytes, hbytes⟩ := exists_joinColumns hsmall
    exact ⟨bytes, validTimes, htimes, rows, hrows, hbytes⟩

end StoredSegment

end Ftwdb
