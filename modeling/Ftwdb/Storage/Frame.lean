import Ftwdb.Lib.FramedLog
import Ftwdb.Model.Wire

/-!
# Frames of the log

A log is a 16-byte header followed by frames.  A frame has a 24-byte header with
its own checksum and a payload covered by a second one.  `readFrame` is the part
of `scan_log` that takes one frame from the bytes that are left, with every
reason for which it may stop there; `readFrame_encode` and `readFrame_torn` say
what it finds in front of a complete frame and of a part of one.
-/

namespace Ftwdb

open ByteCodec Check List

/-! ## Limits -/

/-- The limits of a configuration that a scan enforces. -/
structure Limits where
  maxBatchPoints : Nat
  maxTransactionBytes : Nat
deriving DecidableEq

/-- `IDENTITY_INDEX_ENTRY_OVERHEAD_BYTES`. -/
def identityIndexEntryOverheadBytes : Nat := 1024

/-- `identity_index_frame_limit`. -/
def identityIndexFrameLimit (maxTransactionBytes : Nat) : Nat :=
  min (maxTransactionBytes + identityIndexEntryOverheadBytes) (2 ^ 32 - 1)

/-- The bytes of a commit id. -/
def commitIdBytes : Nat := 16

/-- The bytes of an ingress identity. -/
def ingressIdentityBytes : Nat := 16 + 8 + 16

/-- `SEAL_CHECKPOINT_BYTES`. -/
def sealCheckpointBytes : Nat := 16

/-! ## Frames -/

/-- The kinds of frames. -/
inductive FrameKind where
  | legacyPoints
  | transaction
  | identifiedTransaction
  | ingressTransaction
  | sealCheckpoint
  | identityIndex
deriving DecidableEq

namespace FrameKind

/-- The code of a kind. -/
def code : FrameKind → UInt16
  | legacyPoints => 0
  | transaction => 1
  | identifiedTransaction => 2
  | ingressTransaction => 3
  | sealCheckpoint => 4
  | identityIndex => 5

/-- The kind of a code. -/
def ofCode : UInt16 → Option FrameKind
  | 0 => some legacyPoints
  | 1 => some transaction
  | 2 => some identifiedTransaction
  | 3 => some ingressTransaction
  | 4 => some sealCheckpoint
  | 5 => some identityIndex
  | _ => none

@[simp] theorem ofCode_code (k : FrameKind) : ofCode k.code = some k := by cases k <;> rfl

theorem eq_code_of_ofCode {c : UInt16} {k : FrameKind} (h : ofCode c = some k) : c = k.code := by
  unfold ofCode at h
  split at h <;> cases h <;> rfl

end FrameKind

/-- A frame as its header describes it: the payload length fits 32 bits. -/
structure Frame where
  kind : FrameKind
  items : UInt32
  payload : Bytes
  small : payload.length < 2 ^ 32
deriving DecidableEq

/-- `FRAME_MAGIC`. -/
def frameMagic : Bytes := [0x57, 0x42, 0x41, 0x54]

@[simp] theorem length_frameMagic : frameMagic.length = 4 := by decide

/-- `FRAME_VERSION`. -/
def frameVersion : UInt16 := 1

/-- `FRAME_HEADER_BYTES`. -/
def frameHeaderBytes : Nat := 24

/-- The first twenty bytes of a frame header. -/
def frameHeaderFields (kind : FrameKind) (items payloadLen payloadChecksum : UInt32) : Bytes :=
  frameMagic ++ (leU16 frameVersion ++ (leU16 kind.code ++ (leU32 items ++ (leU32 payloadLen ++
    leU32 payloadChecksum))))

@[simp] theorem length_frameHeaderFields (kind : FrameKind) (items len checksum : UInt32) :
    (frameHeaderFields kind items len checksum).length = 20 := by
  simp [frameHeaderFields]

/-- `encode_frame_header`. -/
def encodeFrameHeader (kind : FrameKind) (items payloadLen payloadChecksum : UInt32) : Bytes :=
  frameHeaderFields kind items payloadLen payloadChecksum ++
    leU32 (Crc32.hash (frameHeaderFields kind items payloadLen payloadChecksum))

@[simp] theorem length_encodeFrameHeader (kind : FrameKind) (items len checksum : UInt32) :
    (encodeFrameHeader kind items len checksum).length = frameHeaderBytes := by
  simp [encodeFrameHeader, frameHeaderBytes]

namespace Frame

/-- The header of a frame. -/
def header (f : Frame) : Bytes :=
  encodeFrameHeader f.kind f.items (UInt32.ofNat f.payload.length) (Crc32.hash f.payload)

/-- The bytes of a frame. -/
def encode (f : Frame) : Bytes := f.header ++ f.payload

@[simp] theorem length_header (f : Frame) : f.header.length = frameHeaderBytes :=
  length_encodeFrameHeader ..

@[simp] theorem length_encode (f : Frame) :
    f.encode.length = frameHeaderBytes + f.payload.length := by
  rw [encode, length_append, length_header]

end Frame

/-! ## Reading one frame -/

/-- Why salvage stopped behind its longest validated part of the log. -/
inductive SalvageStopReason where
  | cleanEof
  | incompleteFrameHeader
  | invalidFrameMagic
  | unsupportedFrameVersion
  | frameHeaderChecksumMismatch
  | invalidLegacyFrameSize
  | invalidLegacyPoint
  | transactionFrameTooLarge
  | identifiedTransactionTooShort
  | ingressTransactionTooShort
  | unknownFrameKind
  | incompleteFramePayload
  | payloadChecksumMismatch
  | duplicateCommitId
  | duplicateIngressSequence
  | invalidIngressSequence
  | invalidTransaction
  | transactionPointCountTooLarge
  | invalidCatalogTransaction
  | sealCheckpointInvalid
  | identityIndexInvalid
deriving DecidableEq

/-- What stops a scan at a frame: the reason salvage reports and the error
recovery returns. -/
structure Stop where
  reason : SalvageStopReason
  error : Error
deriving DecidableEq

/-- The outcome of reading one frame. -/
inductive ReadFrame where
  | incompleteHeader
  | incompletePayload
  | bad (stop : Stop)
  | frame (f : Frame)
deriving DecidableEq

/-- The checks of a frame header that depend on the kind, made before the
payload is read.  The product of a 32-bit count and the point size cannot
overflow a 64-bit `usize`. -/
def checkFrameHeader (limits : Limits) (offset : Nat) (kind : FrameKind)
    (itemCount payloadLen : Nat) : Except Stop Unit :=
  match kind with
  | .legacyPoints =>
    failIf (limits.maxBatchPoints < itemCount ∨ payloadLen ≠ itemCount * pointBytes)
      ⟨.invalidLegacyFrameSize, .corruption offset "invalid legacy point frame size"⟩
  | .transaction =>
    failIf (limits.maxTransactionBytes < payloadLen)
      ⟨.transactionFrameTooLarge,
        .corruption offset "transaction frame exceeds configured maximum"⟩
  | .identifiedTransaction => do
      failIf (limits.maxTransactionBytes < payloadLen)
        (⟨.transactionFrameTooLarge,
          .corruption offset "transaction frame exceeds configured maximum"⟩ : Stop)
      failIf (payloadLen < commitIdBytes)
        (⟨.identifiedTransactionTooShort,
          .corruption offset "identified transaction frame is too short"⟩ : Stop)
  | .ingressTransaction => do
      failIf (limits.maxTransactionBytes < payloadLen)
        (⟨.transactionFrameTooLarge,
          .corruption offset "transaction frame exceeds configured maximum"⟩ : Stop)
      failIf (payloadLen < ingressIdentityBytes)
        (⟨.ingressTransactionTooShort,
          .corruption offset "ingress transaction frame is too short"⟩ : Stop)
  | .sealCheckpoint =>
    failIf (itemCount ≠ 0 ∨ payloadLen ≠ sealCheckpointBytes)
      ⟨.sealCheckpointInvalid,
        .corruption offset "seal checkpoint header has an item count or wrong payload length"⟩
  | .identityIndex => do
      failIf (itemCount ≠ 0)
        (⟨.identityIndexInvalid, .corruption offset "identity index header has an item count"⟩ :
          Stop)
      failIf (identityIndexFrameLimit limits.maxTransactionBytes < payloadLen)
        (⟨.transactionFrameTooLarge,
          .corruption offset "identity index frame exceeds configured maximum"⟩ : Stop)

theorem slice_length_le (bs : Bytes) (lo hi : Nat) : (slice bs lo hi).length ≤ hi - lo := by
  rw [slice, length_take]
  exact Nat.min_le_left ..

theorem payload_small (rest : Bytes) (len : UInt32) :
    (slice rest frameHeaderBytes (frameHeaderBytes + len.toNat)).length < 2 ^ 32 := by
  have hlen := len.toNat_lt
  have := slice_length_le rest frameHeaderBytes (frameHeaderBytes + len.toNat)
  omega

/-- The frame at the front of `rest`, which begins at `offset` in the file. -/
def readFrame (limits : Limits) (offset : Nat) (rest : Bytes) : ReadFrame :=
  if rest.length < frameHeaderBytes then .incompleteHeader
  else if slice rest 0 4 ≠ frameMagic then
    .bad ⟨.invalidFrameMagic, .corruption offset "invalid frame magic"⟩
  else if readU16 (slice rest 4 6) ≠ frameVersion then
    .bad ⟨.unsupportedFrameVersion, .corruption offset "unsupported frame version"⟩
  else if Crc32.hash (slice rest 0 20) ≠ readU32 (slice rest 20 24) then
    .bad ⟨.frameHeaderChecksumMismatch, .corruption offset "frame header checksum mismatch"⟩
  else
    let items := readU32 (slice rest 8 12)
    let payloadLen := readU32 (slice rest 12 16)
    match FrameKind.ofCode (readU16 (slice rest 6 8)) with
    | none => .bad ⟨.unknownFrameKind, .corruption offset "unknown frame kind"⟩
    | some kind =>
      match checkFrameHeader limits offset kind items.toNat payloadLen.toNat with
      | .error stop => .bad stop
      | .ok () =>
        if rest.length < frameHeaderBytes + payloadLen.toNat then .incompletePayload
        else
          let payload := slice rest frameHeaderBytes (frameHeaderBytes + payloadLen.toNat)
          if Crc32.hash payload ≠ readU32 (slice rest 16 20) then
            .bad ⟨.payloadChecksumMismatch, .corruption offset
              (if rest.length = frameHeaderBytes + payloadLen.toNat then
                "payload checksum mismatch in complete final frame"
              else "payload checksum mismatch before valid tail")⟩
          else .frame ⟨kind, items, payload, payload_small rest payloadLen⟩

namespace Frame

/-- A frame whose header passes the checks made before its payload is read. -/
def Fits (limits : Limits) (f : Frame) : Prop :=
  ∀ offset, checkFrameHeader limits offset f.kind f.items.toNat f.payload.length = .ok ()

variable {limits : Limits} {f : Frame}

/-- The offset only names the frame in an error. -/
theorem fits_of_checkFrameHeader {offset : Nat}
    (h : checkFrameHeader limits offset f.kind f.items.toNat f.payload.length = .ok ()) :
    f.Fits limits := by
  intro offset'
  cases hkind : f.kind <;> rw [hkind] at h <;>
    simpa only [checkFrameHeader, bind_eq_ok, failIf_eq_ok] using h

theorem toNat_payloadLen (f : Frame) :
    (UInt32.ofNat f.payload.length).toNat = f.payload.length := toNat_ofNat_u32 f.small

/-- Behind an intact header only the checks of its fields, the length of what
follows and the payload checksum are left. -/
theorem readFrame_header (limits : Limits) (f : Frame) (offset : Nat) (tail : Bytes) :
    readFrame limits offset (f.header ++ tail) =
      match checkFrameHeader limits offset f.kind f.items.toNat f.payload.length with
      | .error stop => .bad stop
      | .ok () =>
        if tail.length < f.payload.length then .incompletePayload
        else if Crc32.hash (tail.take f.payload.length) ≠ Crc32.hash f.payload then
          .bad ⟨.payloadChecksumMismatch, .corruption offset
            (if tail.length = f.payload.length then
              "payload checksum mismatch in complete final frame"
            else "payload checksum mismatch before valid tail")⟩
        else .frame ⟨f.kind, f.items, tail.take f.payload.length,
          Nat.lt_of_le_of_lt (length_take_le ..) f.small⟩ := by
  have hmagic : slice (f.header ++ tail) 0 4 = frameMagic := by
    simp (disch := simp) [header, encodeFrameHeader, frameHeaderFields, slice_left]
  have hversion : slice (f.header ++ tail) 4 6 = leU16 frameVersion := by
    simp (disch := simp) [header, encodeFrameHeader, frameHeaderFields, slice_skip, slice_left]
  have hkind : slice (f.header ++ tail) 6 8 = leU16 f.kind.code := by
    simp (disch := simp) [header, encodeFrameHeader, frameHeaderFields, slice_skip, slice_left]
  have hitems : slice (f.header ++ tail) 8 12 = leU32 f.items := by
    simp (disch := simp) [header, encodeFrameHeader, frameHeaderFields, slice_skip, slice_left]
  have hlen : slice (f.header ++ tail) 12 16 = leU32 (UInt32.ofNat f.payload.length) := by
    simp (disch := simp) [header, encodeFrameHeader, frameHeaderFields, slice_skip, slice_left]
  have hchecksum : slice (f.header ++ tail) 16 20 = leU32 (Crc32.hash f.payload) := by
    simp (disch := simp) [header, encodeFrameHeader, frameHeaderFields, slice_skip, slice_left]
  have hfields : slice (f.header ++ tail) 0 20 = frameHeaderFields f.kind f.items
      (UInt32.ofNat f.payload.length) (Crc32.hash f.payload) := by
    rw [header, encodeFrameHeader, append_assoc, slice_left (by simp)]
  have hheader : slice (f.header ++ tail) 20 24 = leU32 (Crc32.hash (frameHeaderFields f.kind
      f.items (UInt32.ofNat f.payload.length) (Crc32.hash f.payload))) := by
    simp (disch := simp) [header, encodeFrameHeader, slice_skip, slice_left]
  have hpayload : ∀ n, slice (f.header ++ tail) frameHeaderBytes (frameHeaderBytes + n) =
      tail.take n := by
    intro n
    rw [slice_skip (by simp), length_header, slice]
    simp
  have hlong : ¬ (f.header ++ tail).length < frameHeaderBytes := by simp
  have hshort : ∀ n, (f.header ++ tail).length < frameHeaderBytes + n ↔ tail.length < n := by
    intro n
    rw [length_append, length_header]
    omega
  have hexact : ∀ n, (f.header ++ tail).length = frameHeaderBytes + n ↔ tail.length = n := by
    intro n
    rw [length_append, length_header]
    omega
  simp only [readFrame, if_neg hlong, hmagic, hversion, hkind, hitems, hlen, hchecksum, hfields,
    hheader, readU16_leU16, readU32_leU32, FrameKind.ofCode_code, toNat_payloadLen, hpayload,
    hshort, hexact, ne_eq, not_true_eq_false, if_false]

/-- A complete frame is read whatever follows it. -/
theorem readFrame_encode (hf : f.Fits limits) (offset : Nat) (rest : Bytes) :
    readFrame limits offset (f.encode ++ rest) = .frame f := by
  rw [encode, append_assoc, readFrame_header, hf offset]
  have hlong : ¬ (f.payload ++ rest).length < f.payload.length := by simp
  simp only [if_neg hlong]
  simp

/-- A complete frame whose header fails a check stops the scan. -/
theorem readFrame_encode_of_not_fits (hf : ¬ f.Fits limits) (offset : Nat) (rest : Bytes) :
    ∃ stop, readFrame limits offset (f.encode ++ rest) = .bad stop := by
  cases hcheck : checkFrameHeader limits offset f.kind f.items.toNat f.payload.length with
  | error stop =>
    refine ⟨stop, ?_⟩
    rw [encode, append_assoc, readFrame_header, hcheck]
  | ok => exact absurd (fits_of_checkFrameHeader hcheck) hf

/-- The header bytes are what their fields say. -/
theorem take_header {rest : Bytes} (hlong : frameHeaderBytes ≤ rest.length)
    (hmagic : slice rest 0 4 = frameMagic) (hversion : readU16 (slice rest 4 6) = frameVersion)
    (hheader : Crc32.hash (slice rest 0 20) = readU32 (slice rest 20 24)) {kind : FrameKind}
    (hkind : readU16 (slice rest 6 8) = kind.code) :
    rest.take frameHeaderBytes = encodeFrameHeader kind (readU32 (slice rest 8 12))
      (readU32 (slice rest 12 16)) (readU32 (slice rest 16 20)) := by
  have hlen : ∀ {lo hi : Nat}, hi ≤ frameHeaderBytes → (slice rest lo hi).length = hi - lo :=
    fun h => length_slice (Nat.le_trans h hlong)
  have hfields : slice rest 0 20 = frameHeaderFields kind (readU32 (slice rest 8 12))
      (readU32 (slice rest 12 16)) (readU32 (slice rest 16 20)) := by
    rw [frameHeaderFields, ← hmagic, ← hversion, ← hkind, leU16_readU16 (hlen (by decide)),
      leU16_readU16 (hlen (by decide)), leU32_readU32 (hlen (by decide)),
      leU32_readU32 (hlen (by decide)), leU32_readU32 (hlen (by decide)),
      slice_append_slice rest (by decide) (by decide),
      slice_append_slice rest (by decide) (by decide),
      slice_append_slice rest (by decide) (by decide),
      slice_append_slice rest (by decide) (by decide),
      slice_append_slice rest (by decide) (by decide)]
  rw [encodeFrameHeader, ← hfields, hheader, leU32_readU32 (hlen (by decide)),
    slice_append_slice rest (by decide) (by decide)]
  rfl

/-- A frame is read only where its bytes are. -/
theorem readFrame_eq_frame {offset : Nat} {rest : Bytes}
    (h : readFrame limits offset rest = .frame f) :
    f.Fits limits ∧ rest = f.encode ++ rest.drop f.encode.length := by
  rw [readFrame] at h
  split at h <;> try cases h
  rename_i hlong
  split at h <;> try cases h
  rename_i hmagic
  split at h <;> try cases h
  rename_i hversion
  split at h <;> try cases h
  rename_i hheader
  dsimp only at h
  split at h <;> try cases h
  rename_i kind hkind
  split at h <;> try cases h
  rename_i hcheck
  split at h <;> try cases h
  rename_i hwhole
  split at h <;> try cases h
  rename_i hpayload
  rw [not_not] at hmagic hversion hheader hpayload
  have hbytes := take_header (Nat.le_of_not_lt hlong) hmagic hversion hheader
    (FrameKind.eq_code_of_ofCode hkind)
  have hlen : (slice rest frameHeaderBytes
      (frameHeaderBytes + (readU32 (slice rest 12 16)).toNat)).length =
        (readU32 (slice rest 12 16)).toNat := by
    rw [length_slice (Nat.le_of_not_lt hwhole), Nat.add_sub_cancel_left]
  refine ⟨fits_of_checkFrameHeader (by rw [hlen]; exact hcheck), ?_⟩
  rw [length_encode, encode, header, hlen, hpayload, UInt32.ofNat_toNat, ← hbytes, ← slice_zero,
    slice_append_slice rest (Nat.zero_le _) (Nat.le_add_right ..), slice_zero,
    take_append_drop]

/-- A proper part of a frame ends in its header or in its payload. -/
theorem readFrame_torn (hf : f.Fits limits) (offset k : Nat) (hk : k < f.encode.length) :
    readFrame limits offset (f.encode.take k) =
      if k < frameHeaderBytes then .incompleteHeader else .incompletePayload := by
  rw [length_encode] at hk
  split
  · next hshort =>
    rw [readFrame, if_pos]
    rw [length_take]
    omega
  · next hlong =>
    have hsplit : f.encode.take k = f.header ++ f.payload.take (k - frameHeaderBytes) := by
      rw [encode, take_append, take_of_length_le (by simp; omega), length_header]
    have hpart : (f.payload.take (k - frameHeaderBytes)).length < f.payload.length := by
      rw [length_take]
      omega
    rw [hsplit, readFrame_header, hf offset]
    simp only [if_pos hpart]

end Frame

/-! ## The log header -/

/-- `DATABASE_MAGIC`. -/
def databaseMagic : Bytes := [0x46, 0x54, 0x57, 0x44, 0x42, 0x30, 0x30, 0x31]

/-- `DATABASE_VERSION`. -/
def databaseVersion : UInt16 := 1

/-- `DATABASE_HEADER_BYTES`. -/
def databaseHeaderBytes : Nat := 16

/-- The header that `write_database_header` writes. -/
def databaseHeader : Bytes :=
  let fields := databaseMagic ++ (leU16 databaseVersion ++ [0, 0])
  fields ++ leU32 (Crc32.hash fields)

@[simp] theorem length_databaseHeader : databaseHeader.length = databaseHeaderBytes := by
  decide +kernel

/-- The tests `scan_log` makes on the first sixteen bytes. -/
def checkDatabaseHeader (bytes : Bytes) : Except Error Unit := do
  failIf (bytes.length < databaseHeaderBytes) Error.io
  failIf (slice bytes 0 8 ≠ databaseMagic) Error.invalidHeader
  failIf (readU16 (slice bytes 8 10) ≠ databaseVersion)
    (Error.unsupportedVersion (readU16 (slice bytes 8 10)))
  failIf (Crc32.hash (slice bytes 0 12) ≠ readU32 (slice bytes 12 16) ∨ slice bytes 10 12 ≠ [0, 0])
    Error.invalidHeader

theorem slice_append_left {a b : Bytes} {lo hi : Nat} (h : hi ≤ a.length) :
    slice (a ++ b) lo hi = slice a lo hi := by
  rw [slice, slice, drop_append, take_append]
  have hnone : hi - lo - (a.drop lo).length = 0 := by
    rw [length_drop]
    omega
  rw [hnone, take_zero, append_nil]

/-- The header a writer leaves behind is accepted whatever follows it. -/
theorem checkDatabaseHeader_databaseHeader (rest : Bytes) :
    checkDatabaseHeader (databaseHeader ++ rest) = .ok () := by
  have hslice : ∀ lo hi, hi ≤ 16 → slice (databaseHeader ++ rest) lo hi =
      slice databaseHeader lo hi := fun lo hi h => slice_append_left h
  simp only [checkDatabaseHeader, bind_eq_ok, failIf_eq_ok, hslice 0 8 (by decide),
    hslice 8 10 (by decide), hslice 0 12 (by decide), hslice 12 16 (by decide),
    hslice 10 12 (by decide)]
  refine ⟨(), by simp, (), by decide +kernel, (), by decide +kernel, by decide +kernel⟩

/-- No other header is accepted. -/
theorem eq_databaseHeader_append {bytes : Bytes} (h : checkDatabaseHeader bytes = .ok ()) :
    bytes = databaseHeader ++ bytes.drop databaseHeaderBytes := by
  simp only [checkDatabaseHeader, bind_eq_ok, failIf_eq_ok, not_or, ne_eq, not_not] at h
  obtain ⟨-, hlong, -, hmagic, -, hversion, hcrc, hflags⟩ := h
  have hlen : ∀ {lo hi : Nat}, hi ≤ databaseHeaderBytes → (slice bytes lo hi).length = hi - lo :=
    fun h => length_slice (Nat.le_trans h (Nat.le_of_not_lt hlong))
  have hfields : slice bytes 0 12 = databaseMagic ++ (leU16 databaseVersion ++ [0, 0]) := by
    rw [← hmagic, ← hversion, ← hflags, leU16_readU16 (hlen (by decide)),
      slice_append_slice bytes (by decide) (by decide),
      slice_append_slice bytes (by decide) (by decide)]
  have hheader : bytes.take databaseHeaderBytes = databaseHeader := by
    rw [databaseHeader, ← hfields, hcrc, leU32_readU32 (hlen (by decide)),
      slice_append_slice bytes (by decide) (by decide)]
    rfl
  rw [← hheader, take_append_drop]

end Ftwdb
