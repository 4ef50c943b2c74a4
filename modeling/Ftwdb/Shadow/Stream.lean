import Ftwdb.Shadow.Codec

/-!
# Frames and streams

Around a payload a frame has a header and a checksum; `decode_eq_ok` says which
byte strings are accepted as which message.  Apart from the short form of a
health response every accepted frame is the one that `encode` gives for its
message.  A reader that gets its bytes in any portions takes the frames of a
stream one by one (`readFrom_append`).
-/

namespace Ftwdb.Shadow

open ByteCodec Check List

/-! ## Messages -/

section Messages

/-- A whole payload. -/
theorem whole_accepts {α : Type} {get : Get α} {R : α → Bytes → Bytes → Prop} (h : Accepts get R)
    (check : α → Except ProtocolError Unit) :
    Accepts (do
      let m ← get
      ensure (check m)
      Get.finish
      return m) fun m bs rest => rest = [] ∧ check m = .ok () ∧ R m bs [] := by
  refine (h.bind fun m _ => (Accepts.ensure (check m)).bind fun _ _ =>
    finish_accepts.bind fun _ _ => .pure m).congr fun m bs rest => ?_
  constructor
  · rintro ⟨_, first, _, rfl, hR, _, _, _, rfl, ⟨hcheck, rfl⟩, _, _, _, rfl, ⟨rfl, hend⟩, rfl, rfl⟩
    obtain rfl : rest = [] := hend
    exact ⟨rfl, hcheck, by simpa using hR⟩
  · rintro ⟨rfl, hcheck, hR⟩
    exact ⟨m, bs, [], (append_nil _).symm, hR, (), [], [], rfl, ⟨hcheck, rfl⟩, (), [], [], rfl,
      ⟨rfl, rfl⟩, rfl, rfl⟩

variable [Jiff]

/-- The payloads a message is read from, before the test of its source. -/
def Carries (kind : UInt8) (m : WireMessage) (bs rest : Bytes) : Prop :=
  match m with
  | .request (.hello v) => kind = helloRequest ∧ (putHello v).Writes bs
  | .request (.commitBatch v) =>
    kind = commitBatchRequest ∧ rest = [] ∧ (encodeCommitBatch v).Writes bs
  | .request (.flush v) => kind = flushRequest ∧ (putFlush v).Writes bs
  | .request (.health v) => kind = healthRequest ∧ (encodeHealthRequest v).Writes bs
  | .response (.hello v) => kind = helloResponse ∧ (encodeHelloResponse v).Writes bs
  | .response (.ack v) => kind = ackResponse ∧ (putAck v).Writes bs
  | .response (.health v) => kind = healthResponse ∧ checkQueue v.queueEntries = .ok () ∧
      (v.Legacy ∧ rest = [] ∧ (healthHead v).Writes bs ∨
        (healthHead v ++ putHealthTail v).Writes bs)
  | .response (.error v) => kind = errorResponse ∧ (encodeErrorResponse v).Writes bs

variable {kind : UInt8}

/-- The kind tells the constructor. -/
theorem Carries.kind_eq {m : WireMessage} {bs rest : Bytes}
    (h : Carries kind m bs rest) : (encodePayload m).1 = kind := by
  rcases m with (_ | _ | _ | _) | (_ | _ | _ | _) <;> exact h.1.symm

/-- One kind of message, given what its reader accepts. -/
theorem carries_map {α : Type} {get : Get α} {R : α → Bytes → Bytes → Prop}
    (h : Accepts get R) {mk : α → WireMessage}
    (hmk : ∀ a bs rest, Carries kind (mk a) bs rest ↔ R a bs rest)
    (honly : ∀ m, (encodePayload m).1 = kind → ∃ a, m = mk a) :
    Accepts (do return mk (← get)) (Carries kind) := by
  refine (h.map mk).congr fun m bs rest => ?_
  constructor
  · rintro ⟨a, rfl, hR⟩
    exact (hmk a bs rest).mpr hR
  · intro hm
    obtain ⟨a, rfl⟩ := honly m hm.kind_eq
    exact ⟨a, rfl, (hmk a bs rest).mp hm⟩

theorem decodeMessage_accepts (hkind : isKind kind = true) :
    Accepts (decodeMessage kind) (Carries kind) := by
  have hsame : ∀ {k : UInt8} {p : Prop}, k = k ∧ p ↔ p := and_iff_right rfl
  rw [decodeMessage]
  split
  · next h =>
    subst h
    refine carries_map hello_undoes (fun _ _ _ => hsame) fun m hm => ?_
    rcases m with (_ | _ | _ | _) | (_ | _ | _ | _) <;> first | exact ⟨_, rfl⟩ | cases hm
  split
  · next h =>
    subst h
    refine carries_map commitBatch_accepts (fun _ _ _ => hsame) fun m hm => ?_
    rcases m with (_ | _ | _ | _) | (_ | _ | _ | _) <;> first | exact ⟨_, rfl⟩ | cases hm
  split
  · next h =>
    subst h
    refine carries_map flush_undoes (fun _ _ _ => hsame) fun m hm => ?_
    rcases m with (_ | _ | _ | _) | (_ | _ | _ | _) <;> first | exact ⟨_, rfl⟩ | cases hm
  split
  · next h =>
    subst h
    refine carries_map healthRequest_undoes (fun _ _ _ => hsame) fun m hm => ?_
    rcases m with (_ | _ | _ | _) | (_ | _ | _ | _) <;> first | exact ⟨_, rfl⟩ | cases hm
  split
  · next h =>
    subst h
    refine carries_map helloResponse_undoes (fun _ _ _ => hsame) fun m hm => ?_
    rcases m with (_ | _ | _ | _) | (_ | _ | _ | _) <;> first | exact ⟨_, rfl⟩ | cases hm
  split
  · next h =>
    subst h
    refine carries_map ack_undoes (fun _ _ _ => hsame) fun m hm => ?_
    rcases m with (_ | _ | _ | _) | (_ | _ | _ | _) <;> first | exact ⟨_, rfl⟩ | cases hm
  split
  · next h =>
    subst h
    refine carries_map healthResponse_accepts (fun _ _ _ => hsame) fun m hm => ?_
    rcases m with (_ | _ | _ | _) | (_ | _ | _ | _) <;> first | exact ⟨_, rfl⟩ | cases hm
  split
  · next h =>
    subst h
    refine carries_map errorResponse_undoes (fun _ _ _ => hsame) fun m hm => ?_
    rcases m with (_ | _ | _ | _) | (_ | _ | _ | _) <;> first | exact ⟨_, rfl⟩ | cases hm
  · next h₁ h₂ h₃ h₄ h₅ h₆ h₇ h₈ =>
    simp [isKind, h₁, h₂, h₃, h₄, h₅, h₆, h₇, h₈] at hkind

/-- The short form of a health response. -/
def IsLegacy (kind : UInt8) (m : WireMessage) (bytes : Bytes) : Prop :=
  kind = healthResponse ∧ ∃ v : HealthResponse, m = .response (.health v) ∧ v.Legacy ∧
    checkQueue v.queueEntries = .ok () ∧ checkSource v.sourceId = .ok () ∧
      (healthHead v).Writes bytes

/-- The payloads that are taken: those of the writer, and the old health form. -/
theorem decodePayload_eq_ok (hkind : isKind kind = true) {bytes : Bytes}
    {m : WireMessage} : decodePayload kind bytes = .ok m ↔
      (encodePayload m).1 = kind ∧ (encodePayload m).2.Writes bytes ∨ IsLegacy kind m bytes := by
  rw [decodePayload, Accepts.run_eq_ok (whole_accepts (decodeMessage_accepts hkind) _)]
  rcases m with (v | v | v | v) | (v | v | v | v)
  case response.health =>
    simp only [checkMessageSource, Carries, encodePayload, IsLegacy, writes_encodeHealthResponse,
      WireMessage.response.injEq, Response.health.injEq, exists_eq_left']
    tauto
  all_goals
    simp only [checkMessageSource, Carries, encodePayload, IsLegacy, encodeHello, encodeFlush,
      encodeAck, Writer.writes_check_append, WireMessage.response.injEq, reduceCtorEq, false_and,
      exists_false, and_false, or_false, true_and]
    tauto

theorem decodePayload_safe (hkind : isKind kind = true) (bytes : Bytes) :
    decodePayload kind bytes ≠ .error .panic :=
  (whole_accepts (decodeMessage_accepts hkind) checkMessageSource).run_safe bytes

end Messages

/-! ## Frames -/

/-- A frame header. -/
def header (kind : UInt8) (length : UInt32) : Bytes :=
  frameMagic ++ (beU16 protocolVersion ++ ([kind] ++ ([0] ++ beU32 length)))

@[simp] theorem length_frameMagic : frameMagic.length = 4 := rfl

@[simp] theorem length_header (kind : UInt8) (length : UInt32) :
    (header kind length).length = headerBytes := by
  simp [header, headerBytes]

theorem frameBody_eq (kind : UInt8) (payload : Bytes) :
    frameBody kind payload = header kind (UInt32.ofNat payload.length) ++ payload := by
  simp [frameBody, header]

theorem range_eq_ok {bytes part : Bytes} {lo hi : Nat} :
    range bytes lo hi = .ok part ↔ (lo ≤ hi ∧ hi ≤ bytes.length) ∧ part = slice bytes lo hi := by
  rw [range]
  split
  · next h => exact ⟨fun heq => ⟨h, (Except.ok.inj heq).symm⟩, fun heq => congrArg _ heq.2.symm⟩
  · next h => exact ⟨nofun, fun heq => absurd heq.1 h⟩

theorem byteAt_eq_ok {bytes : Bytes} {i : Nat} {b : UInt8} :
    byteAt bytes i = .ok b ↔ i + 1 ≤ bytes.length ∧ slice bytes i (i + 1) = [b] := by
  rw [byteAt, slice, Nat.add_sub_cancel_left, take_one, head?_drop]
  cases hi : bytes[i]? with
  | none =>
    rw [List.getElem?_eq_none_iff] at hi
    simp only [Option.elim_none, Option.toList_none, reduceCtorEq, and_false]
  | some b' =>
    obtain ⟨hlt, -⟩ := List.getElem?_eq_some_iff.mp hi
    simp only [Option.elim_some, Except.ok.injEq, Option.toList_some, List.cons.injEq, and_true]
    exact ⟨fun hb => ⟨hlt, hb⟩, fun h => h.2⟩

theorem require_eq_ok {p : Prop} [Decidable p] {e : ProtocolError} {u : Unit} :
    require p e = .ok u ↔ ¬ p := failIf_eq_ok

variable {frame : Bytes} {kind : UInt8}

/-- Twelve bytes by their fields. -/
theorem eq_header_append {length : UInt32}
    (hlength : headerBytes ≤ frame.length) (hmagic : slice frame 0 4 = frameMagic)
    (hversion : readBeU16 (slice frame 4 6) = protocolVersion) (hkind : slice frame 6 7 = [kind])
    (hreserved : slice frame 7 8 = [0]) (hpayload : readBeU32 (slice frame 8 12) = length) :
    frame = header kind length ++ frame.drop headerBytes := by
  rw [headerBytes] at hlength
  have hversion' := eq_readBeU16.mp ⟨@length_slice frame 4 6 (by omega), hversion⟩
  have hpayload' := eq_readBeU32.mp ⟨@length_slice frame 8 12 (by omega), hpayload⟩
  rw [header, hversion', hpayload', ← hmagic, ← hkind, ← hreserved,
    slice_append_slice _ (by omega) (by omega), slice_append_slice _ (by omega) (by omega),
    slice_append_slice _ (by omega) (by omega), slice_append_slice _ (by omega) (by omega),
    slice_zero, headerBytes, take_append_drop]

theorem slice_header (kind : UInt8) (length : UInt32) (more : Bytes) :
    slice (header kind length ++ more) 0 4 = frameMagic ∧
      slice (header kind length ++ more) 4 6 = beU16 protocolVersion ∧
      slice (header kind length ++ more) 6 7 = [kind] ∧
      slice (header kind length ++ more) 7 8 = [0] ∧
      slice (header kind length ++ more) 8 12 = beU32 length := by
  -- everything before the length is a literal, so only the last cut needs an argument
  have hlast : slice (header kind length ++ more) 8 12 = (beU32 length ++ more).take 4 := rfl
  exact ⟨rfl, rfl, rfl, rfl, by rw [hlast, take_left' (length_beU32 length)]⟩

/-- The headers that are taken. -/
theorem parseHeader_eq_ok {total : Nat} :
    parseHeader frame = .ok (kind, total) ↔ ∃ length more, frame = header kind length ++ more ∧
      isKind kind = true ∧ total = headerBytes + length.toNat + checksumBytes ∧
      total ≤ maxFrameBytes := by
  simp only [parseHeader, bind_eq_ok, require_eq_ok, range_eq_ok, byteAt_eq_ok, not_lt, not_not,
    Bool.not_eq_false, pure, Except.pure, Except.ok.injEq, Prod.mk.injEq]
  constructor
  · rintro ⟨_, hlength, _, ⟨-, rfl⟩, _, hmagic, _, ⟨-, rfl⟩, _, hversion, k, ⟨-, hkind⟩, _, hvalid,
      reserved, ⟨-, hreserved⟩, _, rfl, _, ⟨-, rfl⟩, _, htotal, rfl, rfl⟩
    exact ⟨_, _, eq_header_append hlength hmagic hversion hkind hreserved rfl, hvalid, rfl, htotal⟩
  · rintro ⟨length, more, rfl, hvalid, rfl, htotal⟩
    have hlength : (header kind length ++ more).length = headerBytes + more.length := by
      rw [length_append, length_header]
    obtain ⟨hmagic, hversion, hkind, hreserved, hpayload⟩ := slice_header kind length more
    rw [headerBytes] at hlength
    have hread := (eq_readBeU32 (x := length)).mpr rfl
    exact ⟨(), by rw [headerBytes]; omega, _, ⟨by omega, rfl⟩, (), hmagic, _, ⟨by omega, rfl⟩, (),
      by rw [hversion]; exact (eq_readBeU16.mpr rfl).2, kind, ⟨by omega, hkind⟩, (), hvalid, 0,
      ⟨by omega, hreserved⟩, (), rfl, _, ⟨by omega, rfl⟩,
      (), by rw [hpayload, hread.2]; exact htotal, rfl, by rw [hpayload, hread.2]⟩

/-- No panic, step by step. -/
theorem bind_ne_panic {α β : Type} {x : Except (Fault ProtocolError) α}
    {f : α → Except (Fault ProtocolError) β} (hx : x ≠ .error .panic)
    (hf : ∀ a, x = .ok a → f a ≠ .error .panic) : (x >>= f) ≠ .error .panic := by
  cases x with
  | ok a => exact hf a rfl
  | error e =>
    intro h
    exact hx (congrArg Except.error (Except.error.inj h))

theorem require_ne_panic (p : Prop) [Decidable p] (e : ProtocolError) :
    require p e ≠ .error .panic := by
  rw [require, failIf]
  split <;> simp

theorem range_ne_panic {bytes : Bytes} {lo hi : Nat} (hlo : lo ≤ hi) (hhi : hi ≤ bytes.length) :
    range bytes lo hi ≠ .error .panic := by
  rw [range, if_pos ⟨hlo, hhi⟩]
  nofun

theorem byteAt_ne_panic {bytes : Bytes} {i : Nat} (hi : i < bytes.length) :
    byteAt bytes i ≠ .error .panic := by
  rw [byteAt, getElem?_eq_getElem hi]
  nofun

theorem parseHeader_safe (frame : Bytes) : parseHeader frame ≠ .error .panic := by
  rw [parseHeader]
  refine bind_ne_panic (require_ne_panic _ _) fun _ hlength => ?_
  have hlong : headerBytes ≤ frame.length := not_lt.mp (require_eq_ok.mp hlength)
  rw [headerBytes] at hlong
  refine bind_ne_panic (range_ne_panic (by omega) (by omega)) fun _ _ => ?_
  refine bind_ne_panic (require_ne_panic _ _) fun _ _ => ?_
  refine bind_ne_panic (range_ne_panic (by omega) (by omega)) fun _ _ => ?_
  refine bind_ne_panic (require_ne_panic _ _) fun _ _ => ?_
  refine bind_ne_panic (byteAt_ne_panic (by omega)) fun _ _ => ?_
  refine bind_ne_panic (require_ne_panic _ _) fun _ _ => ?_
  refine bind_ne_panic (byteAt_ne_panic (by omega)) fun _ _ => ?_
  refine bind_ne_panic (require_ne_panic _ _) fun _ _ => ?_
  refine bind_ne_panic (range_ne_panic (by omega) (by omega)) fun _ _ => ?_
  exact bind_ne_panic (require_ne_panic _ _) fun _ _ => nofun

/-- No bytes make the decoder panic. -/
theorem decode_safe [Jiff] (frame : Bytes) : decode frame ≠ .error .panic := by
  rw [decode]
  refine bind_ne_panic (parseHeader_safe frame) fun (kind, total) hheader => ?_
  obtain ⟨length, more, rfl, hkind, htotal, -⟩ := parseHeader_eq_ok.mp hheader
  rw [headerBytes, checksumBytes] at htotal
  refine bind_ne_panic (require_ne_panic _ _) fun _ hlong => ?_
  have hlong' := require_eq_ok.mp hlong
  rw [not_lt] at hlong'
  refine bind_ne_panic (require_ne_panic _ _) fun _ _ => ?_
  refine bind_ne_panic (range_ne_panic (by omega) hlong') fun _ _ => ?_
  refine bind_ne_panic (range_ne_panic (by omega) (by omega)) fun _ _ => ?_
  refine bind_ne_panic (require_ne_panic _ _) fun _ _ => ?_
  refine bind_ne_panic (range_ne_panic (by rw [headerBytes, checksumBytes]; omega)
    (by omega)) fun _ _ => ?_
  exact decodePayload_safe hkind _

/-- A payload in its frame. -/
def sealFrame (kind : UInt8) (payload : Bytes) : Bytes :=
  frameBody kind payload ++ beU32 (Crc32.hash (frameBody kind payload))

theorem length_sealFrame (kind : UInt8) (payload : Bytes) :
    (sealFrame kind payload).length = headerBytes + payload.length + checksumBytes := by
  rw [sealFrame, frameBody_eq, length_append, length_append, length_header, length_beU32,
    checksumBytes]

theorem sealFrame_eq_header_append (kind : UInt8) (payload : Bytes) :
    sealFrame kind payload = header kind (UInt32.ofNat payload.length) ++
      (payload ++ beU32 (Crc32.hash (frameBody kind payload))) := by
  rw [sealFrame]
  conv_lhs => rw [frameBody_eq, append_assoc]
  rw [← frameBody_eq]

/-- The length of an admissible payload fits its field. -/
theorem toNat_ofNat_payload {n : Nat} (h : n ≤ maxPayloadBytes) : (UInt32.ofNat n).toNat = n := by
  refine UInt32.toNat_ofNat_of_lt' ?_
  have hmax : maxPayloadBytes = 4194288 := rfl
  have hsize : UInt32.size = 4294967296 := rfl
  omega

/-- A message is sealed if its payload is not too large. -/
theorem encode_eq_ok [Jiff] {m : WireMessage} :
    encode m = .ok frame ↔ ∃ payload, (encodePayload m).2.Writes payload ∧
      payload.length ≤ maxPayloadBytes ∧ frame = sealFrame (encodePayload m).1 payload := by
  simp only [encode, bind_eq_ok, failIf_eq_ok, not_lt, Except.ok.injEq]
  constructor
  · rintro ⟨payload, hwrites, -, hsmall, rfl⟩
    exact ⟨payload, hwrites, hsmall, rfl⟩
  · rintro ⟨payload, hwrites, hsmall, rfl⟩
    exact ⟨payload, hwrites, (), hsmall, rfl⟩

theorem parseHeader_header {n : Nat} (hkind : isKind kind = true)
    (hsmall : n ≤ maxPayloadBytes) (more : Bytes) :
    parseHeader (header kind (UInt32.ofNat n) ++ more) =
      .ok (kind, headerBytes + n + checksumBytes) := by
  refine parseHeader_eq_ok.mpr ⟨_, more, rfl, hkind, ?_, ?_⟩
  · rw [toNat_ofNat_payload hsmall]
  · rw [maxPayloadBytes] at hsmall
    have hmax : headerBytes + checksumBytes ≤ maxFrameBytes := by decide
    omega

/-- A frame by its header, payload and checksum. -/
theorem eq_sealFrame {length : UInt32} {more : Bytes} {total : Nat}
    (hframe : frame = header kind length ++ more)
    (htotal : total = headerBytes + length.toNat + checksumBytes) (hlength : frame.length = total)
    (hcheck : readBeU32 (slice frame (total - 4) total) = Crc32.hash (slice frame 0 (total - 4))) :
    frame = sealFrame kind (slice frame headerBytes (total - checksumBytes)) := by
  have hpayload : (slice frame headerBytes (total - checksumBytes)).length = length.toNat := by
    rw [length_slice (by omega)]
    omega
  have hhead : slice frame 0 headerBytes = header kind length := by
    rw [hframe, slice_left (length_header kind length)]
  rw [headerBytes, checksumBytes] at htotal
  have hbody : frameBody kind (slice frame headerBytes (total - checksumBytes)) =
      slice frame 0 (total - 4) := by
    rw [frameBody_eq, hpayload, UInt32.ofNat_toNat, ← hhead, headerBytes, checksumBytes,
      slice_append_slice _ (by omega) (by omega)]
  have hsum := eq_readBeU32.mp ⟨by rw [length_slice (by omega)]; omega, hcheck⟩
  rw [sealFrame, hbody, hsum, slice_append_slice _ (by omega) (by omega), slice_zero,
    take_of_length_le (by omega)]

/-- The parts of a frame. -/
theorem slice_sealFrame (kind : UInt8) (payload : Bytes) :
    slice (sealFrame kind payload) 0 (headerBytes + payload.length) = frameBody kind payload ∧
      slice (sealFrame kind payload) headerBytes (headerBytes + payload.length) = payload ∧
      slice (sealFrame kind payload) (headerBytes + payload.length)
        (headerBytes + payload.length + 4) = beU32 (Crc32.hash (frameBody kind payload)) := by
  have hbody : (frameBody kind payload).length = headerBytes + payload.length := by
    rw [frameBody_eq, length_append, length_header]
  refine ⟨slice_left hbody, ?_, ?_⟩
  · rw [sealFrame_eq_header_append, slice_skip (length_header ..).le, length_header, Nat.sub_self,
      Nat.add_sub_cancel_left, slice_left rfl]
  · rw [sealFrame, slice_skip hbody.le, hbody, Nat.sub_self, Nat.add_sub_cancel_left,
      slice_whole (length_beU32 _)]

/-- The frames that are taken. -/
theorem decode_eq_ok [Jiff] {m : WireMessage} :
    decode frame = .ok m ↔ ∃ kind payload, isKind kind = true ∧ payload.length ≤ maxPayloadBytes ∧
      frame = sealFrame kind payload ∧ decodePayload kind payload = .ok m := by
  simp only [decode, bind_eq_ok, require_eq_ok, range_eq_ok, not_lt, not_not, Prod.exists]
  constructor
  · rintro ⟨kind, total, hheader, _, hshort, _, hlong, _, ⟨-, rfl⟩, _, ⟨-, rfl⟩, _, hcheck, payload,
      ⟨-, rfl⟩, hpayload⟩
    obtain ⟨length, more, hframe, hkind, htotal, hmax⟩ := parseHeader_eq_ok.mp hheader
    have hlength : frame.length = total := by omega
    refine ⟨kind, _, hkind, ?_, eq_sealFrame hframe htotal hlength hcheck, hpayload⟩
    rw [length_slice (by omega), maxPayloadBytes]
    omega
  · rintro ⟨kind, payload, hkind, hsmall, rfl, hpayload⟩
    have hlength := length_sealFrame kind payload
    obtain ⟨hbody, hinner, hsum⟩ := slice_sealFrame kind payload
    have hend : headerBytes + payload.length + checksumBytes - 4 = headerBytes + payload.length :=
      rfl
    have hread := (eq_readBeU32 (x := Crc32.hash (frameBody kind payload))).mpr rfl
    have hparse := parseHeader_header hkind hsmall
      (payload ++ beU32 (Crc32.hash (frameBody kind payload)))
    rw [← sealFrame_eq_header_append] at hparse
    refine ⟨kind, _, hparse, (), hlength.ge, (), hlength.le, _,
      ⟨by omega, rfl⟩, _, ⟨by omega, rfl⟩, (), ?_, payload, ⟨⟨by omega, by omega⟩, ?_⟩, hpayload⟩
    · rw [hend, hbody, checksumBytes, hsum, hread.2]
    · rw [checksumBytes, Nat.add_sub_cancel, hinner]

/-! ## Streams -/

/-- Reads that are cut short or interrupted, but do not fail, change nothing. -/
theorem readExact_ok (base want : Nat) {script : List ReadStep} {done bytes : Bytes}
    (hscript : .failed ∉ script) (hdone : done.length ≤ want)
    (hbytes : want ≤ done.length + bytes.length) :
    ∃ script', ReadStep.failed ∉ script' ∧ readExact base want script done bytes =
      .ok (done ++ bytes.take (want - done.length),
        ⟨bytes.drop (want - done.length), script'⟩) := by
  induction script generalizing done bytes with
  | nil =>
    refine ⟨[], not_mem_nil, ?_⟩
    rw [readExact]
    split
    · next hfull => simp [Nat.sub_eq_zero_of_le hfull]
    · rw [if_neg (by omega)]
  | cons step script ih =>
    rw [mem_cons, not_or] at hscript
    by_cases hfull : want ≤ done.length
    · refine ⟨step :: script, by simpa using hscript, ?_⟩
      unfold readExact
      simp [hfull, Nat.sub_eq_zero_of_le hfull]
    · unfold readExact
      simp only [if_neg hfull]
      cases step with
      | failed => exact absurd rfl hscript.1
      | interrupted => exact ih hscript.2 hdone hbytes
      | upTo n =>
        have hsome : bytes ≠ [] := by
          rintro rfl
          exact hfull hbytes
        simp only [if_neg hsome]
        have hpart : min (max n 1) (want - done.length) ≤ want - done.length :=
          Nat.min_le_right ..
        generalize min (max n 1) (want - done.length) = part at hpart ⊢
        have htake : (bytes.take part).length = part := by
          rw [length_take]
          omega
        have hdone' : (done ++ bytes.take part).length ≤ want := by
          rw [length_append, htake]
          omega
        have hbytes' : want ≤ (done ++ bytes.take part).length + (bytes.drop part).length := by
          rw [length_append, htake, length_drop]
          omega
        obtain ⟨script', hscript', hread⟩ := ih hscript.2 hdone' hbytes'
        refine ⟨script', hscript', ?_⟩
        have hrest : want - (done ++ bytes.take part).length = want - done.length - part := by
          rw [length_append, htake]
          omega
        have hsplit : want - done.length = part + (want - done.length - part) := by omega
        rw [hread, hrest, drop_drop, append_assoc, ← hsplit]
        conv_rhs => rw [hsplit, take_add]
        rw [← hsplit]

theorem readExact_append (base : Nat) {want : Nat} {part : Bytes} (more : Bytes)
    {script : List ReadStep} (hpart : part.length = want) (hscript : .failed ∉ script) :
    ∃ script', ReadStep.failed ∉ script' ∧
      readExact base want script [] (part ++ more) = .ok (part, ⟨more, script'⟩) := by
  have hdone : ([] : Bytes).length ≤ want := Nat.zero_le _
  have hbytes : want ≤ ([] : Bytes).length + (part ++ more).length := by
    rw [length_append, hpart]
    omega
  obtain ⟨script', hscript', hread⟩ := readExact_ok base want hscript hdone hbytes
  refine ⟨script', hscript', ?_⟩
  rw [hread, length_nil, Nat.sub_zero, nil_append, take_left' hpart,
    drop_left' hpart]

section Streams

variable [Jiff]

variable {m : WireMessage}

theorem readFrom_append {frame : Bytes} (h : decode frame = .ok m)
    (suffix : Bytes) {script : List ReadStep} (hscript : .failed ∉ script) :
    ∃ script', ReadStep.failed ∉ script' ∧
      readFrom ⟨frame ++ suffix, script⟩ = .ok (m, ⟨suffix, script'⟩) := by
  obtain ⟨kind, payload, hkind, hsmall, rfl, -⟩ := decode_eq_ok.mp h
  have hparse := parseHeader_header hkind hsmall []
  rw [sealFrame_eq_header_append] at h ⊢
  rw [append_nil] at hparse
  have hhead := length_header kind (UInt32.ofNat payload.length)
  generalize header kind (UInt32.ofNat payload.length) = head at *
  have htail : (payload ++ beU32 (Crc32.hash (frameBody kind payload))).length =
      headerBytes + payload.length + checksumBytes - headerBytes := by
    rw [length_append, length_beU32, Nat.add_assoc, Nat.add_sub_cancel_left, checksumBytes]
  generalize payload ++ beU32 (Crc32.hash (frameBody kind payload)) = tail at *
  -- the header first, then as many bytes as it announces
  obtain ⟨script₁, hscript₁, hfirst⟩ := readExact_append 0 (tail ++ suffix) hhead hscript
  obtain ⟨script₂, hscript₂, hsecond⟩ := readExact_append headerBytes suffix htail hscript₁
  refine ⟨script₂, hscript₂, ?_⟩
  simp only [readFrom, bind_eq_ok, append_assoc]
  exact ⟨_, hfirst, _, hparse, _, hsecond, _, h, rfl⟩

/-- So many calls of `read_from` after each other. -/
def readMany : Nat → Source → Except (Fault ProtocolError) (List WireMessage × Source)
  | 0, source => .ok ([], source)
  | n + 1, source => do
      let (m, source) ← readFrom source
      let (ms, source) ← readMany n source
      return (m :: ms, source)

/-- Frames in a row are read one after the other, however they arrive. -/
theorem readMany_flatten {messages : List WireMessage} {frames : List Bytes}
    (h : List.Forall₂ (fun m frame => decode frame = .ok m) messages frames) (suffix : Bytes)
    {script : List ReadStep} (hscript : .failed ∉ script) :
    ∃ script', readMany messages.length ⟨frames.flatten ++ suffix, script⟩ =
      .ok (messages, ⟨suffix, script'⟩) := by
  induction h generalizing script with
  | nil => exact ⟨script, rfl⟩
  | cons hframe _ ih =>
    rename_i m frame messages frames _
    obtain ⟨script₁, hscript₁, hfirst⟩ := readFrom_append hframe (frames.flatten ++ suffix) hscript
    obtain ⟨script', hrest⟩ := ih hscript₁
    refine ⟨script', ?_⟩
    rw [flatten_cons, append_assoc, length_cons, readMany]
    simp only [bind_eq_ok]
    exact ⟨_, hfirst, _, hrest, rfl⟩

/-! ## The codec -/

theorem isKind_encodePayload (m : WireMessage) : isKind (encodePayload m).1 = true := by
  rcases m with (_ | _ | _ | _) | (_ | _ | _ | _) <;> rfl

theorem decode_of_encode {frame : Bytes} (h : encode m = .ok frame) :
    decode frame = .ok m := by
  obtain ⟨payload, hwrites, hsmall, rfl⟩ := encode_eq_ok.mp h
  have hkind := isKind_encodePayload m
  exact decode_eq_ok.mpr ⟨_, payload, hkind, hsmall, rfl,
    (decodePayload_eq_ok hkind).mpr (.inl ⟨rfl, hwrites⟩)⟩

/-- A frame with the short form of a health response, which ends before the counters. -/
def LegacyHealth (frame : Bytes) : Prop :=
  ∃ v payload, (healthHead v).Writes payload ∧ frame = sealFrame healthResponse payload

/-- A frame that is not of the old form is the only one of its message. -/
theorem encode_of_decode {frame : Bytes} (h : decode frame = .ok m)
    (hlegacy : ¬ LegacyHealth frame) : encode m = .ok frame := by
  obtain ⟨kind, payload, hkind, hsmall, rfl, hpayload⟩ := decode_eq_ok.mp h
  rcases (decodePayload_eq_ok hkind).mp hpayload with ⟨rfl, hwrites⟩ | ⟨rfl, v, -, -, -, -, hwrites⟩
  · exact encode_eq_ok.mpr ⟨payload, hwrites, hsmall, rfl⟩
  · exact absurd ⟨v, payload, hwrites, rfl⟩ hlegacy

/-- What the codec of the protocol gives. -/
structure CodecBijective : Prop where
  decode_encode : ∀ m frame, encode m = .ok frame → decode frame = .ok m
  encode_decode : ∀ frame m, decode frame = .ok m → ¬ LegacyHealth frame → encode m = .ok frame
  /-- No message has two frames. -/
  injective : ∀ frame frame' m, decode frame = .ok m → decode frame' = .ok m →
    ¬ LegacyHealth frame → ¬ LegacyHealth frame' → frame = frame'
  /-- However the reads of the stream are cut, its frames are taken one by one. -/
  stream : ∀ messages frames, List.Forall₂ (fun m frame => encode m = .ok frame) messages frames →
    ∀ suffix script, ReadStep.failed ∉ script → ∃ script',
      readMany messages.length ⟨frames.flatten ++ suffix, script⟩ =
        .ok (messages, ⟨suffix, script'⟩)
  /-- Anything else is an error of the protocol. -/
  rejects : ∀ frame, (∀ m, decode frame ≠ .ok m) → ∃ e, decode frame = .error (.error e)

theorem codecBijective : CodecBijective where
  decode_encode _ _ := decode_of_encode
  encode_decode _ _ := encode_of_decode
  injective frame frame' m h h' hlegacy hlegacy' := by
    have hsame := (encode_of_decode h hlegacy).symm.trans (encode_of_decode h' hlegacy')
    exact Except.ok.inj hsame
  stream _ _ h suffix _ hscript :=
    readMany_flatten (h.imp fun _ _ => decode_of_encode) suffix hscript
  rejects frame h := by
    cases hdecode : decode frame with
    | ok m => exact absurd hdecode (h m)
    | error fault =>
      cases fault with
      | error e => exact ⟨e, rfl⟩
      | panic => exact absurd hdecode (decode_safe frame)

end Streams

set_option maxRecDepth 20000 in
/-- Two requests in front of a byte, read with a short read and an interrupted one. -/
theorem codecBijective_twoRequests :
    letI := Jiff.withoutZones
    let flush : WireMessage := .request (.flush ⟨1, 5⟩)
    let health : WireMessage := .request (.health ⟨9⟩)
    ∃ frame frame' script', encode flush = .ok frame ∧ decode frame = .ok flush ∧
      readMany 2 ⟨[frame, frame'].flatten ++ [0x57], [.upTo 3, .interrupted]⟩ =
        .ok ([flush, health], ⟨[0x57], script'⟩) := by
  let _ := Jiff.withoutZones
  intro flush health
  have hencoded : ((encode flush).map fun _ => (), (encode health).map fun _ => ()) =
      (.ok (), .ok ()) := by
    decide +kernel
  obtain ⟨hflush, hhealth⟩ := Prod.mk.inj hencoded
  obtain ⟨frame, hframe, -⟩ := map_eq_ok.mp hflush
  obtain ⟨frame', hframe', -⟩ := map_eq_ok.mp hhealth
  obtain ⟨script', hread⟩ := codecBijective.stream [flush, health] [frame, frame']
    (.cons hframe (.cons hframe' .nil)) [0x57] [.upTo 3, .interrupted] (by simp)
  exact ⟨frame, frame', script', hframe, codecBijective.decode_encode _ _ hframe, hread⟩

end Ftwdb.Shadow
