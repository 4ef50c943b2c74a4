import Mathlib.Tactic.MkIffOfInductiveProp
import Ftwdb.Model.CatalogLaws
import Ftwdb.Storage.WriterLog

/-!
# What a receipt stands for

A receipt of a committed transaction points into the log, or carries the bytes
it was compacted with, or carries nothing (the first index format kept no
bytes).  `Tables.Sound` says that every receipt of the tables is backed in one
of these ways by the bytes of the log, and that the maps derived from the
receipts agree with them.  Every frame a scan accepts and every call of the
writer keep it, and it survives bytes appended to the log.

Given that, comparing a retry with the stored transaction has an answer in
terms of the stored bytes alone (`Plain.identifiedPayloadMatchesAt`,
`Ordered.ingressPayloadMatchesAt`).
-/

namespace Ftwdb

open ByteCodec Check KeyedMap
open List hiding mem_insert_iff

/-! ## Reading a frame back -/

variable {file : File} {canonical : Bytes} {commitId : U128} {r : StoredIdentifiedReceipt}
  {p : Option Bytes}

theorem File.readExactAt_of_drop {offset : Nat} {data rest : Bytes}
    (hle : offset ≤ file.bytes.length) (h : file.bytes.drop offset = data ++ rest) :
    file.readExactAt offset data.length = .ok data := by
  have hlen := congrArg List.length h
  rw [length_drop, length_append] at hlen
  rw [File.readExactAt, if_pos (by omega), slice, Nat.add_sub_cancel_left, h, take_left]

/-- What lies behind the first part of a frame. -/
theorem FrameAt.drop_part {offset : Nat} {f : Frame} (h : FrameAt file.bytes offset f)
    {a b : Bytes} (hparts : f.encode = a ++ b) : offset + a.length ≤ file.bytes.length ∧
      ∃ rest, file.bytes.drop (offset + a.length) = b ++ rest := by
  have hlt := h.lt
  obtain ⟨rest, hrest⟩ := h
  rw [hparts, append_assoc] at hrest
  have hlength := congrArg List.length hrest
  rw [length_drop, length_append] at hlength
  exact ⟨by omega, rest, by rw [← drop_drop, hrest, drop_left]⟩

/-- A part of a frame in the file. -/
theorem FrameAt.readExactAt {offset : Nat} {f : Frame} (h : FrameAt file.bytes offset f)
    {a b c : Bytes} (hparts : f.encode = a ++ (b ++ c)) :
    file.readExactAt (offset + a.length) b.length = .ok b := by
  obtain ⟨hle, rest, hdrop⟩ := h.drop_part hparts
  rw [append_assoc] at hdrop
  exact File.readExactAt_of_drop hle hdrop

/-- A part of the payload of a frame in the file. -/
theorem FrameAt.readExactAt_payload {offset : Nat} {f : Frame}
    (h : FrameAt file.bytes offset f) {a b : Bytes} (hpayload : f.payload = a ++ b) :
    file.readExactAt (offset + (frameHeaderBytes + a.length)) b.length = .ok b := by
  have hread := h.readExactAt (a := f.header ++ a) (b := b) (c := [])
    (by rw [Frame.encode, hpayload, append_nil, append_assoc])
  rwa [length_append, Frame.length_header] at hread

theorem FrameAt.readExactAt_header {offset : Nat} {f : Frame} (h : FrameAt file.bytes offset f) :
    file.readExactAt offset frameHeaderBytes = .ok f.header := by
  have hread := h.readExactAt (a := []) (b := f.header) rfl
  rwa [Frame.length_header] at hread

/-- The pieces of a stored payload, compared one after the other. -/
theorem Database.compareChunks_eq (frameOffset : Nat) {fuel offset : Nat}
    {candidate stored rest : Bytes} (hfuel : candidate.length ≤ fuel)
    (hle : offset ≤ file.bytes.length) (hstored : file.bytes.drop offset = stored ++ rest)
    (hlen : stored.length = candidate.length) :
    compareChunks file frameOffset fuel offset candidate =
      if stored = candidate then .ok true
      else .error (.corruption frameOffset "stored identified payload changed after open") := by
  induction fuel generalizing offset candidate stored with
  | zero =>
    obtain rfl := length_eq_zero_iff.mp (Nat.le_zero.mp hfuel)
    obtain rfl := length_eq_zero_iff.mp hlen
    rfl
  | succ fuel ih =>
    cases candidate with
    | nil =>
      obtain rfl := length_eq_zero_iff.mp hlen
      rfl
    | cons x xs =>
      have hchunk : (stored.take 8192).length = ((x :: xs).take 8192).length := by
        rw [length_take, length_take, hlen]
      have hsplit : file.bytes.drop offset =
          stored.take 8192 ++ (stored.drop 8192 ++ rest) := by
        rw [← append_assoc, take_append_drop, hstored]
      have hread := File.readExactAt_of_drop hle hsplit
      rw [hchunk] at hread
      rw [compareChunks.eq_3 _ _ _ _ _ (cons_ne_nil x xs)]
      simp only [hread, bind, Except.bind]
      by_cases heq : stored.take 8192 = (x :: xs).take 8192
      · have hnext : file.bytes.drop (offset + ((x :: xs).take 8192).length) =
            stored.drop 8192 ++ rest := by
          rw [← drop_drop, hsplit, ← hchunk, drop_left]
        have hbound : offset + ((x :: xs).take 8192).length ≤ file.bytes.length := by
          have hlen' := congrArg List.length hstored
          rw [length_drop, length_append] at hlen'
          rw [← hchunk, length_take]
          omega
        rw [failIf, if_neg (not_not.mpr heq)]
        simp only
        rw [ih (by rw [length_drop]; simp only [length_cons] at hfuel ⊢; omega)
          hbound hnext (by rw [length_drop, length_drop, hlen])]
        have hiff : stored.drop 8192 = (x :: xs).drop 8192 ↔ stored = x :: xs := by
          constructor
          · intro hdrop
            rw [← take_append_drop 8192 stored, heq, hdrop, take_append_drop]
          · rintro rfl
            rfl
        simp only [hiff]
      · have hne : stored ≠ x :: xs := fun h => heq (by rw [h])
        rw [failIf, if_pos heq, if_neg hne]

/-! ## Stored transactions -/

/-- The bytes hold a transaction with that many records and points, as a compact
index requires of them. -/
def Tables.Counts (canonical : Bytes) (records points : Nat) : Prop :=
  ∀ offset, validateCompactTransaction canonical records points offset = .ok ()

theorem Tables.counts_of_decode {n offset : Nat} {rs : List Record}
    (h : decodeTransaction canonical n offset = .ok rs)
    (hpoints : ∀ r ∈ rs, validatePointIntervals r.pointList = .ok ()) :
    Counts canonical n (pointTotal rs) := by
  intro offset'
  simp only [validateCompactTransaction, bind_eq_ok, failIf_eq_ok, each_eq_ok, mapError_eq_ok]
  exact ⟨rs, decodeTransaction_offset h offset', (), fun hne => hne rfl, hpoints⟩

theorem Tables.counts_of_validate {n m offset : Nat}
    (h : validateCompactTransaction canonical n m offset = .ok ()) : Counts canonical n m := by
  simp only [validateCompactTransaction, bind_eq_ok, failIf_eq_ok, not_not, ne_eq, each_eq_ok,
    mapError_eq_ok] at h
  obtain ⟨rs, hrs, _, rfl, hpoints⟩ := h
  exact counts_of_decode hrs hpoints

theorem Tables.Counts.bounds {n m : Nat} (h : Counts canonical n m) :
    transactionHeaderBytes ≤ canonical.length ∧ n < 2 ^ 32 ∧ m ≤ canonical.length := by
  have h := h 0
  simp only [validateCompactTransaction, bind_eq_ok, failIf_eq_ok, not_not, ne_eq] at h
  obtain ⟨rs, hrs, _, rfl, -⟩ := h
  obtain ⟨hlong, -, hrecords, hpoints⟩ := decodeTransaction_counts hrs
  rw [length_flatMap] at hpoints
  exact ⟨hlong, hrecords, hpoints⟩

/-- The payload that a plain receipt was issued for. -/
structure PlainPayload (commitId : U128) (r : StoredIdentifiedReceipt) (payload : Bytes) :
    Prop where
  length : payload.length = r.payloadLen.toNat
  checksum : Crc32.hash payload = r.payloadCrc32
  holds : ∃ canonical, payload = leU128 commitId ++ canonical ∧
    Tables.Counts canonical r.commit.records r.commit.points

theorem PlainPayload.ne_nil {payload : Bytes}
    (h : PlainPayload commitId r payload) : payload ≠ [] := by
  rintro rfl
  obtain ⟨canonical, hnil, -⟩ := h.holds
  have hlength := congrArg List.length hnil
  rw [length_append, length_leU128, length_nil] at hlength
  omega

/-- How a plain receipt is backed by the bytes of the log, and the payload this
leaves of its transaction. -/
inductive Plain (bytes : Bytes) (commitId : U128) (r : StoredIdentifiedReceipt) :
    Option Bytes → Prop
  | live {payload : Bytes} (small : payload.length < 2 ^ 32) : PlainPayload commitId r payload →
      r.payloadOffset = r.commit.frameOffset + frameHeaderBytes →
      FrameAt bytes r.commit.frameOffset
        ⟨.identifiedTransaction, UInt32.ofNat r.commit.records, payload, small⟩ →
      Plain bytes commitId r (some payload)
  | compact {payload : Bytes} : PlainPayload commitId r payload → r.payloadOffset = 0 →
      r.compactPayload = some payload → Plain bytes commitId r (some payload)
  | bare : commitIdBytes + transactionHeaderBytes ≤ r.payloadLen.toNat → r.payloadOffset = 0 →
      r.compactPayload = none → Plain bytes commitId r none

/-- The canonical bytes that an ordered receipt was issued for. -/
structure OrderedPayload (r : StoredIngressReceipt) (canonical : Bytes) : Prop where
  length : canonical.length = r.canonicalPayloadLen.toNat
  checksum : Crc32.hash canonical = r.canonicalPayloadCrc32
  holds : Tables.Counts canonical r.commit.records r.commit.points

theorem OrderedPayload.ne_nil {r : StoredIngressReceipt}
    (h : OrderedPayload r canonical) : canonical ≠ [] := by
  rintro rfl
  exact absurd h.holds.bounds.1 (by decide)

/-- The same for an ordered receipt, whose frame has the identity in front. -/
inductive Ordered (bytes : Bytes) (r : StoredIngressReceipt) : Option Bytes → Prop
  | live {canonical : Bytes}
      (small : (Database.identityBytes r.identity ++ canonical).length < 2 ^ 32) :
      OrderedPayload r canonical →
      r.canonicalPayloadOffset = r.commit.frameOffset + (frameHeaderBytes + ingressIdentityBytes) →
      FrameAt bytes r.commit.frameOffset ⟨.ingressTransaction, UInt32.ofNat r.commit.records,
        Database.identityBytes r.identity ++ canonical, small⟩ →
      Ordered bytes r (some canonical)
  | compact {canonical : Bytes} : OrderedPayload r canonical → r.canonicalPayloadOffset = 0 →
      r.compactPayload = some canonical → Ordered bytes r (some canonical)
  | bare : transactionHeaderBytes ≤ r.canonicalPayloadLen.toNat → r.canonicalPayloadOffset = 0 →
      r.compactPayload = none → Ordered bytes r none

theorem Plain.holds {bytes payload : Bytes} (h : Plain bytes commitId r (some payload)) :
    PlainPayload commitId r payload := by
  cases h with
  | live _ hpayload => exact hpayload
  | compact hpayload => exact hpayload

theorem Ordered.holds {bytes : Bytes} {r : StoredIngressReceipt}
    (h : Ordered bytes r (some canonical)) : OrderedPayload r canonical := by
  cases h with
  | live _ hpayload => exact hpayload
  | compact hpayload => exact hpayload

theorem Plain.append {bytes : Bytes} (h : Plain bytes commitId r p) (more : Bytes) :
    Plain (bytes ++ more) commitId r p := by
  cases h with
  | live small hpayload hoffset hframe => exact .live small hpayload hoffset (hframe.append more)
  | compact hpayload hoffset hkept => exact .compact hpayload hoffset hkept
  | bare hlong hoffset hkept => exact .bare hlong hoffset hkept

theorem Ordered.append {bytes : Bytes} {r : StoredIngressReceipt}
    (h : Ordered bytes r p) (more : Bytes) : Ordered (bytes ++ more) r p := by
  cases h with
  | live small hpayload hoffset hframe => exact .live small hpayload hoffset (hframe.append more)
  | compact hpayload hoffset hkept => exact .compact hpayload hoffset hkept
  | bare hlong hoffset hkept => exact .bare hlong hoffset hkept

/-! ## Comparing a retry -/

/-- A live receipt reads its frame again and finds a difference behind equal
lengths and checksums to be corruption; a compacted one finds it to be another
transaction. -/
theorem Plain.identifiedPayloadMatchesAt (h : Plain file.bytes commitId r p)
    (candidate : Bytes) :
    Database.identifiedPayloadMatchesAt file r candidate =
      if p = some candidate then .ok true
      else if r.payloadOffset ≠ 0 ∧ candidate.length = r.payloadLen.toNat ∧
          Crc32.hash candidate = r.payloadCrc32 then
        .error (.corruption r.commit.frameOffset "stored identified payload changed after open")
      else .ok false := by
  rw [Database.identifiedPayloadMatchesAt]
  by_cases hdiffer : candidate.length ≠ r.payloadLen.toNat ∨ Crc32.hash candidate ≠ r.payloadCrc32
  · have hp : p ≠ some candidate := by
      rintro rfl
      exact hdiffer.elim (· h.holds.length) (· h.holds.checksum)
    rw [if_pos hdiffer, if_neg hp, if_neg fun h => not_and_or.mpr hdiffer h.2]
  · have hsame : candidate.length = r.payloadLen.toNat ∧ Crc32.hash candidate = r.payloadCrc32 := by
      simpa only [not_or, not_not] using hdiffer
    rw [if_neg hdiffer]
    cases h with
    | @live payload small hpayload hoffset hframe =>
      have hne : r.payloadOffset ≠ 0 := by
        rw [hoffset, frameHeaderBytes]
        omega
      have hrecords : ¬ 2 ^ 32 ≤ r.commit.records := by
        obtain ⟨canonical, -, hcounts⟩ := hpayload.holds
        exact Nat.not_le.mpr hcounts.bounds.2.1
      have hread := hframe.readExactAt_header
      have hheader : Frame.header ⟨.identifiedTransaction, UInt32.ofNat r.commit.records, payload,
          small⟩ = encodeFrameHeader .identifiedTransaction (UInt32.ofNat r.commit.records)
            r.payloadLen r.payloadCrc32 := by
        rw [Frame.header, hpayload.length, hpayload.checksum, UInt32.ofNat_toNat]
      obtain ⟨hbound, rest, hdrop⟩ := hframe.drop_part rfl
      rw [Frame.length_header, ← hoffset] at hbound hdrop
      rw [if_neg hne]
      simp only [failIf, hoffset, hread, hheader, bind, Except.bind, ne_eq, not_true_eq_false,
        if_false, if_neg hrecords]
      rw [← hoffset, Database.compareChunks_eq _ (Nat.le_refl _) hbound hdrop
        (hpayload.length.trans hsame.1.symm)]
      simp only [Option.some.injEq, hne, not_false_eq_true, hsame, and_self, if_true]
    | compact hpayload hoffset hkept =>
      rw [if_pos hoffset, hkept]
      simp only [ne_eq, hoffset, not_true_eq_false, false_and, if_false, Option.some.injEq]
      split <;> simp [*]
    | bare hlong hoffset hkept =>
      rw [if_pos hoffset, hkept]
      simp [hoffset]

/-- A checksum collision behind the identity leaves the whole frame header as it
was, so that an ordered receipt is compared by its bytes in every case. -/
theorem Ordered.ingressPayloadMatchesAt {r : StoredIngressReceipt} (h : Ordered file.bytes r p)
    (candidate : Bytes) :
    Database.ingressPayloadMatchesAt file r candidate = .ok (decide (p = some candidate)) := by
  rw [Database.ingressPayloadMatchesAt]
  by_cases hdiffer : candidate.length ≠ r.canonicalPayloadLen.toNat ∨
      Crc32.hash candidate ≠ r.canonicalPayloadCrc32
  · have hp : p ≠ some candidate := by
      rintro rfl
      exact hdiffer.elim (· h.holds.length) (· h.holds.checksum)
    rw [if_pos hdiffer, decide_eq_false hp]
  · have hsame : candidate.length = r.canonicalPayloadLen.toNat ∧
        Crc32.hash candidate = r.canonicalPayloadCrc32 := by
      simpa only [not_or, not_not] using hdiffer
    rw [if_neg hdiffer]
    cases h with
    | @live canonical small hpayload hoffset hframe =>
      have hne : r.canonicalPayloadOffset ≠ 0 := by
        rw [hoffset, frameHeaderBytes]
        omega
      have hrecords : ¬ 2 ^ 32 ≤ r.commit.records :=
        Nat.not_le.mpr hpayload.holds.bounds.2.1
      have hlen : canonical.length = candidate.length := hpayload.length.trans hsame.1.symm
      have hidentity : (Database.identityBytes r.identity).length = ingressIdentityBytes :=
        Tables.FrameIdentity.length_encode (.ingress r.identity)
      have hsmall : ¬ 2 ^ 32 ≤ ingressIdentityBytes + candidate.length := by
        rw [length_append, hidentity, hlen] at small
        exact Nat.not_le.mpr small
      have hread := hframe.readExactAt_header
      have hheader : Frame.header ⟨.ingressTransaction, UInt32.ofNat r.commit.records,
          Database.identityBytes r.identity ++ canonical, small⟩ =
            encodeFrameHeader .ingressTransaction (UInt32.ofNat r.commit.records)
              (UInt32.ofNat (ingressIdentityBytes + candidate.length))
              (Crc32.hash (Database.identityBytes r.identity ++ candidate)) := by
        rw [Frame.header, length_append, hidentity, hlen,
          Crc32.hash_append_congr hlen (hpayload.checksum.trans hsame.2.symm)]
      have hreadIdentity := hframe.readExactAt (a := Frame.header _) rfl
      rw [Frame.length_header, hidentity] at hreadIdentity
      have hreadCanonical := hframe.readExactAt_payload rfl
      rw [hidentity, hlen, ← hoffset] at hreadCanonical
      rw [if_neg hne]
      simp only [failIf, ne_eq, hoffset, hread, hheader, hreadIdentity, bind, Except.bind,
        not_true_eq_false, if_false, if_neg hrecords, if_neg hsmall]
      rw [← hoffset, hreadCanonical]
      simp [hpayload.checksum]
    | compact hpayload hoffset hkept => rw [if_pos hoffset, hkept]
    | bare hlong hoffset hkept => rw [if_pos hoffset, hkept]

/-! ## Backed tables -/

/-- The numbers of a receipt fit the 64-bit fields of an index. -/
structure Commit.Small (c : Commit) : Prop where
  frameOffset : c.frameOffset < 2 ^ 64
  points : c.points < 2 ^ 64
  records : c.records < 2 ^ 64
  bytesWritten : c.bytesWritten < 2 ^ 64

namespace Tables

/-- Every receipt is backed by the bytes, and the sets and cursors are those of
the receipts. -/
@[mk_iff] structure Backed (t : Tables) (bytes : Bytes) : Prop where
  identified : ∀ commitId r, t.identifiedReceipts[commitId]? = some r → commitId ∈ t.commitIds ∧
    commitId ∉ t.ingressCommitIds ∧ r.commit.Small ∧ ∃ p, Plain bytes commitId r p
  ingress : ∀ key r, t.ingressReceipts[key]? = some r → r.identity.key = key ∧
    r.identity.sourceId ≠ 0 ∧ t.ingressCommitIds[r.identity.commitId]? = some key ∧
    r.commit.Small ∧ ∃ p, Ordered bytes r p
  commitIds : ∀ commitId ∈ t.commitIds,
    commitId ∈ t.identifiedReceipts ∨ commitId ∈ t.ingressCommitIds
  ingressCommitIds : ∀ commitId key, t.ingressCommitIds[commitId]? = some key →
    commitId ∈ t.commitIds ∧
      ∃ r, t.ingressReceipts[key]? = some r ∧ r.identity.commitId = commitId
  cursor : ∀ key ∈ t.ingressReceipts,
    ∃ last, t.ingressLastSequences[key.sourceId]? = some last ∧ key.sequence ≤ last
  last : ∀ sourceId sequence, t.ingressLastSequences[sourceId]? = some sequence →
    (⟨sourceId, sequence⟩ : IngressKey) ∈ t.ingressReceipts

namespace Backed

variable {t : Tables} {bytes : Bytes}

theorem empty (bytes : Bytes) : Tables.Backed {} bytes where
  identified := by simp
  ingress := by simp
  commitIds := by simp
  ingressCommitIds := by simp
  cursor := by simp
  last := by simp

theorem append (h : t.Backed bytes) (more : Bytes) : t.Backed (bytes ++ more) where
  identified := by
    intro commitId r hr
    obtain ⟨hid, hother, hsmall, p, hp⟩ := h.identified commitId r hr
    exact ⟨hid, hother, hsmall, p, hp.append more⟩
  ingress := by
    intro key r hr
    obtain ⟨hkey, hsource, hid, hsmall, p, hp⟩ := h.ingress key r hr
    exact ⟨hkey, hsource, hid, hsmall, p, hp.append more⟩
  commitIds := h.commitIds
  ingressCommitIds := h.ingressCommitIds
  cursor := h.cursor
  last := h.last

theorem addIdentified (h : t.Backed bytes) {commitId : U128} {r : StoredIdentifiedReceipt}
    {p : Option Bytes} (hfresh : commitId ∉ t.commitIds) (hsmall : r.commit.Small)
    (hp : Plain bytes commitId r p) : (t.addIdentified commitId r).Backed bytes where
  identified := by
    intro commitId' r' hr'
    simp only [Tables.addIdentified, getElem?_insert_eq, mem_set_insert_iff] at hr' ⊢
    split at hr'
    · next heq =>
      subst heq
      cases hr'
      refine ⟨.inl rfl, fun hmem => hfresh ?_, hsmall, p, hp⟩
      obtain ⟨key, hkey⟩ := exists_getElem?_of_mem hmem
      exact (h.ingressCommitIds _ key hkey).1
    · obtain ⟨hid, hother, hsmall', p', hp'⟩ := h.identified commitId' r' hr'
      exact ⟨.inr hid, hother, hsmall', p', hp'⟩
  ingress := h.ingress
  commitIds := by
    intro commitId' hmem
    simp only [Tables.addIdentified, mem_set_insert_iff, mem_insert_iff] at hmem ⊢
    rcases hmem with heq | hmem
    · exact .inl (.inl heq)
    · exact (h.commitIds commitId' hmem).imp_left .inr
  ingressCommitIds := by
    intro commitId' key hkey
    obtain ⟨hid, hr⟩ := h.ingressCommitIds commitId' key hkey
    exact ⟨mem_set_insert_iff.mpr (.inr hid), hr⟩
  cursor := h.cursor
  last := h.last

theorem addIngress (h : t.Backed bytes) {r : StoredIngressReceipt} {p : Option Bytes}
    (hfresh : t.Fresh (.ingress r.identity)) (hsmall : r.commit.Small) (hp : Ordered bytes r p) :
    (t.addIngress r).Backed bytes := by
  obtain ⟨hsource, hkey, hcommit, hcursor⟩ := hfresh
  have hother : ∀ key r', t.ingressReceipts[key]? = some r' → r.identity.key ≠ key := by
    rintro key r' hr' rfl
    exact hkey (mem_of_getElem? hr')
  refine ⟨?_, ?_, ?_, ?_, ?_, ?_⟩
  · intro commitId r' hr'
    obtain ⟨hid, hfree, hsmall', p', hp'⟩ := h.identified commitId r' hr'
    refine ⟨mem_set_insert_iff.mpr (.inr hid), fun hmem => ?_, hsmall', p', hp'⟩
    rcases mem_insert_iff.mp hmem with rfl | hmem
    · exact hcommit hid
    · exact hfree hmem
  · intro key r' hr'
    simp only [Tables.addIngress, getElem?_insert_eq] at hr' ⊢
    split at hr'
    · next heq =>
      cases hr'
      exact ⟨heq, hsource, by rw [if_pos rfl, heq], hsmall, p, hp⟩
    · obtain ⟨hkey', hsource', hid', hsmall', p', hp'⟩ := h.ingress key r' hr'
      refine ⟨hkey', hsource', ?_, hsmall', p', hp'⟩
      rw [if_neg, hid']
      intro heq
      exact hcommit (heq ▸ (h.ingressCommitIds _ key hid').1)
  · intro commitId hmem
    simp only [Tables.addIngress, mem_set_insert_iff, mem_insert_iff] at hmem ⊢
    rcases hmem with heq | hmem
    · exact .inr (.inl heq)
    · exact (h.commitIds commitId hmem).imp_right .inr
  · intro commitId key hkey'
    simp only [Tables.addIngress, getElem?_insert_eq, mem_set_insert_iff] at hkey' ⊢
    split at hkey'
    · next heq =>
      cases hkey'
      exact ⟨.inl heq, r, by rw [if_pos rfl], heq⟩
    · obtain ⟨hid, r', hr', heq⟩ := h.ingressCommitIds commitId key hkey'
      exact ⟨.inr hid, r', by rw [if_neg (hother key r' hr'), hr'], heq⟩
  · intro key hmem
    simp only [Tables.addIngress, getElem?_insert_eq, mem_insert_iff] at hmem ⊢
    rcases hmem with rfl | hmem
    · exact ⟨r.identity.sequence, if_pos rfl, UInt64.le_refl _⟩
    · obtain ⟨last, hlast, hle⟩ := h.cursor key hmem
      split
      · next heq =>
        rw [← heq] at hlast
        exact ⟨_, rfl, UInt64.le_trans hle (UInt64.le_of_lt (hcursor last hlast))⟩
      · exact ⟨last, hlast, hle⟩
  · intro sourceId sequence hlast
    simp only [Tables.addIngress, getElem?_insert_eq, mem_insert_iff] at hlast ⊢
    split at hlast
    · next heq =>
      cases hlast
      exact .inl (by rw [← heq]; rfl)
    · exact .inr (h.last sourceId sequence hlast)

/-- A transaction frame and the receipt of the transaction in it. -/
theorem addFrameReceipt (h : t.Backed bytes) {f : Frame} {offset points : Nat}
    (hframe : FrameAt bytes offset f) (hfresh : t.Fresh (frameIdentity f))
    (hcounts : Counts (f.payload.drop (frameIdentity f).bytes) f.items.toNat points)
    {commit : Commit} (hsmall : commit.Small) (hoffset : commit.frameOffset = offset)
    (hpoints : commit.points = points) (hrecords : commit.records = f.items.toNat) :
    (t.addFrameReceipt (frameIdentity f) f.payload offset commit).Backed bytes := by
  have hlong := hcounts.bounds.1
  rw [length_drop] at hlong
  have hitems : UInt32.ofNat commit.records = f.items := by rw [hrecords, UInt32.ofNat_toNat]
  subst hoffset hpoints
  rw [← hrecords] at hcounts
  cases hkind : f.kind with
  | identifiedTransaction =>
    have hid : frameIdentity f = .identified (readU128 (slice f.payload 0 16)) := by
      rw [frameIdentity, hkind]
    rw [hid, FrameIdentity.bytes] at hcounts hlong
    rw [hid] at hfresh ⊢
    have hpayload : f.payload = leU128 (readU128 (slice f.payload 0 16)) ++ f.payload.drop 16 := by
      rw [leU128_readU128, slice_zero, take_append_drop]
      rw [length_slice]
      rw [commitIdBytes, transactionHeaderBytes] at hlong
      omega
    refine h.addIdentified hfresh hsmall (.live f.small ⟨?_, rfl, ?_⟩ rfl ?_)
    · exact (f.toNat_payloadLen).symm
    · exact ⟨f.payload.drop 16, hpayload, hcounts⟩
    · simp only [hitems, ← hkind]
      exact hframe
  | ingressTransaction =>
    obtain ⟨identity, hid, hpayload⟩ : ∃ identity, frameIdentity f = .ingress identity ∧
        (ingressIdentityBytes ≤ f.payload.length → f.payload =
          Database.identityBytes identity ++ f.payload.drop ingressIdentityBytes) := by
      refine ⟨⟨readU128 (slice f.payload 0 16), readU64 (slice f.payload 16 24),
        readU128 (slice f.payload 24 40)⟩, by rw [frameIdentity, hkind], fun hle => ?_⟩
      have hlen : ∀ {lo hi : Nat}, hi ≤ ingressIdentityBytes →
          (slice f.payload lo hi).length = hi - lo := fun h => length_slice (Nat.le_trans h hle)
      rw [Database.identityBytes, leU128_readU128 (hlen (by decide)),
        leU64_readU64 (hlen (by decide)), leU128_readU128 (hlen (by decide)),
        slice_append_slice f.payload (by decide) (by decide),
        slice_append_slice f.payload (by decide) (by decide), slice_zero, ingressIdentityBytes,
        take_append_drop]
    rw [hid, FrameIdentity.bytes] at hcounts hlong
    rw [hid] at hfresh ⊢
    have hpayload := hpayload (by
      rw [transactionHeaderBytes] at hlong
      omega)
    have hcanonical : (f.payload.drop ingressIdentityBytes).length < 2 ^ 32 := by
      have := f.small
      rw [length_drop]
      omega
    refine h.addIngress (p := some (f.payload.drop ingressIdentityBytes)) hfresh hsmall
      (.live (by rw [← hpayload]; exact f.small) ⟨?_, rfl, hcounts⟩ ?_ ?_)
    · exact (toNat_ofNat_u32 hcanonical).symm
    · rw [← Nat.add_assoc]
    · simp only [hitems, ← hkind, ← hpayload]
      exact hframe
  | _ =>
    have hid : frameIdentity f = .anonymous := by
      rw [frameIdentity, hkind]
    rw [hid]
    exact h

end Backed

/-! ## Compact receipts -/

theorem checkCompactPayload_eq_ok {payload : Bytes} {len crc : UInt32}
    {records points skip offset : Nat} {extra : Bool} {message : String} {kept : Option Bytes} :
    checkCompactPayload payload len crc records points skip offset extra message = .ok kept ↔
      payload = [] ∧ kept = none ∨ payload ≠ [] ∧ kept = some payload ∧
        payload.length = len.toNat ∧ Crc32.hash payload = crc ∧ extra = true ∧
        validateCompactTransaction (payload.drop skip) records points offset = .ok () := by
  rw [checkCompactPayload]
  by_cases hnil : payload = []
  · simp [hnil, eq_comm (a := kept)]
  · rw [if_neg hnil]
    simp only [bind_eq_ok, failIf_eq_ok, not_or, not_not, ne_eq, hnil, false_and, false_or,
      Except.ok.injEq, Bool.not_eq_false, not_false_eq_true, true_and]
    constructor
    · rintro ⟨_, ⟨hlen, hcrc, hextra⟩, _, hvalid, rfl⟩
      exact ⟨rfl, hlen, hcrc, hextra, hvalid⟩
    · rintro ⟨rfl, hlen, hcrc, hextra, hvalid⟩
      exact ⟨(), ⟨hlen, hcrc, hextra⟩, (), hvalid, rfl⟩

/-- The receipt that a scan makes of an entry, with the bytes it keeps. -/
def CompactIdentifiedReceipt.stored (r : CompactIdentifiedReceipt) (kept : Option Bytes)
    (offset : Nat) : StoredIdentifiedReceipt where
  payloadOffset := 0
  payloadLen := r.payloadLen
  payloadCrc32 := r.payloadCrc32
  compactPayload := kept
  commit :=
    { frameOffset := offset
      points := r.points.toNat
      records := r.records.toNat
      bytesWritten := 0
      durable := false
      deduplicated := false }

/-- The ordered receipt that a scan makes of an entry. -/
def CompactIngressReceipt.stored (r : CompactIngressReceipt) (kept : Option Bytes) :
    StoredIngressReceipt where
  identity := ⟨r.sourceId, r.sequence, r.commitId⟩
  canonicalPayloadOffset := 0
  canonicalPayloadLen := r.canonicalPayloadLen
  canonicalPayloadCrc32 := r.canonicalPayloadCrc32
  compactPayload := kept
  commit :=
    { frameOffset := r.frameOffset.toNat
      points := r.points.toNat
      records := r.records.toNat
      bytesWritten := r.bytesWritten.toNat
      durable := false
      deduplicated := false }

/-- The bytes of an entry: none, or the payload the entry describes. -/
def CompactIdentifiedReceipt.Keeps (r : CompactIdentifiedReceipt) (kept : Option Bytes) : Prop :=
  r.payload = [] ∧ kept = none ∨ r.payload ≠ [] ∧ kept = some r.payload ∧
    r.payload.length = r.payloadLen.toNat ∧ Crc32.hash r.payload = r.payloadCrc32 ∧
    commitIdBytes ≤ r.payload.length ∧ readU128 (slice r.payload 0 commitIdBytes) = r.commitId ∧
    Counts (r.payload.drop commitIdBytes) r.records.toNat r.points.toNat

/-- The bytes of an ordered entry: none, or the transaction without its identity. -/
def CompactIngressReceipt.Keeps (r : CompactIngressReceipt) (kept : Option Bytes) : Prop :=
  r.canonicalPayload = [] ∧ kept = none ∨ r.canonicalPayload ≠ [] ∧
    kept = some r.canonicalPayload ∧
    r.canonicalPayload.length = r.canonicalPayloadLen.toNat ∧
    Crc32.hash r.canonicalPayload = r.canonicalPayloadCrc32 ∧
    Counts r.canonicalPayload r.records.toNat r.points.toNat

theorem applyIdentifiedReceipt_eq_ok {t t' : Tables} {r : CompactIdentifiedReceipt}
    {offset : Nat} :
    t.applyIdentifiedReceipt r offset = .ok t' ↔ ∃ kept,
      commitIdBytes + transactionHeaderBytes ≤ r.payloadLen.toNat ∧ r.Keeps kept ∧
      r.commitId ∉ t.commitIds ∧ t' = t.addIdentified r.commitId (r.stored kept offset) := by
  simp only [applyIdentifiedReceipt, bind_eq_ok, failIf_eq_ok, mapError_eq_ok, not_lt,
    checkCompactPayload_eq_ok, Bool.and_eq_true, decide_eq_true_eq, Except.ok.injEq]
  constructor
  · rintro ⟨_, hlong, kept, hkept, _, hfresh, rfl⟩
    refine ⟨kept, hlong, ?_, hfresh, rfl⟩
    rcases hkept with hnone | ⟨hne, hkept, hlen, hcrc, ⟨hid, hread⟩, hvalid⟩
    · exact .inl hnone
    · exact .inr ⟨hne, hkept, hlen, hcrc, hid, hread, counts_of_validate hvalid⟩
  · rintro ⟨kept, hlong, hkept, hfresh, rfl⟩
    refine ⟨(), hlong, kept, ?_, (), hfresh, rfl⟩
    rcases hkept with hnone | ⟨hne, hkept, hlen, hcrc, hid, hread, hcounts⟩
    · exact .inl hnone
    · exact .inr ⟨hne, hkept, hlen, hcrc, ⟨hid, hread⟩, hcounts offset⟩

theorem applyIngressReceipt_eq_ok {t t' : Tables} {r : CompactIngressReceipt} {offset : Nat} :
    t.applyIngressReceipt r offset = .ok t' ↔ ∃ kept,
      transactionHeaderBytes ≤ r.canonicalPayloadLen.toNat ∧ r.Keeps kept ∧
      t.Fresh (.ingress (r.stored kept).identity) ∧ t' = t.addIngress (r.stored kept) := by
  have hadd : ∀ kept, (t.enterCommitId (.ingress (r.stored kept).identity)).addIngress
      (r.stored kept) = t.addIngress (r.stored kept) := by
    intro kept
    simp only [enterCommitId, addIngress, insert_insert_self]
  simp only [applyIngressReceipt, bind_eq_ok, failIf_eq_ok, mapError_eq_ok, not_lt,
    checkCompactPayload_eq_ok, enterIngress_eq_ok, Except.ok.injEq]
  constructor
  · rintro ⟨_, hlong, kept, hkept, _, ⟨hfresh, rfl⟩, rfl⟩
    refine ⟨kept, hlong, ?_, hfresh, hadd kept⟩
    rcases hkept with hnone | ⟨hne, hkept, hlen, hcrc, -, hvalid⟩
    · exact .inl hnone
    · exact .inr ⟨hne, hkept, hlen, hcrc, counts_of_validate hvalid⟩
  · rintro ⟨kept, hlong, hkept, hfresh, rfl⟩
    refine ⟨(), hlong, kept, ?_, _, ⟨hfresh, rfl⟩, hadd kept⟩
    rcases hkept with hnone | ⟨hne, hkept, hlen, hcrc, hcounts⟩
    · exact .inl hnone
    · exact .inr ⟨hne, hkept, hlen, hcrc, trivial, hcounts offset⟩

/-! ## What a frame does -/

/-- What a payload that a scan accepts makes of the tables. -/
inductive Takes [Jiff] (t : Tables) (limits : Limits) (published : List UInt64) (offset : Nat)
    (f : Frame) : Tables → Prop
  | points : f.kind = .legacyPoints → Takes t limits published offset f
      { t with
        index := (decodePoints f.payload).foldl LiveIndex.push t.index
        points := t.points + f.items.toNat }
  | reclaims : readU64 (slice f.payload 0 8) ∈ published → Takes t limits published offset f
      { t with index := ∅, points := 0, pendingReclaim := true }
  | checkpoint : Takes t limits published offset f t
  | identities {t' : Tables} : t.applyIdentityIndex f.payload offset = .ok t' →
      Takes t limits published offset f t'
  | transaction {t' : Tables} : t.applyTransaction limits f offset = .ok t' →
      Takes t limits published offset f t'

/-- A frame is counted behind what its payload does. -/
theorem exists_takes [Jiff] {t t' : Tables} {limits : Limits} {published : List UInt64}
    {offset : Nat} {f : Frame} (h : t.applyFrame limits published offset f = .ok t') :
    ∃ t₁, t.Takes limits published offset f t₁ ∧ t' = t₁.countCommit := by
  obtain ⟨t₁, hpayload, rfl⟩ := map_eq_ok.mp h
  refine ⟨t₁, ?_, rfl⟩
  cases hkind : f.kind with
  | legacyPoints =>
    simp only [applyPayload, hkind, applyLegacyPoints, bind_eq_ok, Except.ok.injEq] at hpayload
    obtain ⟨_, -, rfl⟩ := hpayload
    exact .points hkind
  | sealCheckpoint =>
    simp only [applyPayload, hkind, applySealCheckpoint, bind_eq_ok, Except.ok.injEq] at hpayload
    obtain ⟨_, -, rfl⟩ := hpayload
    split
    · next hpublished => exact .reclaims hpublished
    · exact .checkpoint
  | identityIndex =>
    simp only [applyPayload, hkind] at hpayload
    exact .identities hpayload
  | transaction | identifiedTransaction | ingressTransaction =>
    simp only [applyPayload, hkind] at hpayload
    exact .transaction hpayload

/-! ## Scans keep the receipts backed -/

namespace Backed

variable {t t' : Tables} {bytes : Bytes} {offset : Nat}

theorem applyIdentifiedReceipt (h : t.Backed bytes) (hoffset : offset < 2 ^ 64)
    {r : CompactIdentifiedReceipt} (hstep : t.applyIdentifiedReceipt r offset = .ok t') :
    t'.Backed bytes := by
  obtain ⟨kept, hlong, hkept, hfresh, rfl⟩ := applyIdentifiedReceipt_eq_ok.mp hstep
  have hsmall : (r.stored kept offset).commit.Small :=
    ⟨hoffset, r.points.toNat_lt, r.records.toNat_lt, Nat.two_pow_pos 64⟩
  rcases hkept with ⟨-, rfl⟩ | ⟨-, rfl, hlen, hcrc, hid, hread, hcounts⟩
  · exact h.addIdentified hfresh hsmall (.bare hlong rfl rfl)
  · refine h.addIdentified hfresh hsmall (.compact ⟨hlen, hcrc, _, ?_, hcounts⟩ rfl rfl)
    rw [← hread, leU128_readU128 (length_slice hid), slice_zero, take_append_drop]

theorem applyIngressReceipt (h : t.Backed bytes) {r : CompactIngressReceipt}
    (hstep : t.applyIngressReceipt r offset = .ok t') : t'.Backed bytes := by
  obtain ⟨kept, hlong, hkept, hfresh, rfl⟩ := applyIngressReceipt_eq_ok.mp hstep
  have hsmall : (r.stored kept).commit.Small :=
    ⟨r.frameOffset.toNat_lt, r.points.toNat_lt, r.records.toNat_lt, r.bytesWritten.toNat_lt⟩
  rcases hkept with ⟨-, rfl⟩ | ⟨-, rfl, hlen, hcrc, hcounts⟩
  · exact h.addIngress hfresh hsmall (.bare hlong rfl rfl)
  · exact h.addIngress hfresh hsmall (.compact ⟨hlen, hcrc, hcounts⟩ rfl rfl)

theorem applyIdentityIndex (h : t.Backed bytes) (hoffset : offset < 2 ^ 64) {payload : Bytes}
    (hstep : t.applyIdentityIndex payload offset = .ok t') : t'.Backed bytes := by
  simp only [Tables.applyIdentityIndex, bind_eq_ok] at hstep
  obtain ⟨index, -, t₁, hidentified, hingress⟩ := hstep
  have h₁ : t₁.Backed bytes := foldlM_invariant (fun t => t.Backed bytes)
    (fun _ _ _ _ hb hstep => hb.applyIdentifiedReceipt hoffset hstep) h hidentified
  exact foldlM_invariant (fun t => t.Backed bytes)
    (fun _ _ _ _ hb hstep => hb.applyIngressReceipt hstep) h₁ hingress

variable [Jiff]

variable {limits : Limits}

theorem applyTransaction (h : t.Backed bytes) (hbytes : bytes.length < 2 ^ 63) {f : Frame}
    (hframe : FrameAt bytes offset f)
    (hstep : t.applyTransaction limits f offset = .ok t') : t'.Backed bytes := by
  obtain ⟨records, catalog, hfresh, hrecords, happlied, -, rfl⟩ :=
    applyTransaction_eq_ok.mp hstep
  have hcounts := counts_of_decode hrecords (Catalog.intervals_of_applyRecovered happlied)
  obtain ⟨-, hitems, hpoints⟩ := hcounts.bounds
  obtain ⟨-, hlength, -⟩ := decodeTransaction_counts hrecords
  have hsmall := f.small
  have hlt := hframe.lt
  rw [length_drop] at hpoints
  -- no receipt depends on the points or on the catalog
  have hbase : ({ t.pushPoints (records.flatMap Record.pointList) with
      catalog := catalog
      catalogRecords := t.catalogRecords + metadataRecords records } : Tables).Backed bytes :=
    { h with }
  refine hbase.addFrameReceipt hframe ?_ hcounts ⟨?_, ?_, ?_, ?_⟩ rfl rfl hlength
  · cases hid : frameIdentity f <;> rw [hid] at hfresh <;> exact hfresh
  · show offset < 2 ^ 64
    omega
  · show pointTotal records < 2 ^ 64
    omega
  · show records.length < 2 ^ 64
    omega
  · show frameHeaderBytes + f.payload.length < 2 ^ 64
    rw [frameHeaderBytes]
    omega

/-- One frame of a scan. -/
theorem applyFrame (h : t.Backed bytes) (hbytes : bytes.length < 2 ^ 63) {f : Frame}
    (hframe : FrameAt bytes offset f) {published : List UInt64}
    (hstep : t.applyFrame limits published offset f = .ok t') : t'.Backed bytes := by
  obtain ⟨t₁, htakes, rfl⟩ := exists_takes hstep
  suffices h₁ : t₁.Backed bytes from { h₁ with }
  have hlt := hframe.lt
  cases htakes with
  | points | reclaims => exact { h with }
  | checkpoint => exact h
  | identities hpayload => exact h.applyIdentityIndex (by omega) hpayload
  | transaction hpayload => exact h.applyTransaction hbytes hframe hpayload

theorem replay {published : List UInt64} {fs : List Frame}
    (hbytes : (logBytes fs).length < 2 ^ 63)
    (hreplay : Ftwdb.replay limits published databaseHeaderBytes {} fs = .ok t) :
    t.Backed (logBytes fs) :=
  replay_invariant (fun t => t.Backed (logBytes fs)) (.empty _)
    (fun hframe hb hstep => hb.applyFrame hbytes hframe hstep) hreplay

end Backed

end Tables

end Ftwdb
