import Ftwdb.Shadow.Budget

/-!
# The transaction codec

What the canonical payload of a transaction is to its reader, and to the frame
of an ingress commit.  A payload says how many records it has and where each of
them ends.  So it is read back as it was written, and neither a part of it nor
anything longer is read as a transaction (`decodeTransaction_append`).
-/

namespace Ftwdb

open ByteCodec Check

/-- The reader takes exactly this payload for the transaction, and for no other. -/
structure ReadsBack (t : Transaction) (payload : Bytes) : Prop where
  roundTrip : ∀ offset, decodeTransaction payload t.recordCount offset = .ok t.records
  cut : ∀ k < payload.length, ∀ n offset,
    ∃ e, decodeTransaction (payload.take k) n offset = .error e
  extended : ∀ more ≠ [], ∀ n offset, ∃ e, decodeTransaction (payload ++ more) n offset = .error e
  count : ∀ n ≠ t.recordCount, ∀ offset, ∃ e, decodeTransaction payload n offset = .error e
  distinct : ∀ t', encodeCanonicalTransaction t' = .ok payload → t'.records = t.records

/-- An ingress commit of the transaction that is new appends exactly `n` bytes, one
that is known appends none. -/
def AppendsBytes [Jiff] (t : Transaction) (n : Nat) : Prop :=
  ∀ (db : Database) (io : Io) (identity : IngressIdentity) (commit : Commit),
    t.ingressIdentity = some identity → (db.commit t io).1 = .ok commit →
      (commit.deduplicated = true ∧ (db.commit t io).2.file = db.file) ∨
      (commit.deduplicated = false ∧ commit.bytesWritten = n ∧
        ∃ appended, (db.commit t io).2.file.bytes = db.file.bytes ++ appended ∧
          appended.length = n)

section
variable {t : Transaction} {payload : Bytes}

/-- The count at its place in the payload. -/
theorem recordCount_eq_read (h : encodeCanonicalTransaction t = .ok payload) :
    t.recordCount = (readU32 (slice payload 8 12)).toNat :=
  decodeTransaction_recordCount (decodeTransaction_encode h 0)

theorem transactionHeaderBytes_le (h : encodeCanonicalTransaction t = .ok payload) :
    12 ≤ payload.length := (decodeTransaction_counts (decodeTransaction_encode h 0)).1

theorem encodeCanonicalTransaction_readsBack (h : encodeCanonicalTransaction t = .ok payload) :
    ReadsBack t payload where
  roundTrip := decodeTransaction_encode h
  cut := by
    intro k hk n offset
    refine exists_error_of_ne_ok fun rs hrs => ?_
    -- what is accepted has a header, so the count is that of the whole payload
    have hlong : 12 ≤ (payload.take k).length := (decodeTransaction_counts hrs).1
    have hmore : payload.drop k ≠ [] := by simpa using hk
    have hcount : n = t.recordCount := by
      rw [decodeTransaction_recordCount hrs, recordCount_eq_read h]
      conv_rhs => rw [← List.take_append_drop k payload, slice_append_left hlong]
    have hrejected := decodeTransaction_append hrs hmore
    rw [List.take_append_drop, hcount, decodeTransaction_encode h offset] at hrejected
    cases hrejected
  extended := by
    intro more hmore n offset
    refine exists_error_of_ne_ok fun rs hrs => ?_
    have hcount : n = t.recordCount := by
      rw [decodeTransaction_recordCount hrs, recordCount_eq_read h,
        slice_append_left (transactionHeaderBytes_le h)]
    rw [hcount, decodeTransaction_append (decodeTransaction_encode h offset) hmore] at hrs
    cases hrs
  count := by
    intro n hn offset
    refine exists_error_of_ne_ok fun rs hrs => hn ?_
    rw [decodeTransaction_recordCount hrs, recordCount_eq_read h]
  distinct := by
    intro t' h'
    have hread := decodeTransaction_encode h' 0
    rw [recordCount_eq_read h', ← recordCount_eq_read h, decodeTransaction_encode h 0] at hread
    exact (Except.ok.inj hread).symm

theorem ingressFrameBytes_appended [Jiff] {n : Nat} (h : Shadow.ingressFrameBytes t = .ok n) :
    AppendsBytes t n := by
  intro db io identity commit hidentity hcommit
  have hacted := Database.commit_acted db t io
  generalize db.commit t io = outcome at hacted hcommit ⊢
  cases hacted with
  | answered hanswer =>
    cases hcommit
    obtain ⟨-, -, hanswered⟩ := Database.decide_eq_answer hanswer
    cases hanswered with
    | empty _ hnone => cases hidentity.symm.trans hnone
    | identified => exact .inl ⟨rfl, rfl⟩
    | ingress => exact .inl ⟨rfl, rfl⟩
  | refused _ => cases hcommit
  | broke _ _ => cases hcommit
  | accepted hwrite haccepted _ =>
    obtain ⟨-, hlength⟩ := Database.decide_eq_write_ingress hidentity hwrite
    obtain rfl := Except.ok.inj (h.symm.trans hlength)
    cases hcommit
    exact .inr ⟨rfl, rfl, _, haccepted.bytes, rfl⟩

end

/-- The canonical payload of a transaction is read back exactly, and its length
tells beforehand what an ingress commit appends. -/
theorem transaction_codec [Jiff] {t : Transaction} {payload : Bytes}
    (h : encodeCanonicalTransaction t = .ok payload) :
    ReadsBack t payload ∧ ∃ n, Shadow.ingressFrameBytes t = .ok n ∧ AppendsBytes t n := by
  have hframe : Shadow.ingressFrameBytes t =
      .ok (frameHeaderBytes + ingressIdentityBytes + payload.length) := by
    rw [Shadow.ingressFrameBytes, h]
    rfl
  exact ⟨encodeCanonicalTransaction_readsBack h, _, hframe, ingressFrameBytes_appended hframe⟩

/-- Two point records, the second of which is empty, of one source. -/
def splitPoints : Transaction where
  records := [.points [.actual 7 100 ⟨1⟩], .points []]
  commitId := some 3
  ingressIdentity := some ⟨1, 1, 3⟩

theorem transaction_codec_splitPoints :
    letI := Jiff.withoutZones
    ∃ payload, encodeCanonicalTransaction splitPoints = .ok payload ∧ payload.length = 108 ∧
      ReadsBack splitPoints payload ∧
        ∃ n, Shadow.ingressFrameBytes splitPoints = .ok n ∧ AppendsBytes splitPoints n := by
  let _ := Jiff.withoutZones
  have hlength : (encodeCanonicalTransaction splitPoints).map List.length = .ok 108 := by
    decide +kernel
  obtain ⟨payload, hpayload, hlength⟩ := map_eq_ok.mp hlength
  exact ⟨payload, hpayload, hlength, transaction_codec hpayload⟩

end Ftwdb
