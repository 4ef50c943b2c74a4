import Ftwdb.Storage.FailStop

/-!
# Reuse of a plain commit identifier

A transaction with a commit identifier that is known already is answered as a
repetition if its bytes are those of the original, and is a conflict otherwise.
The comparison of a frame that is still in the log takes a difference behind
equal lengths and checksums to be damage of the log, though, and poisons the
handle.  `Reachable.commit_reuse_iff` says that this is the only exception.  No
later call forgets an original, so a transaction under an identity is written
once (`Reachable.commit_exactly_once`).
-/

namespace Ftwdb

open ByteCodec Check KeyedMap

namespace Database

/-! ## The original transaction -/

/-- The bytes that were committed under a plain identifier. -/
def Original (db : Database) (commitId : U128) (payload : Bytes) : Prop :=
  db.logical.plain commitId = some (some payload)

theorem original_iff {db : Database} {commitId : U128} {payload : Bytes} :
    db.Original commitId payload ↔ ∃ r, db.identifiedReceipts[commitId]? = some r ∧
      r.payload db.file.bytes = some payload := by
  show db.identifiedReceipts[commitId]?.map (·.payload db.file.bytes) = _ ↔ _
  cases db.identifiedReceipts[commitId]? <;> simp

/-! ## Receipts stay -/

/-- Every receipt of a handle, with the bytes behind it, is a receipt of another one. -/
structure Remembers (db db' : Database) : Prop where
  plain : ∀ {commitId : U128} {payload : Option Bytes},
    db.logical.plain commitId = some payload → db'.logical.plain commitId = some payload
  ordered : ∀ {key : IngressKey} {entry : OrderedEntry},
    db.logical.ordered key = some entry → db'.logical.ordered key = some entry

namespace Remembers

variable {db db' db'' : Database}

theorem trans (h : db.Remembers db') (h' : db'.Remembers db'') : db.Remembers db'' :=
  ⟨fun hplain => h'.plain (h.plain hplain), fun hordered => h'.ordered (h.ordered hordered)⟩

theorem flush (db : Database) (io : Io) : db.Remembers (db.flush io).2 := by
  rcases db.flush_cases io with ⟨e, poison, hflush, -⟩ | ⟨-, -, hflush⟩
  all_goals
    rw [hflush]
    exact ⟨id, id⟩

theorem of_reopened (h : db.Reopened db') : db.Remembers db' := by
  have hlogical : ∀ db : Database, (db.logical.plain, db.logical.ordered) =
      ((db.toTables.forgetDurable.ledger.logical db.file.bytes).plain,
        (db.toTables.forgetDurable.ledger.logical db.file.bytes).ordered) := by
    intro db
    rw [logical, ← Tables.logical_forgetDurable]
    rfl
  have hsame := hlogical db'
  rw [h.ledger, h.bytes, ← hlogical] at hsame
  obtain ⟨hplain, hordered⟩ := Prod.mk.inj hsame
  exact ⟨by rw [hplain]; exact id, by rw [hordered]; exact id⟩

variable [Jiff]

/-- A log that grows keeps the bytes behind its receipts. -/
theorem of_append (hsound : db.Sound) {more : Bytes}
    (hbytes : db'.file.bytes = db.file.bytes ++ more)
    (hplain : ∀ {commitId : U128} {r}, db.identifiedReceipts[commitId]? = some r →
      db'.identifiedReceipts[commitId]? = some r)
    (hordered : ∀ {key : IngressKey} {r}, db.ingressReceipts[key]? = some r →
      db'.ingressReceipts[key]? = some r) : db.Remembers db' := by
  constructor
  · intro commitId payload h
    obtain ⟨r, hr, rfl⟩ := Option.map_eq_some_iff.mp h
    obtain ⟨-, -, -, p, hp⟩ := hsound.identified commitId r hr
    refine Option.map_eq_some_iff.mpr ⟨r, hplain hr, ?_⟩
    rw [hbytes, (hp.append more).payload_eq, hp.payload_eq]
  · intro key entry h
    obtain ⟨r, hr, rfl⟩ := Option.map_eq_some_iff.mp h
    obtain ⟨-, -, -, -, p, hp⟩ := hsound.ingress key r hr
    refine Option.map_eq_some_iff.mpr ⟨r, hordered hr, ?_⟩
    rw [StoredIngressReceipt.entry, hbytes, (hp.append more).canonical_eq, ← hp.canonical_eq]
    rfl

theorem of_tables (hsound : db.Sound) {more : Bytes}
    (hbytes : db'.file.bytes = db.file.bytes ++ more) (htables : db'.toTables = db.toTables) :
    db.Remembers db' :=
  of_append hsound hbytes (by rw [htables]; exact id) (by rw [htables]; exact id)

/-- A new receipt takes the place of no other. -/
theorem of_enter (hsound : db.Sound) {c : Call} (hfresh : db.toTables.Fresh c.identity)
    {frame : Frame} {catalog : Option Catalog} {offset : Nat} {commit : Commit} {more : Bytes}
    (hbytes : db'.file.bytes = db.file.bytes ++ more)
    (htables : db'.toTables = c.enter db.toTables frame catalog offset commit) :
    db.Remembers db' := by
  obtain ⟨t, henter, hplain, hordered⟩ : ∃ t,
      c.enter db.toTables frame catalog offset commit =
        Tables.addFrameReceipt t c.identity frame.payload offset commit ∧
      t.identifiedReceipts = db.identifiedReceipts ∧ t.ingressReceipts = db.ingressReceipts := by
    cases c <;> exact ⟨_, rfl, rfl, rfl⟩
  rw [henter] at htables
  generalize c.identity = identity at hfresh htables
  refine of_append hsound hbytes (fun {commitId r} hr => ?_) (fun {key r} hr => ?_)
  · rw [htables, ← hr, ← hplain]
    cases identity with
    | identified new =>
      have hne : new ≠ commitId := by
        rintro rfl
        exact hfresh (hsound.identified new r hr).1
      exact (getElem?_insert_eq ..).trans (if_neg hne)
    | _ => rfl
  · rw [htables, ← hr, ← hordered]
    cases identity with
    | ingress new =>
      have hne : new.key ≠ key := by
        rintro rfl
        exact hfresh.2.1 (mem_of_getElem? hr)
      exact (getElem?_insert_eq ..).trans (if_neg hne)
    | _ => rfl

theorem writeFrame (hsound : db.Sound) (frame : Frame) (io : Io) :
    db.Remembers (db.writeFrame frame io).2 := by
  rcases hwrite : db.writeFrame frame io with ⟨e | durable, db'⟩
  · obtain ⟨-, hbroke⟩ := writeFrame_eq_error hwrite
    obtain ⟨n, hbytes⟩ := hbroke.bytes
    exact of_tables hsound hbytes hbroke.tables
  · obtain ⟨haccepted, htables⟩ := writeFrame_eq_ok hwrite
    exact of_tables hsound haccepted.bytes htables

theorem call (hsound : db.Sound) (io : Io) (c : Call) : db.Remembers (db.call io c).2 := by
  by_cases hc : c = .flush
  · subst hc
    exact flush db io
  obtain ⟨_, _, _, -, -, hrequested⟩ := db.call_acted io hc
  obtain ⟨r, hcall, hentered⟩ := db.call_enters io hc
  rw [hcall]
  cases hentered with
  | answered => exact ⟨id, id⟩
  | refused => exact ⟨id, id⟩
  | broke _ hbroke =>
    obtain ⟨n, hbytes⟩ := hbroke.bytes
    exact of_tables hsound hbytes hbroke.tables
  | @accepted frame catalog durable db₁ hdecision haccepted htables =>
    exact of_enter hsound (hrequested frame catalog durable hdecision).fresh haccepted.bytes
      htables

theorem writeSealCheckpoint (hsound : db.Sound) (generation points : UInt64) (io flushIo : Io) :
    db.Remembers (db.writeSealCheckpoint generation points io flushIo).2 :=
  writeSealCheckpoint_preserves ⟨id, id⟩ (writeFrame hsound _ io)
    (fun db' h => h.trans (flush db' flushIo)) fun _ h => ⟨h.plain, h.ordered⟩

theorem adopt (hsound : db.Sound) {order : List UInt64} {file : File} {scan : Scan}
    (h : db.compactLog order = .ok (file, scan)) : db.Remembers (db.adopt file scan) := by
  constructor
  all_goals
    rw [logical_adopt hsound h]
    exact id

theorem reclaimLiveLog (hsound : db.Sound) (order : List UInt64) (io : ReclaimIo) :
    db.Remembers (db.reclaimLiveLog order io).2 :=
  (reclaimLiveLog_preserves (P := fun db' => db'.Sound ∧ db.Remembers db') ⟨hsound, id, id⟩
    ⟨hsound.flush io.flush, flush db io.flush⟩ (fun _ h => ⟨h.1, h.2.plain, h.2.ordered⟩)
    fun h hcompact => ⟨Sound.compactLog_adopt hcompact _, h.2.trans (adopt h.1 hcompact)⟩).2

/-- No later call takes a receipt away. -/
theorem continues (h : Reachable db) (hlater : Continues db db') : db.Remembers db' := by
  induction hlater with
  | refl => exact ⟨id, id⟩
  | later l hprev ih =>
    have hsound := (hprev.reachable h).sound
    cases l with
    | call c io => exact ih.trans (call hsound io c)
    | writeSealCheckpoint generation points io flushIo =>
      exact ih.trans (writeSealCheckpoint hsound generation points io flushIo)
    | reclaimLiveLog order io => exact ih.trans (reclaimLiveLog hsound order io)
  | attachSealedSegments segments _ ih => exact ⟨ih.plain, ih.ordered⟩
  | clearLiveIndex _ ih => exact ⟨ih.plain, ih.ordered⟩
  | reopen hprev hreadOnly hpoisoned hopen ih =>
    exact ih.trans (of_reopened ((hprev.reachable h).healthy.reopened hreadOnly hpoisoned hopen))

end Remembers

/-! ## Reuse -/

section Reuse

variable [Jiff] {db : Database} {t : Transaction} {commitId : U128} {payload : Bytes} {io : Io}

/-- The original is still in the log, and the payload is another one of the same
length and checksum. -/
def Collides (db : Database) (commitId : U128) (payload : Bytes) : Prop :=
  ∃ r original, db.identifiedReceipts[commitId]? = some r ∧ r.payloadOffset ≠ 0 ∧
    db.Original commitId original ∧ payload ≠ original ∧
    payload.length = original.length ∧ Crc32.hash payload = Crc32.hash original

instance : Decidable (db.Original commitId payload) :=
  inferInstanceAs (Decidable (db.identifiedReceipts[commitId]?.map (·.payload db.file.bytes) = _))

/-- A known identifier is a repetition or a conflict, and nothing happens. -/
def Recognises (db : Database) (t : Transaction) (commitId : U128) (payload : Bytes) : Prop :=
  ∀ io, db.commit t io =
    (if db.Original commitId payload then .ok (db.nothingWritten true)
      else .error (.ingressCommitIdConflict commitId), db)

/-- What a writable handle decides about a known identifier. -/
theorem Sound.decide_known (hsound : db.Sound) (hreadOnly : db.readOnly = false)
    (hpoisoned : db.poisoned = false) (hingress : t.ingressIdentity = none)
    (hid : t.commitId = some commitId) (hknown : commitId ∈ db.commitIds)
    (hpayload : encodeTransaction t = .ok payload) :
    (db.Original commitId payload ∧ ¬ db.Collides commitId payload ∧
      db.decide t = .answer (db.nothingWritten true)) ∨
    (¬ db.Original commitId payload ∧ ¬ db.Collides commitId payload ∧
      db.decide t = .refuse (.ingressCommitIdConflict commitId) false) ∨
    (db.Collides commitId payload ∧ ∃ offset reason,
      db.decide t = .refuse (.corruption offset reason) true) := by
  have hdecide : db.decide t =
      if commitId ∈ db.ingressCommitIds then .refuse (.ingressCommitIdConflict commitId) false
      else db.decideReplay t commitId := by
    simp only [Database.decide, hreadOnly, hpoisoned, hingress, hid, if_pos hknown,
      Bool.false_eq_true, if_false]
  rw [hdecide]
  by_cases hordered : commitId ∈ db.ingressCommitIds
  · have hnone : ∀ r, db.identifiedReceipts[commitId]? ≠ some r := fun r hr =>
      (hsound.identified commitId r hr).2.1 hordered
    rw [if_pos hordered]
    refine .inr (.inl ⟨fun h => ?_, fun h => ?_, rfl⟩)
    · obtain ⟨r, hr, -⟩ := original_iff.mp h
      exact hnone r hr
    · obtain ⟨r, -, hr, -⟩ := h
      exact hnone r hr
  rw [if_neg hordered, decideReplay, hpayload]
  obtain ⟨r, hr⟩ := Option.isSome_iff_exists.mp (Std.ExtTreeMap.mem_iff_isSome_getElem?.mp
    ((hsound.commitIds commitId hknown).resolve_right hordered))
  obtain ⟨-, -, -, p, hplain⟩ := hsound.identified commitId r hr
  have horiginal : ∀ original, db.Original commitId original ↔ p = some original := by
    intro original
    rw [original_iff]
    simp only [hr, Option.some.injEq, exists_eq_left', hplain.payload_eq]
  simp only [hr, hplain.identifiedPayloadMatchesAt, horiginal]
  by_cases hsame : p = some payload
  · rw [if_pos hsame]
    refine .inl ⟨hsame, ?_, rfl⟩
    rintro ⟨-, original, -, -, ho, hne, -⟩
    exact hne (Option.some.inj (hsame.symm.trans ((horiginal original).mp ho)))
  rw [if_neg hsame]
  by_cases hcollides : r.payloadOffset ≠ 0 ∧ payload.length = r.payloadLen.toNat ∧
      Crc32.hash payload = r.payloadCrc32
  · rw [if_pos hcollides]
    obtain ⟨hlive, hlength, hchecksum⟩ := hcollides
    obtain ⟨original, rfl⟩ : ∃ original, p = some original := by
      cases hplain with
      | live => exact ⟨_, rfl⟩
      | compact => exact ⟨_, rfl⟩
      | bare _ hzero => exact absurd hzero hlive
    exact .inr (.inr ⟨⟨r, original, hr, hlive, (horiginal original).mpr rfl,
      fun h => hsame (congrArg some h.symm), hlength.trans hplain.holds.length.symm,
      hchecksum.trans hplain.holds.checksum.symm⟩, _, _, rfl⟩)
  · rw [if_neg hcollides]
    refine .inr (.inl ⟨hsame, ?_, rfl⟩)
    rintro ⟨r', original, hr', hlive, ho, -, hlength, hchecksum⟩
    obtain rfl := Option.some.inj (hr.symm.trans hr')
    obtain rfl := (horiginal original).mp ho
    exact hcollides ⟨hlive, hlength.trans hplain.holds.length,
      hchecksum.trans hplain.holds.checksum⟩

/-- Reuse of an identifier is recognised unless the checksums collide. -/
theorem Reachable.commit_reuse_iff (h : Reachable db) (hreadOnly : db.readOnly = false)
    (hpoisoned : db.poisoned = false) (hingress : t.ingressIdentity = none)
    (hid : t.commitId = some commitId) (hknown : commitId ∈ db.commitIds)
    (hpayload : encodeTransaction t = .ok payload) :
    db.Recognises t commitId payload ↔ ¬ db.Collides commitId payload := by
  have hnoPoison : { db with poisoned := db.poisoned || false } = db := by
    simp only [Bool.or_false]
  rcases h.sound.decide_known hreadOnly hpoisoned hingress hid hknown hpayload with
    ⟨horiginal, hfree, hdecision⟩ | ⟨hother, hfree, hdecision⟩ |
      ⟨hcollides, offset, reason, hdecision⟩
  · refine ⟨fun _ => hfree, fun _ io => ?_⟩
    rw [Database.commit, hdecision, if_pos horiginal]
  · refine ⟨fun _ => hfree, fun _ io => ?_⟩
    simp only [Database.commit, hdecision, if_neg hother, hnoPoison]
  · refine ⟨fun hrecognises => ?_, fun hfree => absurd hcollides hfree⟩
    have hcommit := hrecognises {}
    rw [Database.commit, hdecision] at hcommit
    have herror := (Prod.mk.inj hcommit).1
    split at herror <;> cases herror

end Reuse

/-! ## Exactly once -/

section Once

variable {db db' : Database} {t : Transaction} {commit : Commit} {canonical : Bytes}
  {identity : Tables.FrameIdentity}

/-- The receipt of a transaction that was written under an identity. -/
inductive Knows (db : Database) (commit : Commit) (canonical : Bytes) :
    Tables.FrameIdentity → Prop
  | identified {commitId : U128} :
      db.logical.plain commitId = some (some (leU128 commitId ++ canonical)) →
      Knows db commit canonical (.identified commitId)
  | ingress {identity : IngressIdentity} :
      db.logical.ordered identity.key = some ⟨identity.commitId, some canonical,
        ⟨commit.frameOffset, commit.points, commit.records, commit.bytesWritten⟩⟩ →
      Knows db commit canonical (.ingress identity)

theorem Knows.remembered (h : db.Knows commit canonical identity) (hremembers : db.Remembers db') :
    db'.Knows commit canonical identity := by
  cases h with
  | identified h => exact .identified (hremembers.plain h)
  | ingress h => exact .ingress (hremembers.ordered h)

/-- The frame of a transaction leaves its receipt. -/
theorem Knows.of_frame (hnamed : identity ≠ .anonymous) {tables : Tables} {n : Nat}
    {bytes : Bytes} {hsmall : (identity.encode ++ canonical).length < 2 ^ 32}
    (hbytes : db.file.bytes = bytes ++ (transactionFrame identity n _ hsmall).encode)
    (htables : db.toTables = tables.addFrameReceipt identity (identity.encode ++ canonical)
      bytes.length commit) : db.Knows commit canonical identity := by
  have hframe := frameAt_length bytes (transactionFrame identity n _ hsmall) []
  rw [List.append_nil, ← hbytes] at hframe
  cases identity with
  | anonymous => exact absurd rfl hnamed
  | identified commitId =>
    have hreceipt := (congrArg (·.identifiedReceipts[commitId]?) htables).trans
      Std.ExtTreeMap.getElem?_insert_self
    refine .identified (Option.map_eq_some_iff.mpr ⟨_, hreceipt, ?_⟩)
    rw [StoredIdentifiedReceipt.payload, if_neg (by simp [frameHeaderBytes])]
    simp only [toNat_ofNat_u32 hsmall]
    exact congrArg some (hframe.slice_payload (List.nil_append _).symm)
  | ingress identity =>
    have hreceipt := (congrArg (·.ingressReceipts[identity.key]?) htables).trans
      Std.ExtTreeMap.getElem?_insert_self
    have hlength : (identityBytes identity).length = ingressIdentityBytes :=
      Tables.FrameIdentity.length_encode (.ingress identity)
    have hshort : canonical.length < 2 ^ 32 := by
      rw [List.length_append] at hsmall
      omega
    have hslice := hframe.slice_payload (a := identityBytes identity) (b := canonical) rfl
    refine .ingress (Option.map_eq_some_iff.mpr ⟨_, hreceipt, ?_⟩)
    rw [hlength, ← Nat.add_assoc] at hslice
    simp only [StoredIngressReceipt.entry, StoredIngressReceipt.canonical,
      Tables.FrameIdentity.encode, List.drop_left' hlength, toNat_ofNat_u32 hshort, hslice]
    simp [frameHeaderBytes]

variable [Jiff]

/-- A transaction is answered as a repetition, with the receipt of the first if it is an
ordered one, and the handle stays as it is. -/
def Repeats (db : Database) (t : Transaction) (commit : Commit) : Prop :=
  ∀ io, ∃ again, db.commit t io = (.ok again, db) ∧ again.deduplicated = true ∧
    (t.ingressIdentity ≠ none → again.frameOffset = commit.frameOffset ∧
      again.points = commit.points ∧ again.records = commit.records ∧
      again.bytesWritten = commit.bytesWritten)

theorem Knows.repeats (h : db.Knows commit canonical (transactionIdentity t))
    (hcanonical : encodeCanonicalTransaction t = .ok canonical) (hsound : db.Sound)
    (hreadOnly : db.readOnly = false) (hpoisoned : db.poisoned = false) :
    db.Repeats t commit := by
  intro io
  generalize hidentity : transactionIdentity t = identity at h
  rw [transactionIdentity] at hidentity
  cases h with
  | @identified commitId hplain =>
    obtain ⟨hingress, hid⟩ : t.ingressIdentity = none ∧ t.commitId = some commitId := by
      split at hidentity <;> simp_all
    obtain ⟨r, hr, -⟩ := Option.map_eq_some_iff.mp hplain
    have hpayload : encodeTransaction t = .ok (leU128 commitId ++ canonical) := by
      rw [encodeTransaction, hcanonical, hid]
      rfl
    rcases hsound.decide_known hreadOnly hpoisoned hingress hid (hsound.identified commitId r hr).1
      hpayload with ⟨-, -, hdecision⟩ | ⟨hother, -⟩ | ⟨⟨-, original, -, -, horiginal, hne, -⟩, -⟩
    · exact ⟨_, by rw [Database.commit, hdecision], rfl, fun hsome => absurd hingress hsome⟩
    · exact absurd hplain hother
    · exact absurd (Option.some.inj (Option.some.inj (hplain.symm.trans horiginal))) hne
  | @ingress identity hordered =>
    have hingress : t.ingressIdentity = some identity := by
      split at hidentity <;> simp_all
    obtain ⟨r, hr, hentry⟩ := Option.map_eq_some_iff.mp hordered
    simp only [StoredIngressReceipt.entry, OrderedEntry.mk.injEq, Receipt.mk.injEq] at hentry
    obtain ⟨hid, hkept, hreceipt⟩ := hentry
    exact ⟨_, (commit_of_known hsound hingress hreadOnly hpoisoned hr hcanonical io).trans
      (if_pos ⟨hid, hkept⟩), rfl, fun _ => hreceipt⟩

/-- A transaction that was written under an identity is never written again, however many
calls, failures, seals, reclaims and reopens follow. -/
theorem Reachable.commit_exactly_once {db₁ : Database} {io : Io} (h : Reachable db)
    (hcommit : db.commit t io = (.ok commit, db₁)) (hnew : commit.deduplicated = false)
    (hwritten : commit.bytesWritten ≠ 0) (hnamed : transactionIdentity t ≠ .anonymous)
    (hlater : Continues db₁ db') (hreadOnly : db'.readOnly = false)
    (hpoisoned : db'.poisoned = false) : db'.Repeats t commit := by
  have hreachable : Reachable db₁ := by
    have hnext := h.commit t io
    rwa [hcommit] at hnext
  have hacted := db.commit_acted t io
  rw [hcommit] at hacted
  cases hacted with
  | answered hdecision =>
    obtain ⟨-, -, hanswered⟩ := decide_eq_answer hdecision
    cases hanswered with
    | empty => exact absurd rfl hwritten
    | identified => cases hnew
    | ingress => cases hnew
  | accepted hdecision haccepted htables =>
    obtain ⟨-, -, payload, hsmall, rfl, hadmits, -⟩ := decide_eq_write hdecision
    obtain ⟨canonical, hcanonical, rfl⟩ := hadmits.encoded
    have hknows := Knows.of_frame hnamed haccepted.bytes htables
    exact (hknows.remembered (.continues hreachable hlater)).repeats hcanonical
      (hlater.reachable hreachable).sound hreadOnly hpoisoned

end Once

end Database

/-! ## A collision -/

/-- A transaction with a number in its record, under one identifier.  Two numbers
that differ by the polynomial of the checksum give one checksum. -/
def meterReading (bits : UInt64) : Transaction where
  commitId := some 7
  records := [.entity
    { id := 1, kind := "meter", name := "main", parent := none, validFrom := 0, validTo := none,
      properties := (∅ : Properties).insert "factor" (.float ⟨bits⟩) }]

/-- A handle that has committed one reading. -/
def Database.withReading [Jiff] (db : Database) : Database := (db.commit (meterReading 0) {}).2

set_option maxRecDepth 20000 in
/-- The other reading is taken for damage of the log, and the handle is poisoned. -/
theorem commit_reuse_poisons :
    letI := Jiff.withoutZones
    ∃ (db : Database) (payload : Bytes), db.Reachable ∧ db.readOnly = false ∧
      db.poisoned = false ∧ (7 : U128) ∈ db.commitIds ∧
      encodeTransaction (meterReading 0x1DB710641) = .ok payload ∧ ¬ db.Original 7 payload ∧
      (db.commit (meterReading 0x1DB710641) {}).1 =
        .error (.corruption 16 "stored identified payload changed after open") ∧
      (db.commit (meterReading 0x1DB710641) {}).2.poisoned = true := by
  let _ := Jiff.withoutZones
  have hpayload : (encodeTransaction (meterReading 0x1DB710641)).isOk = true := by decide +kernel
  obtain ⟨payload, hpayload⟩ : ∃ payload,
      encodeTransaction (meterReading 0x1DB710641) = .ok payload := by
    cases h : encodeTransaction (meterReading 0x1DB710641) with
    | error e =>
      rw [h] at hpayload
      cases hpayload
    | ok payload => exact ⟨payload, rfl⟩
  have hrun : (Database.openMode {} false [] .empty {}).1.map (fun db =>
      (db.withReading.readOnly, db.withReading.poisoned,
        decide ((7 : U128) ∈ db.withReading.commitIds),
        (encodeTransaction (meterReading 0x1DB710641)).toOption.any
          (fun payload => decide (db.withReading.Original 7 payload)),
        decide ((db.withReading.commit (meterReading 0x1DB710641) {}).1 =
          .error (.corruption 16 "stored identified payload changed after open")),
        (db.withReading.commit (meterReading 0x1DB710641) {}).2.poisoned)) =
      .ok (false, false, true, false, true, true) := by
    decide +kernel
  obtain ⟨db, hopen, hrun⟩ := map_eq_ok.mp hrun
  simp only [Prod.mk.injEq, decide_eq_true_eq, hpayload, Except.toOption, Option.any_some,
    decide_eq_false_iff_not] at hrun
  obtain ⟨hreadOnly, hpoisoned, hknown, hother, herror, hpoisons⟩ := hrun
  exact ⟨db.withReading, payload, .commit _ _ (.opened (Prod.ext hopen rfl)), hreadOnly, hpoisoned,
    hknown, hpayload, hother, herror, hpoisons⟩

set_option maxRecDepth 20000 in
/-- The same reading again. -/
theorem commit_reuse_iff_retry :
    letI := Jiff.withoutZones
    ∃ (db : Database) (payload : Bytes), db.Reachable ∧
      encodeTransaction (meterReading 0) = .ok payload ∧
      (db.Recognises (meterReading 0) 7 payload ↔ ¬ db.Collides 7 payload) := by
  let _ := Jiff.withoutZones
  have hrun : (Database.openMode {} false [] .empty {}).1.map (fun db =>
      (db.withReading.readOnly, db.withReading.poisoned,
        decide ((7 : U128) ∈ db.withReading.commitIds),
        (encodeTransaction (meterReading 0)).isOk)) = .ok (false, false, true, true) := by
    decide +kernel
  obtain ⟨db, hopen, hrun⟩ := map_eq_ok.mp hrun
  simp only [Prod.mk.injEq, decide_eq_true_eq] at hrun
  obtain ⟨hreadOnly, hpoisoned, hknown, hok⟩ := hrun
  have hreachable : db.withReading.Reachable := .commit _ _ (.opened (Prod.ext hopen rfl))
  cases hpayload : encodeTransaction (meterReading 0) with
  | error e =>
    rw [hpayload] at hok
    cases hok
  | ok payload =>
    exact ⟨db.withReading, payload, hreachable, rfl,
      hreachable.commit_reuse_iff hreadOnly hpoisoned rfl rfl hknown hpayload⟩

set_option maxRecDepth 20000 in
/-- An ordered batch is answered with its first receipt behind a reclaim, which has
taken its frame out of the log. -/
theorem commit_exactly_once_reclaimed :
    letI := Jiff.withoutZones
    ∃ (db : Database) (commit : Commit), db.Reachable ∧ (db.commit siteBatch {}).1 = .ok commit ∧
      ((db.commit siteBatch {}).2.reclaimLiveLog [] {}).1 = .ok () ∧
      ((db.commit siteBatch {}).2.reclaimLiveLog [] {}).2.Repeats siteBatch commit := by
  let _ := Jiff.withoutZones
  have hrun : (Database.openMode {} false [] .empty {}).1.map (fun db =>
      let later := (db.commit siteBatch {}).2.reclaimLiveLog [] {}
      (later.2.readOnly, later.2.poisoned, later.1, (db.commit siteBatch {}).1.map fun commit =>
        (commit.deduplicated, decide (commit.bytesWritten ≠ 0)))) =
      .ok (false, false, .ok (), .ok (false, true)) := by
    decide +kernel
  obtain ⟨db, hopen, hrun⟩ := map_eq_ok.mp hrun
  simp only [Prod.mk.injEq] at hrun
  obtain ⟨hreadOnly, hpoisoned, hreclaimed, hcommit⟩ := hrun
  obtain ⟨commit, hcommit, hnew⟩ := map_eq_ok.mp hcommit
  simp only [Prod.mk.injEq, decide_eq_true_eq] at hnew
  have hreachable : db.Reachable := .opened (Prod.ext hopen rfl)
  refine ⟨db, commit, hreachable, hcommit, hreclaimed, ?_⟩
  exact hreachable.commit_exactly_once (Prod.ext hcommit rfl) hnew.1 hnew.2 (by decide)
    (.later (.reclaimLiveLog [] {}) .refl) hreadOnly hpoisoned

end Ftwdb
