import Ftwdb.Model.CatalogSnapshot
import Ftwdb.Storage.Logical

/-!
# The compact log

What `reclaimLiveLog` writes and what a scan makes of it.  The index of a sound
handle lists every receipt with the bytes it stands for; the chunks of the
index frames list the index in order; the catalog transaction leads back to the
catalog and the tail transaction to the live index.  So any scan of the new log
that succeeds, with any limits and any published seals, finds the logical state
of the handle (`Database.logical_of_compacts`).
-/

namespace Ftwdb

open ByteCodec Check KeyedMap List Tables StableSort

/-! ## The index of a sound handle -/

/-- The entry of a plain receipt over the bytes of the log. -/
def StoredIdentifiedReceipt.compact (r : StoredIdentifiedReceipt) (commitId : U128)
    (bytes : Bytes) : CompactIdentifiedReceipt where
  commitId := commitId
  payloadLen := r.payloadLen
  payloadCrc32 := r.payloadCrc32
  points := UInt64.ofNat r.commit.points
  records := UInt64.ofNat r.commit.records
  payload := (r.payload bytes).getD []

/-- The entry of an ordered receipt over the bytes of the log. -/
def StoredIngressReceipt.compact (r : StoredIngressReceipt) (bytes : Bytes) :
    CompactIngressReceipt where
  sourceId := r.identity.sourceId
  sequence := r.identity.sequence
  commitId := r.identity.commitId
  canonicalPayloadLen := r.canonicalPayloadLen
  canonicalPayloadCrc32 := r.canonicalPayloadCrc32
  points := UInt64.ofNat r.commit.points
  records := UInt64.ofNat r.commit.records
  canonicalPayload := (r.canonical bytes).getD []
  frameOffset := UInt64.ofNat r.commit.frameOffset
  bytesWritten := UInt64.ofNat r.commit.bytesWritten

/-- A backed receipt passes the comparison with its own bytes. -/
theorem Plain.compactIdentified {file : File} {commitId : U128} {r : StoredIdentifiedReceipt}
    {p : Option Bytes} (h : Plain file.bytes commitId r p) :
    Database.compactIdentified file commitId r = .ok (r.compact commitId file.bytes) := by
  rw [StoredIdentifiedReceipt.compact, h.payload_eq, Database.compactIdentified]
  cases h with
  | @live payload small hpayload hoffset hframe =>
    have hne : r.payloadOffset ≠ 0 := by
      rw [hoffset, frameHeaderBytes]
      omega
    have hread := hframe.readExactAt_payload (a := []) rfl
    rw [length_nil, Nat.add_zero, ← hoffset, hpayload.length] at hread
    have hmatch := (Plain.live small hpayload hoffset hframe).identifiedPayloadMatchesAt payload
    rw [if_pos rfl] at hmatch
    simp only [if_neg hne, hread, hmatch, bind, Except.bind, failIf, Bool.true_eq_false, if_false,
      Option.getD_some]
  | compact hpayload hoffset hkept =>
    simp only [if_pos hoffset, hkept, bind, Except.bind]
  | bare hlong hoffset hkept =>
    simp only [if_pos hoffset, hkept, bind, Except.bind]

theorem Ordered.compactIngress {file : File} {r : StoredIngressReceipt} {p : Option Bytes}
    (h : Ordered file.bytes r p) :
    Database.compactIngress file r = .ok (r.compact file.bytes) := by
  rw [StoredIngressReceipt.compact, h.canonical_eq, Database.compactIngress]
  cases h with
  | @live canonical small hpayload hoffset hframe =>
    have hne : r.canonicalPayloadOffset ≠ 0 := by
      rw [hoffset, frameHeaderBytes]
      omega
    have hidentity : (Database.identityBytes r.identity).length = ingressIdentityBytes :=
      FrameIdentity.length_encode (.ingress r.identity)
    have hread := hframe.readExactAt_payload rfl
    rw [hidentity, ← hoffset, hpayload.length] at hread
    have hmatch := (Ordered.live small hpayload hoffset hframe).ingressPayloadMatchesAt canonical
    rw [decide_eq_true rfl] at hmatch
    simp only [if_neg hne, hread, hmatch, bind, Except.bind, failIf, Bool.true_eq_false, if_false,
      Option.getD_some]
  | compact hpayload hoffset hkept =>
    simp only [if_pos hoffset, hkept, bind, Except.bind]
  | bare hlong hoffset hkept =>
    simp only [if_pos hoffset, hkept, bind, Except.bind]

/-- The index that a reclaim writes. -/
def Database.identityIndex (db : Database) : CompactIdentityIndex where
  identified := db.identifiedReceipts.toList.map fun e => e.2.compact e.1 db.file.bytes
  ingress := db.ingressReceipts.toList.map fun e => e.2.compact db.file.bytes

theorem Database.compactIdentityIndex_eq {db : Database} (h : db.Backed db.file.bytes) :
    db.compactIdentityIndex = .ok db.identityIndex := by
  simp only [compactIdentityIndex, bind_eq_ok, mapM_eq_ok]
  refine ⟨_, forall₂_map_right_iff.mpr (forall₂_same.mpr ?_), _,
    forall₂_map_right_iff.mpr (forall₂_same.mpr ?_), rfl⟩
  · intro e he
    obtain ⟨-, -, -, p, hp⟩ := h.identified e.1 e.2
      (Std.ExtTreeMap.mem_toList_iff_getElem?_eq_some.mp he)
    exact hp.compactIdentified
  · intro e he
    obtain ⟨-, -, -, -, p, hp⟩ := h.ingress e.1 e.2
      (Std.ExtTreeMap.mem_toList_iff_getElem?_eq_some.mp he)
    exact hp.compactIngress

/-! ## Index frames -/

/-- The chunks of an index put together again. -/
def Tables.CompactIdentityIndex.concat (chunks : List CompactIdentityIndex) :
    CompactIdentityIndex where
  identified := chunks.flatMap CompactIdentityIndex.identified
  ingress := chunks.flatMap CompactIdentityIndex.ingress

/-- The frame of a chunk. -/
structure IndexFrame (limit : Nat) (f : Frame) (chunk : CompactIdentityIndex) : Prop where
  kind : f.kind = .identityIndex
  items : f.items = 0
  payload : f.payload = Database.encodedIdentityIndex chunk
  length_le : f.payload.length ≤ limit

theorem exists_indexFrame {limit : Nat} {fs : List Frame} {chunks : List CompactIdentityIndex}
    (h : List.Forall₂ (IndexFrame limit) fs chunks) {f : Frame} (hf : f ∈ fs) :
    ∃ chunk ∈ chunks, IndexFrame limit f chunk := by
  induction h with
  | nil => cases hf
  | cons hframe _ ih =>
    rcases mem_cons.mp hf with rfl | hf
    · exact ⟨_, mem_cons_self, hframe⟩
    · obtain ⟨chunk, hchunk, hframe⟩ := ih hf
      exact ⟨chunk, mem_cons_of_mem _ hchunk, hframe⟩

namespace Database

theorem writeIdentityIndexFrame_eq_ok {chunk : CompactIdentityIndex} {limit : Nat} {f : Frame}
    (h : writeIdentityIndexFrame chunk limit = .ok f) : IndexFrame limit f chunk := by
  simp only [writeIdentityIndexFrame] at h
  split at h
  · cases h
  next hle =>
  split at h
  · cases h
    exact ⟨rfl, rfl, rfl, Nat.not_lt.mp hle⟩
  · cases h

/-- The frames written so far and the open chunk hold the receipts of `done`. -/
def ChunkState.Holds (limit : Nat) (s : ChunkState) (done : CompactIdentityIndex) : Prop :=
  ∃ chunks, List.Forall₂ (IndexFrame limit) s.written chunks ∧
    CompactIdentityIndex.concat (chunks ++ [s.chunk]) = done

theorem ChunkState.Holds.add {limit : Nat} {message : String} {s s' : ChunkState}
    {done singleton : CompactIdentityIndex} (h : s.Holds limit done)
    (hadd : ChunkState.add limit message s singleton = .ok s') :
    s'.Holds limit
      ⟨done.identified ++ singleton.identified, done.ingress ++ singleton.ingress⟩ := by
  obtain ⟨chunks, hwritten, rfl⟩ := h
  simp only [ChunkState.add, bind_eq_ok] at hadd
  obtain ⟨_, -, hadd⟩ := hadd
  split at hadd
  · -- the open chunk is closed, and the receipt starts a new one
    simp only [bind_eq_ok, Except.ok.injEq, exists_eq_left'] at hadd
    obtain ⟨frame, hframe, rfl⟩ := hadd
    refine ⟨chunks ++ [s.chunk], ?_, ?_⟩
    · exact rel_append hwritten (.cons (writeIdentityIndexFrame_eq_ok hframe) .nil)
    · simp [CompactIdentityIndex.concat]
  · simp only [bind_eq_ok, Except.ok.injEq, exists_eq_left'] at hadd
    subst hadd
    exact ⟨chunks, hwritten, by simp [CompactIdentityIndex.concat]⟩

/-- The index frames hold the index, chunk after chunk. -/
theorem writeIdentityIndexFrames_eq_ok {index : CompactIdentityIndex} {maxTransactionBytes : Nat}
    {frames : List Frame} (h : writeIdentityIndexFrames index maxTransactionBytes = .ok frames) :
    ∃ chunks, List.Forall₂ (IndexFrame (identityIndexFrameLimit maxTransactionBytes)) frames
      chunks ∧ CompactIdentityIndex.concat chunks = index := by
  simp only [writeIdentityIndexFrames, bind_eq_ok] at h
  obtain ⟨s₁, hidentified, s₂, hingress, h⟩ := h
  have hfirst : ChunkState.Holds (identityIndexFrameLimit maxTransactionBytes) s₁
      ⟨index.identified, []⟩ := by
    refine foldlM_collect (P := fun (s : ChunkState) done => s.Holds _ ⟨done, []⟩) ?_
      ⟨[], .nil, rfl⟩ hidentified
    exact fun h hadd => h.add hadd
  have hholds : ChunkState.Holds (identityIndexFrameLimit maxTransactionBytes) s₂ index := by
    refine foldlM_collect (P := fun (s : ChunkState) done => s.Holds _ ⟨index.identified, done⟩)
      ?_ hfirst hingress
    intro s s' done r h hadd
    have hadded := h.add hadd
    rwa [append_nil] at hadded
  obtain ⟨chunks, hwritten, hconcat⟩ := hholds
  split at h
  · next hchunk =>
    cases h
    refine ⟨chunks, hwritten, Eq.trans ?_ hconcat⟩
    rw [hchunk]
    simp [CompactIdentityIndex.concat]
  · simp only [bind_eq_ok] at h
    obtain ⟨frame, hframe, h⟩ := h
    cases h
    exact ⟨chunks ++ [s₂.chunk],
      rel_append hwritten (.cons (writeIdentityIndexFrame_eq_ok hframe) .nil), hconcat⟩

end Database

/-! ## Index frames in a scan -/

theorem Tables.decodeIdentityIndex_encoded {chunk : CompactIdentityIndex}
    (h : (Database.encodedIdentityIndex chunk).length < 2 ^ 32) (offset : Nat) :
    decodeIdentityIndex (Database.encodedIdentityIndex chunk) offset = .ok chunk := by
  rw [Database.encodedIdentityIndex, length_append] at h
  have hmagic : identityIndexMagicV2.isPrefixOf (Database.encodedIdentityIndex chunk) = true :=
    isPrefixOf_iff_prefix.mpr (prefix_append ..)
  have hdrop : (Database.encodedIdentityIndex chunk).drop 8 =
      Postcard.compactIdentityIndex.encode chunk := by
    rw [Database.encodedIdentityIndex]
    exact drop_left' (by decide)
  rw [decodeIdentityIndex, if_pos hmagic, hdrop,
    Codec.fromBytes_encode Postcard.compactIdentityIndex chunk (by omega)]

/-- The receipts of `t` are those of the index `done`, and the rest of it is that
of `t₀`. -/
structure Indexed (t₀ t : Tables) (done : CompactIdentityIndex) : Prop where
  catalog : t.catalog = t₀.catalog
  index : t.index = t₀.index
  commitIds : ∀ commitId ∈ t.identifiedReceipts, commitId ∈ t.commitIds
  identified : ∀ r ∈ done.identified, ∃ kept offset, r.Keeps kept ∧
    t.identifiedReceipts[r.commitId]? = some (r.stored kept offset)
  identified_only : ∀ commitId ∈ t.identifiedReceipts,
    ∃ r ∈ done.identified, r.commitId = commitId
  ingress : ∀ r ∈ done.ingress, ∃ kept, r.Keeps kept ∧
    t.ingressReceipts[(⟨r.sourceId, r.sequence⟩ : IngressKey)]? = some (r.stored kept)
  ingress_only : ∀ key ∈ t.ingressReceipts,
    ∃ r ∈ done.ingress, (⟨r.sourceId, r.sequence⟩ : IngressKey) = key

namespace Indexed

variable {t₀ t t' : Tables} {done : CompactIdentityIndex}

variable {offset : Nat}

theorem applyIdentifiedReceipt (h : Indexed t₀ t done) {r : CompactIdentifiedReceipt}
    (hstep : t.applyIdentifiedReceipt r offset = .ok t') :
    Indexed t₀ t' ⟨done.identified ++ [r], done.ingress⟩ := by
  obtain ⟨kept, -, hkept, hfresh, rfl⟩ := applyIdentifiedReceipt_eq_ok.mp hstep
  refine ⟨h.catalog, h.index, ?_, ?_, ?_, h.ingress, h.ingress_only⟩
  · intro commitId hmem
    rcases mem_insert_iff.mp hmem with heq | hmem
    · exact mem_set_insert_iff.mpr (.inl heq)
    · exact mem_set_insert_iff.mpr (.inr (h.commitIds commitId hmem))
  · intro r' hr'
    simp only [addIdentified, getElem?_insert_eq]
    rcases mem_append.mp hr' with hr' | hr'
    · obtain ⟨kept', offset', hkept', hget⟩ := h.identified r' hr'
      refine ⟨kept', offset', hkept', ?_⟩
      rw [if_neg, hget]
      intro heq
      exact hfresh (heq ▸ h.commitIds _ (mem_of_getElem? hget))
    · obtain rfl := mem_singleton.mp hr'
      exact ⟨kept, offset, hkept, by rw [if_pos rfl]⟩
  · intro commitId hmem
    rcases mem_insert_iff.mp hmem with heq | hmem
    · exact ⟨r, by simp, heq⟩
    · obtain ⟨r', hr', heq⟩ := h.identified_only commitId hmem
      exact ⟨r', by simp [hr'], heq⟩

theorem applyIngressReceipt (h : Indexed t₀ t done) {r : CompactIngressReceipt}
    (hstep : t.applyIngressReceipt r offset = .ok t') :
    Indexed t₀ t' ⟨done.identified, done.ingress ++ [r]⟩ := by
  obtain ⟨kept, -, hkept, ⟨-, hfresh, -⟩, rfl⟩ := applyIngressReceipt_eq_ok.mp hstep
  refine ⟨h.catalog, h.index, ?_, h.identified, h.identified_only, ?_, ?_⟩
  · intro commitId hmem
    exact mem_set_insert_iff.mpr (.inr (h.commitIds commitId hmem))
  · intro r' hr'
    simp only [addIngress, getElem?_insert_eq]
    rcases mem_append.mp hr' with hr' | hr'
    · obtain ⟨kept', hkept', hget⟩ := h.ingress r' hr'
      refine ⟨kept', hkept', ?_⟩
      rw [if_neg, hget]
      intro heq
      exact hfresh (heq ▸ mem_of_getElem? hget)
    · obtain rfl := mem_singleton.mp hr'
      exact ⟨kept, hkept, if_pos rfl⟩
  · intro key hmem
    rcases mem_insert_iff.mp hmem with heq | hmem
    · exact ⟨r, by simp, heq⟩
    · obtain ⟨r', hr', heq⟩ := h.ingress_only key hmem
      exact ⟨r', by simp [hr'], heq⟩

theorem foldlM_identified (h : Indexed t₀ t done) {rs : List CompactIdentifiedReceipt}
    (hfold : rs.foldlM (fun t r => t.applyIdentifiedReceipt r offset) t = .ok t') :
    Indexed t₀ t' ⟨done.identified ++ rs, done.ingress⟩ :=
  foldlM_collect (P := fun t rs => Indexed t₀ t ⟨rs, done.ingress⟩)
    (fun h hstep => h.applyIdentifiedReceipt hstep) h hfold

theorem foldlM_ingress (h : Indexed t₀ t done) {rs : List CompactIngressReceipt}
    (hfold : rs.foldlM (fun t r => t.applyIngressReceipt r offset) t = .ok t') :
    Indexed t₀ t' ⟨done.identified, done.ingress ++ rs⟩ :=
  foldlM_collect (P := fun t rs => Indexed t₀ t ⟨done.identified, rs⟩)
    (fun h hstep => h.applyIngressReceipt hstep) h hfold

variable [Jiff] {limits : Limits} {published : List UInt64} {offset : Nat}

theorem applyFrame (h : Indexed t₀ t done) {limit : Nat} {f : Frame} {chunk : CompactIdentityIndex}
    (hframe : IndexFrame limit f chunk) (hstep : t.applyFrame limits published offset f = .ok t') :
    Indexed t₀ t' ⟨done.identified ++ chunk.identified, done.ingress ++ chunk.ingress⟩ := by
  obtain ⟨t₁, hpayload, rfl⟩ := map_eq_ok.mp hstep
  have hsmall := f.small
  rw [hframe.payload] at hsmall
  simp only [applyPayload, hframe.kind, applyIdentityIndex, hframe.payload,
    decodeIdentityIndex_encoded hsmall, bind_eq_ok, mapError_eq_ok, Except.ok.injEq,
    exists_eq_left'] at hpayload
  obtain ⟨t₂, hidentified, hingress⟩ := hpayload
  have hdone := (h.foldlM_identified hidentified).foldlM_ingress hingress
  exact ⟨hdone.catalog, hdone.index, hdone.commitIds, hdone.identified, hdone.identified_only,
    hdone.ingress, hdone.ingress_only⟩

theorem replay (h : Indexed t₀ t done) {limit : Nat} {fs : List Frame}
    {chunks : List CompactIdentityIndex} (hframes : List.Forall₂ (IndexFrame limit) fs chunks)
    (hreplay : Ftwdb.replay limits published offset t fs = .ok t') :
    Indexed t₀ t' ⟨done.identified ++ chunks.flatMap CompactIdentityIndex.identified,
      done.ingress ++ chunks.flatMap CompactIdentityIndex.ingress⟩ := by
  induction hframes generalizing t done offset with
  | nil =>
    cases hreplay
    simpa using h
  | @cons f chunk fs chunks hframe _ ih =>
    obtain ⟨t₁, hstep, hreplay⟩ := replay_cons.mp hreplay
    have hrest := ih (h.applyFrame hframe hstep) hreplay
    simp only [append_assoc] at hrest
    exact hrest

end Indexed

/-! ## Standalone transactions -/

namespace Database

theorem unlessEmpty_eq_ok {empty : Prop} [Decidable empty] {write : Except Error (List Frame)}
    {fs : List Frame} :
    unlessEmpty empty write = .ok fs ↔ empty ∧ fs = [] ∨ ¬ empty ∧ write = .ok fs := by
  rw [unlessEmpty]
  by_cases hempty : empty
  · rw [if_pos hempty]
    refine ⟨fun h => .inl ⟨hempty, (Except.ok.inj h).symm⟩, ?_⟩
    rintro (⟨-, rfl⟩ | ⟨hne, -⟩)
    · rfl
    · exact absurd hempty hne
  · simp [hempty]

theorem writeStandaloneTransaction_eq_ok {records : List Record} {maximum : Nat} {f : Frame} :
    writeStandaloneTransaction records maximum = .ok f ↔ ∃ payload hsmall,
      encodeCanonicalTransaction { records := records } = .ok payload ∧
      payload.length ≤ maximum ∧
      f = transactionFrame .anonymous records.length payload hsmall := by
  have hplain : encodeTransaction { records := records } =
      encodeCanonicalTransaction { records := records } := by
    rw [encodeTransaction]
    cases encodeCanonicalTransaction { records := records } <;> rfl
  rw [writeStandaloneTransaction, hplain]
  cases hencoded : encodeCanonicalTransaction { records := records } with
  | error e => simp
  | ok payload =>
    simp only [Except.ok.injEq]
    constructor
    · intro h
      split at h
      · cases h
      next hle =>
      split at h
      · next hsmall =>
        exact ⟨payload, hsmall, rfl, Nat.not_lt.mp hle, (Except.ok.inj h).symm⟩
      · cases h
    · rintro ⟨_, hsmall, rfl, hle, rfl⟩
      rw [if_neg (Nat.not_lt.mpr hle), dif_pos hsmall]

theorem flatMap_pointList_eq_nil {records : List Record}
    (h : ∀ r ∈ records, r.isPoints = false) : records.flatMap Record.pointList = [] := by
  rw [flatMap_eq_nil_iff]
  intro r hr
  have := h r hr
  cases r with
  | points ps => cases this
  | _ => rfl

variable [Jiff] {limits : Limits} {published : List UInt64} {offset : Nat} {t t' : Tables}

variable {records : List Record} {maximum : Nat} {c : Catalog} {fs : List Frame}
  {index : CompactIdentityIndex}

/-- A scan of a standalone transaction applies its records. -/
theorem applyFrame_standalone {f : Frame}
    (hf : writeStandaloneTransaction records maximum = .ok f) :
    t.applyFrame limits published offset f = .ok t' ↔ ∃ catalog,
      t.catalog.applyRecovered records offset = .ok catalog ∧
      pointTotal records ≤ limits.maxBatchPoints ∧
      t' = { t.pushPoints (records.flatMap Record.pointList) with
        catalog := catalog
        catalogRecords := t.catalogRecords + metadataRecords records
        commits := t.commits + 1 } := by
  obtain ⟨payload, hsmall, hencoded, -, rfl⟩ := writeStandaloneTransaction_eq_ok.mp hf
  have hcount : (UInt32.ofNat records.length).toNat = records.length :=
    toNat_ofNat_u32 (recordCount_lt hencoded)
  have hdecode : decodeTransaction payload records.length offset = .ok records :=
    decodeTransaction_encode hencoded offset
  have hidentity : frameIdentity (transactionFrame .anonymous records.length payload hsmall) =
      .anonymous := rfl
  rw [applyFrame, map_eq_ok, applyPayload_transactionFrame]
  simp only [applyTransaction_eq_ok, hidentity, FrameIdentity.bytes]
  constructor
  · rintro ⟨_, ⟨records', catalog, -, hdecoded, happlied, hpoints, rfl⟩, rfl⟩
    have hsame : records' = records := by
      have := hdecoded
      simp only [transactionFrame, drop_zero, hcount, hdecode, Except.ok.injEq] at this
      exact this.symm
    subst hsame
    exact ⟨catalog, happlied, hpoints, rfl⟩
  · rintro ⟨catalog, happlied, hpoints, rfl⟩
    refine ⟨_, ⟨records, catalog, trivial, ?_, happlied, hpoints, rfl⟩, rfl⟩
    simp only [transactionFrame, drop_zero, hcount]
    exact hdecode

/-! ## The whole log in a scan -/

/-- Tables with the catalog, the receipts and the points of a compact log. -/
structure Compacts (t : Tables) (catalog : Catalog) (index : CompactIdentityIndex)
    (tail : List Point) : Prop where
  catalog : t.catalog = catalog
  points : t.index = tail.foldl LiveIndex.push ∅
  receipts : Indexed t t index

theorem applyRecovered_snapshot (hne : records ≠ [])
    (hcatalog : ∀ r ∈ records, r.isPoints = false)
    (hvalid : Catalog.validateAndApply {} records = .ok c) :
    Catalog.applyRecovered {} records offset = .ok c := by
  have hall : ¬ records.all Record.isPoints = true := by
    obtain ⟨r, hr⟩ := exists_mem_of_ne_nil records hne
    intro hall
    have := all_eq_true.mp hall r hr
    rw [hcatalog r hr] at this
    cases this
  rw [Catalog.applyRecovered, Catalog.applyRecords, if_neg hall, hvalid]
  rfl

theorem applyRecovered_points {c catalog : Catalog} {points : List Point}
    (h : c.applyRecovered [.points points] offset = .ok catalog) : catalog = c := by
  have hall : [Record.points points].all Record.isPoints = true := rfl
  rw [Catalog.applyRecovered, Catalog.applyRecords, if_pos hall] at h
  cases hpoints : c.validateRecordPoints [.points points] with
  | error e =>
    rw [hpoints] at h
    cases h
  | ok =>
    rw [hpoints] at h
    exact (Except.ok.inj h).symm

/-- The catalog transaction in a scan of a new log. -/
theorem replay_catalogFrames (hvalid : c.Valid)
    (hrecords : c.snapshotRecords = .ok records)
    (hframes : unlessEmpty (records = [])
      ((writeStandaloneTransaction records maximum).map fun f => [f]) = .ok fs)
    (hreplay : replay limits published offset {} fs = .ok t) : Compacts t c {} [] := by
  obtain ⟨records', hrecords', happly, hcatalog⟩ := hvalid.snapshot
  obtain rfl := Except.ok.inj (hrecords.symm.trans hrecords')
  have hbare : ∀ u : Tables, u.identifiedReceipts = ∅ → u.ingressReceipts = ∅ →
      Indexed u u {} := by
    intro u hidentified hingress
    refine ⟨rfl, rfl, ?_, by simp, ?_, by simp, ?_⟩ <;> simp [hidentified, hingress]
  rcases unlessEmpty_eq_ok.mp hframes with ⟨rfl, rfl⟩ | ⟨hne, hframe⟩
  · cases hreplay
    refine ⟨?_, rfl, hbare {} rfl rfl⟩
    simp only [Catalog.validateAndApply, bind_eq_ok] at happly
    obtain ⟨candidate, hfold, _, -, _, -, hcandidate⟩ := happly
    rw [← Except.ok.inj hcandidate]
    exact Except.ok.inj hfold
  · obtain ⟨f, hf, rfl⟩ := map_eq_ok.mp hframe
    obtain ⟨_, hstep, hreplay⟩ := replay_cons.mp hreplay
    cases hreplay
    obtain ⟨catalog, happlied, -, rfl⟩ := (applyFrame_standalone hf).mp hstep
    rw [applyRecovered_snapshot hne hcatalog happly] at happlied
    refine ⟨(Except.ok.inj happlied).symm, ?_, hbare _ rfl rfl⟩
    simp only [pushPoints, flatMap_pointList_eq_nil hcatalog]

/-- The index frames. -/
theorem Compacts.indexFrames (h : Compacts t c {} [])
    (hframes : unlessEmpty (index.identified = [] ∧ index.ingress = [])
      (writeIdentityIndexFrames index maximum) = .ok fs)
    (hreplay : replay limits published offset t fs = .ok t') : Compacts t' c index [] := by
  rcases unlessEmpty_eq_ok.mp hframes with ⟨⟨hidentified, hingress⟩, rfl⟩ | ⟨-, hframes⟩
  · cases hreplay
    obtain rfl : index = {} := by
      obtain ⟨identified, ingress⟩ := index
      simp only at hidentified hingress
      rw [hidentified, hingress]
    exact h
  · obtain ⟨chunks, hchunks, rfl⟩ := writeIdentityIndexFrames_eq_ok hframes
    have hdone := h.receipts.replay hchunks hreplay
    refine ⟨hdone.catalog.trans h.catalog, hdone.index.trans h.points, rfl, rfl, hdone.commitIds,
      hdone.identified, hdone.identified_only, hdone.ingress, hdone.ingress_only⟩

/-- The transaction of the live points. -/
theorem Compacts.tailFrames
    (h : Compacts t c index []) {tail : List Point}
    (hframes : unlessEmpty (tail = [])
      ((writeStandaloneTransaction [.points tail] maximum).map fun f => [f]) = .ok fs)
    (hreplay : replay limits published offset t fs = .ok t') : Compacts t' c index tail := by
  rcases unlessEmpty_eq_ok.mp hframes with ⟨rfl, rfl⟩ | ⟨-, hframe⟩
  · cases hreplay
    exact h
  · obtain ⟨f, hf, rfl⟩ := map_eq_ok.mp hframe
    obtain ⟨_, hstep, hreplay⟩ := replay_cons.mp hreplay
    cases hreplay
    obtain ⟨catalog, happlied, -, rfl⟩ := (applyFrame_standalone hf).mp hstep
    refine ⟨(applyRecovered_points happlied).trans h.catalog, ?_, rfl, rfl,
      h.receipts.commitIds, h.receipts.identified, h.receipts.identified_only,
      h.receipts.ingress, h.receipts.ingress_only⟩
    simp only [pushPoints, flatMap_singleton, Record.pointList, h.points, foldl_nil]

/-- A scan of a compact log finds what was put into it. -/
theorem replay_compactLog (hvalid : c.Valid)
    {tail : List Point} {limits₀ : Limits} {frames : List Frame}
    (hwrite : writeCompactLog c index tail limits₀ = .ok frames)
    (hreplay : replay limits published databaseHeaderBytes {} frames = .ok t) :
    Compacts t c index tail := by
  simp only [writeCompactLog, bind_eq_ok] at hwrite
  obtain ⟨records, hrecords, catalogFrames, hcatalog, indexFrames, hindex, _, -, tailFrames, htail,
    hwrite⟩ := hwrite
  cases hwrite
  obtain ⟨t₂, hreplay₂, htailReplay⟩ := replay_of_append hreplay
  obtain ⟨t₁, hcatalogReplay, hindexReplay⟩ := replay_of_append hreplay₂
  exact ((replay_catalogFrames hvalid hrecords hcatalog hcatalogReplay).indexFrames hindex
    hindexReplay).tailFrames htail htailReplay

end Database

/-! ## The logical state of a compact log -/

namespace Tables.Backed

variable {t u : Tables} {bytes bytes' : Bytes}

theorem mem_commitIds (h : t.Backed bytes) {commitId : U128} :
    commitId ∈ t.commitIds ↔ commitId ∈ t.identifiedReceipts ∨ commitId ∈ t.ingressCommitIds := by
  refine ⟨h.commitIds commitId, ?_⟩
  rintro (hmem | hmem)
  · obtain ⟨r, hr⟩ := exists_getElem?_of_mem hmem
    exact (h.identified commitId r hr).1
  · obtain ⟨key, hkey⟩ := exists_getElem?_of_mem hmem
    exact (h.ingressCommitIds commitId key hkey).1

theorem ingressCommitIds_of_ordered (ht : t.Backed bytes) (hu : u.Backed bytes')
    (hordered : ∀ key, (t.logical bytes).ordered key = (u.logical bytes').ordered key)
    {commitId : U128} {key : IngressKey} (hkey : t.ingressCommitIds[commitId]? = some key) :
    u.ingressCommitIds[commitId]? = some key := by
  obtain ⟨-, r, hr, hcommit⟩ := ht.ingressCommitIds commitId key hkey
  have hentry := hordered key
  simp only [Tables.logical, hr, Option.map_some] at hentry
  obtain ⟨r', hr', hsame⟩ := Option.map_eq_some_iff.mp hentry.symm
  have hcommit' : r'.identity.commitId = r.identity.commitId :=
    (congrArg OrderedEntry.commitId hsame :)
  rw [← hcommit, ← hcommit']
  exact (hu.ingress key r' hr').2.2.1

/-- A cursor is the greatest sequence among the receipts of its source. -/
theorem ingressLastSequences_of_mem (ht : t.Backed bytes) (hu : u.Backed bytes')
    (hmem : ∀ key, key ∈ t.ingressReceipts ↔ key ∈ u.ingressReceipts) {sourceId : U128}
    {last : UInt64} (hlast : t.ingressLastSequences[sourceId]? = some last) :
    u.ingressLastSequences[sourceId]? = some last := by
  obtain ⟨last', hlast', hle⟩ := hu.cursor ⟨sourceId, last⟩ ((hmem _).mp (ht.last _ _ hlast))
  obtain ⟨last'', hlast'', hle'⟩ := ht.cursor ⟨sourceId, last'⟩ ((hmem _).mpr (hu.last _ _ hlast'))
  obtain rfl := Option.some.inj (hlast.symm.trans hlast'')
  obtain rfl : last = last' := UInt64.le_antisymm hle hle'
  exact hlast'

/-- The receipts determine the sets and cursors that are kept beside them. -/
theorem logical_eq (ht : t.Backed bytes) (hu : u.Backed bytes')
    (hcatalog : t.catalog = u.catalog)
    (hseries : ∀ s, t.index.seriesPoints s = u.index.seriesPoints s)
    (hplain : ∀ c, (t.logical bytes).plain c = (u.logical bytes').plain c)
    (hordered : ∀ k, (t.logical bytes).ordered k = (u.logical bytes').ordered k) :
    t.logical bytes = u.logical bytes' := by
  have hplainMem : ∀ c, c ∈ t.identifiedReceipts ↔ c ∈ u.identifiedReceipts :=
    fun c => mem_iff_of_map_eq (hplain c)
  have horderedMem : ∀ k, k ∈ t.ingressReceipts ↔ k ∈ u.ingressReceipts :=
    fun k => mem_iff_of_map_eq (hordered k)
  have hids : t.ingressCommitIds = u.ingressCommitIds := by
    apply Std.ExtTreeMap.ext_getElem?
    intro c
    apply Option.ext
    intro k
    exact ⟨ht.ingressCommitIds_of_ordered hu hordered,
      hu.ingressCommitIds_of_ordered ht fun k => (hordered k).symm⟩
  have hcommitIds : t.commitIds = u.commitIds := by
    apply Std.ExtTreeSet.ext_mem
    intro c
    rw [ht.mem_commitIds, hu.mem_commitIds, hplainMem, hids]
  have hcursors : t.ingressLastSequences = u.ingressLastSequences := by
    apply Std.ExtTreeMap.ext_getElem?
    intro source
    apply Option.ext
    intro last
    exact ⟨ht.ingressLastSequences_of_mem hu horderedMem,
      hu.ingressLastSequences_of_mem ht fun k => (horderedMem k).symm⟩
  exact Logical.ext hcatalog (funext hseries) hcommitIds hcursors hids (funext hplain)
    (funext hordered)

end Tables.Backed

/-- An entry that is not empty keeps its bytes. -/
theorem kept_eq {p kept : Option Bytes} {Q : Prop} (hne : ∀ data ∈ p, data ≠ [])
    (h : p.getD [] = [] ∧ kept = none ∨ p.getD [] ≠ [] ∧ kept = some (p.getD []) ∧ Q) :
    kept = p := by
  cases p with
  | none =>
    rcases h with ⟨-, rfl⟩ | ⟨hne', -⟩
    · rfl
    · exact absurd rfl hne'
  | some data =>
    rcases h with ⟨hnil, -⟩ | ⟨-, rfl, -⟩
    · exact absurd hnil (hne data rfl)
    · rfl

/-- An entry made of a backed receipt keeps the bytes behind it. -/
theorem Plain.eq_of_keeps {bytes : Bytes} {commitId : U128} {r : StoredIdentifiedReceipt}
    {p kept : Option Bytes} (h : Plain bytes commitId r p)
    (hkept : (r.compact commitId bytes).Keeps kept) : kept = p := by
  have hpayload : (r.compact commitId bytes).payload = p.getD [] := by
    rw [StoredIdentifiedReceipt.compact, h.payload_eq]
  rw [CompactIdentifiedReceipt.Keeps, hpayload] at hkept
  refine kept_eq ?_ hkept
  rintro payload rfl
  exact h.holds.ne_nil

theorem Ordered.eq_of_keeps {bytes : Bytes} {r : StoredIngressReceipt} {p kept : Option Bytes}
    (h : Ordered bytes r p) (hkept : (r.compact bytes).Keeps kept) : kept = p := by
  have hpayload : (r.compact bytes).canonicalPayload = p.getD [] := by
    rw [StoredIngressReceipt.compact, h.canonical_eq]
  rw [CompactIngressReceipt.Keeps, hpayload] at hkept
  refine kept_eq ?_ hkept
  rintro canonical rfl
  exact h.holds.ne_nil

/-! ## The live points -/

namespace LiveIndex

variable {index : LiveIndex} {l : List Point}

/-- A point of an index lies in its own series. -/
theorem Holds.seriesId_eq (h : index.Holds l) {s : UInt64}
    {p : Point} (hp : p ∈ index.seriesPoints s) : p.seriesId = s := by
  rw [h s, mem_stableSort, mem_filter] at hp
  exact of_decide_eq_true hp.2

theorem flatMap_single_series {keys : List UInt64} (hnodup : keys.Nodup) (s : UInt64)
    (points : List Point) :
    keys.flatMap (fun k => if k = s then points else []) = if s ∈ keys then points else [] := by
  induction keys with
  | nil => rfl
  | cons k keys ih =>
    obtain ⟨hk, hnodup⟩ := nodup_cons.mp hnodup
    rw [flatMap_cons, ih hnodup]
    by_cases hs : k = s
    · subst hs
      simp [hk]
    · simp [hs, Ne.symm hs]

/-- The snapshot lists each series in its order, wherever it puts the series. -/
theorem Holds.filter_livePointsSnapshot (h : index.Holds l)
    (order : List UInt64) (s : UInt64) :
    (Database.livePointsSnapshot index order).filter (fun p => p.seriesId = s) =
      index.seriesPoints s := by
  have hperm : (Database.seriesOrder index order).Perm index.keys := by
    rw [Database.seriesOrder]
    split
    · assumption
    · exact List.Perm.refl _
  have hkeys : (Database.seriesOrder index order).Nodup :=
    hperm.nodup_iff.mpr Std.ExtTreeMap.nodup_keys
  have hseries : ∀ k, (index.seriesPoints k).filter (fun p => p.seriesId = s) =
      if k = s then index.seriesPoints s else [] := by
    intro k
    split
    · next hk =>
      subst hk
      exact filter_eq_self.mpr fun p hp => decide_eq_true (h.seriesId_eq hp)
    · next hk =>
      exact filter_eq_nil_iff.mpr fun p hp hs =>
        hk ((h.seriesId_eq hp).symm.trans (of_decide_eq_true hs))
  rw [Database.livePointsSnapshot, filter_flatMap]
  simp only [hseries]
  rw [flatMap_single_series hkeys]
  split
  · rfl
  next hs =>
  have hnone : s ∉ index := fun hmem => hs (hperm.mem_iff.mpr (Std.ExtTreeMap.mem_keys.mpr hmem))
  rw [seriesPoints, Std.ExtTreeMap.getElem?_eq_none hnone]
  rfl

/-- A scan of the snapshot leads back to every series. -/
theorem Holds.seriesPoints_snapshot (h : index.Holds l)
    (order : List UInt64) (s : UInt64) :
    ((Database.livePointsSnapshot index order).foldl push ∅).sort.seriesPoints s =
      index.seriesPoints s := by
  have hempty : (∅ : LiveIndex).sort.Holds [] := by
    intro s
    rw [seriesPoints_sort, Holds.empty s]
    rfl
  rw [sort_foldl_push, hempty.foldl_insertIndexedPoint, nil_append,
    h.filter_livePointsSnapshot]
  apply stableSort_of_sorted byValidTime_preorder
  rw [h s]
  exact sorted_stableSort byValidTime_preorder _

end LiveIndex

/-! ## The logical state in a scan -/

/-- The flags are no part of the logical state. -/
theorem Tables.logical_forgetDurable (t : Tables) (bytes : Bytes) :
    t.forgetDurable.logical bytes = t.logical bytes := by
  refine Logical.ext rfl rfl rfl rfl rfl (funext fun commitId => ?_) (funext fun key => ?_)
  · simp only [logical, forgetDurable, Std.ExtTreeMap.getElem?_map, Option.map_map]
    rfl
  · simp only [logical, forgetDurable, Std.ExtTreeMap.getElem?_map, Option.map_map]
    rfl

theorem Tables.Matches.logical_eq {w t : Tables} (h : w.Matches t) (bytes : Bytes) :
    w.logical bytes = t.sortIndex.logical bytes := by
  rw [← w.logical_forgetDurable, h.eq, t.sortIndex.logical_forgetDurable]

namespace Database

variable {db : Database} {t : Tables} {tail : List Point}

theorem Compacts.plain_eq (h : Compacts t db.catalog db.identityIndex tail)
    (hbacked : db.Backed db.file.bytes) (bytes : Bytes) (commitId : U128) :
    (t.logical bytes).plain commitId = db.logical.plain commitId := by
  simp only [Tables.logical, Database.logical]
  cases hreceipt : db.identifiedReceipts[commitId]? with
  | none =>
    have hnone : commitId ∉ t.identifiedReceipts := by
      intro hmem
      obtain ⟨entry, hentry, heq⟩ := h.receipts.identified_only commitId hmem
      obtain ⟨⟨commitId', r⟩, hlisted, rfl⟩ := mem_map.mp hentry
      obtain rfl : commitId' = commitId := heq
      rw [Std.ExtTreeMap.mem_toList_iff_getElem?_eq_some, hreceipt] at hlisted
      cases hlisted
    rw [Std.ExtTreeMap.getElem?_eq_none hnone]
    rfl
  | some r =>
    obtain ⟨-, -, -, p, hp⟩ := hbacked.identified commitId r hreceipt
    obtain ⟨kept, offset, hkept, hget⟩ := h.receipts.identified _
      (mem_map.mpr ⟨(commitId, r),
        Std.ExtTreeMap.mem_toList_iff_getElem?_eq_some.mpr hreceipt, rfl⟩)
    change t.identifiedReceipts[commitId]? = _ at hget
    simp only [hget, Option.map_some, hp.payload_eq, hp.eq_of_keeps hkept]
    rfl

theorem Compacts.ordered_eq (h : Compacts t db.catalog db.identityIndex tail)
    (hbacked : db.Backed db.file.bytes) (bytes : Bytes) (key : IngressKey) :
    (t.logical bytes).ordered key = db.logical.ordered key := by
  simp only [Tables.logical, Database.logical]
  cases hreceipt : db.ingressReceipts[key]? with
  | none =>
    have hnone : key ∉ t.ingressReceipts := by
      intro hmem
      obtain ⟨entry, hentry, heq⟩ := h.receipts.ingress_only key hmem
      obtain ⟨⟨key', r⟩, hlisted, rfl⟩ := mem_map.mp hentry
      rw [Std.ExtTreeMap.mem_toList_iff_getElem?_eq_some] at hlisted
      obtain rfl : key' = key := (hbacked.ingress key' r hlisted).1.symm.trans heq
      rw [hreceipt] at hlisted
      cases hlisted
    rw [Std.ExtTreeMap.getElem?_eq_none hnone]
    rfl
  | some r =>
    obtain ⟨hkey, -, -, hsmall, p, hp⟩ := hbacked.ingress key r hreceipt
    obtain ⟨kept, hkept, hget⟩ := h.receipts.ingress _
      (mem_map.mpr ⟨(key, r),
        Std.ExtTreeMap.mem_toList_iff_getElem?_eq_some.mpr hreceipt, rfl⟩)
    change t.ingressReceipts[r.identity.key]? = _ at hget
    rw [hkey] at hget
    have hentry : (((r.compact db.file.bytes).stored kept).entry bytes) =
        r.entry db.file.bytes := by
      rw [hp.eq_of_keeps hkept, StoredIngressReceipt.entry, StoredIngressReceipt.entry,
        hp.canonical_eq]
      simp only [CompactIngressReceipt.stored, StoredIngressReceipt.compact,
        StoredIngressReceipt.canonical, if_pos, UInt64.toNat_ofNat_of_lt' hsmall.frameOffset,
        UInt64.toNat_ofNat_of_lt' hsmall.points, UInt64.toNat_ofNat_of_lt' hsmall.records,
        UInt64.toNat_ofNat_of_lt' hsmall.bytesWritten]
    simp only [hget, Option.map_some, hentry]

/-- A scan of the compact log of a sound handle finds its logical state. -/
theorem logical_of_compacts [Jiff] (hsound : db.Sound) {order : List UInt64} {bytes : Bytes}
    (h : Compacts t db.catalog db.identityIndex (livePointsSnapshot db.index order))
    (hbacked : t.sortIndex.Backed bytes) : t.sortIndex.logical bytes = db.logical := by
  obtain ⟨l, hl⟩ := hsound.index
  refine hbacked.logical_eq hsound.toBacked h.catalog ?_ (h.plain_eq hsound.toBacked bytes)
    (h.ordered_eq hsound.toBacked bytes)
  intro s
  rw [← hl.seriesPoints_snapshot order s, ← h.points]
  rfl

end Database

end Ftwdb
