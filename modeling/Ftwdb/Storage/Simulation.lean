import Mathlib.Data.List.TakeWhile
import Ftwdb.Lib.KeyedMap
import Ftwdb.Storage.Database

/-!
# The writer and the scanner

The writer keeps its tables up to date frame by frame; the scanner rebuilds them
from the frames and sorts each series at the end.  This module relates the two.
`Tables.Matches w t` says that the writer's tables `w` are the scanner's tables
`t` once these are sorted, the durability flags of receipts apart.  Each kind of
frame the writer produces is one step of the scanner that keeps the relation
(`applyFrame_points`, `applyFrame_transaction`).
-/

namespace Ftwdb

open ByteCodec Check StableSort KeyedMap

/-! ## The live index -/

namespace LiveIndex

theorem seriesPoints_sort (index : LiveIndex) (s : UInt64) :
    index.sort.seriesPoints s = stableSort byValidTime (index.seriesPoints s) := by
  rw [seriesPoints, sort, Std.ExtTreeMap.getElem?_map, seriesPoints]
  cases index[s]? <;> rfl

theorem sort_insert (index : LiveIndex) (s : UInt64) (l : List Point) :
    sort (index.insert s l) = index.sort.insert s (stableSort byValidTime l) := by
  apply Std.ExtTreeMap.ext_getElem?
  intro k
  rw [sort, Std.ExtTreeMap.getElem?_map, Std.ExtTreeMap.getElem?_insert,
    Std.ExtTreeMap.getElem?_insert, sort, Std.ExtTreeMap.getElem?_map]
  split <;> rfl

variable {l : List Point}

/-- The position that the writer finds in a sorted series is the one at which
the stable sort puts one more point. -/
theorem insertInSeries_eq (hl : Sorted byValidTime l) (p : Point) :
    insertInSeries l p = insertAfter byValidTime p l := by
  rw [insertAfter_eq_takeWhile, insertInSeries]
  cases hlast : l.getLast? with
  | none =>
    obtain rfl : l = [] := List.getLast?_eq_none_iff.mp hlast
    rfl
  | some last =>
    by_cases hlt : p.validTime < last.validTime
    · exact if_pos hlt
    · -- no point of the series is later than `p`, so the split is at its end
      obtain ⟨init, rfl⟩ := List.getLast?_eq_some_iff.mp hlast
      have hlastp : byValidTime last p = true := decide_eq_true (Int64.not_lt.mp hlt)
      have hle : ∀ e ∈ init ++ [last], byValidTime e p = true := by
        intro e he
        rcases List.mem_append.mp he with he | he
        · have hsorted := (List.pairwise_append.mp hl).2.2
          exact byValidTime_preorder.trans (hsorted e he last List.mem_cons_self) hlastp
        · rw [List.mem_singleton.mp he]
          exact hlastp
      rw [List.takeWhile_eq_self_iff.mpr hle, List.dropWhile_eq_nil_iff.mpr hle]
      exact if_neg hlt

/-- Sorting behind a push inserts the point in its place. -/
theorem sort_push (index : LiveIndex) (p : Point) :
    (index.push p).sort = index.sort.insertIndexedPoint p := by
  rw [push, sort_insert, stableSort_concat, insertIndexedPoint, seriesPoints_sort,
    insertInSeries_eq (sorted_stableSort byValidTime_preorder _)]

/-- A scan that sorts at its end has the index of a writer. -/
theorem sort_foldl_push (index : LiveIndex) (points : List Point) :
    (points.foldl push index).sort = points.foldl insertIndexedPoint index.sort := by
  induction points generalizing index with
  | nil => rfl
  | cons p points ih => rw [List.foldl_cons, List.foldl_cons, ih, sort_push]

/-- The index of the points `l`, given in the order in which they were written. -/
def Holds (index : LiveIndex) (l : List Point) : Prop :=
  ∀ s, index.seriesPoints s = stableSort byValidTime (l.filter fun p => p.seriesId = s)

theorem Holds.empty : Holds ∅ [] := by
  intro s
  rw [seriesPoints, Std.ExtTreeMap.getElem?_empty]
  rfl

theorem seriesPoints_insert (index : LiveIndex) (s k : UInt64) (l : List Point) :
    seriesPoints (index.insert s l) k = if s = k then l else index.seriesPoints k := by
  rw [seriesPoints, Std.ExtTreeMap.getElem?_insert, seriesPoints]
  simp only [Std.LawfulEqOrd.compare_eq_iff_eq]
  split <;> rfl

/-- A point goes behind all points of its time. -/
theorem Holds.insertIndexedPoint {index : LiveIndex} (h : index.Holds l)
    (p : Point) : (index.insertIndexedPoint p).Holds (l ++ [p]) := by
  intro s
  rw [LiveIndex.insertIndexedPoint, seriesPoints_insert, List.filter_append]
  by_cases hs : p.seriesId = s
  · subst hs
    rw [if_pos rfl, h, insertInSeries_eq (sorted_stableSort byValidTime_preorder _),
      ← stableSort_concat]
    simp
  · rw [if_neg hs, h]
    simp [hs]

theorem Holds.foldl_insertIndexedPoint {index : LiveIndex} (h : index.Holds l)
    (points : List Point) :
    (points.foldl LiveIndex.insertIndexedPoint index).Holds (l ++ points) := by
  induction points generalizing index l with
  | nil => simpa using h
  | cons p points ih => simpa using ih (h.insertIndexedPoint p)

end LiveIndex

/-! ## Tables without durability flags -/

/-- The commit without its durability flag. -/
def Commit.forgetDurable (c : Commit) : Commit := { c with durable := false }

/-- The receipt without its durability flag. -/
def StoredIdentifiedReceipt.forgetDurable (r : StoredIdentifiedReceipt) :
    StoredIdentifiedReceipt := { r with commit := r.commit.forgetDurable }

/-- The receipt without its durability flag. -/
def StoredIngressReceipt.forgetDurable (r : StoredIngressReceipt) : StoredIngressReceipt :=
  { r with commit := r.commit.forgetDurable }

@[simp] theorem Commit.frameOffset_forgetDurable (c : Commit) :
    c.forgetDurable.frameOffset = c.frameOffset := rfl

@[simp] theorem StoredIdentifiedReceipt.commit_forgetDurable (r : StoredIdentifiedReceipt) :
    r.forgetDurable.commit = r.commit.forgetDurable := rfl

@[simp] theorem StoredIngressReceipt.commit_forgetDurable (r : StoredIngressReceipt) :
    r.forgetDurable.commit = r.commit.forgetDurable := rfl

@[simp] theorem StoredIngressReceipt.identity_forgetDurable (r : StoredIngressReceipt) :
    r.forgetDurable.identity = r.identity := rfl

theorem Database.pointFrame_eq_some {points : List Point} {frame : Frame}
    (h : Database.pointFrame points = some frame) : frame.kind = .legacyPoints ∧
      frame.items.toNat = points.length ∧ frame.payload = points.flatMap encodePoint := by
  rw [Database.pointFrame, Option.dite_none_right_eq_some] at h
  obtain ⟨hsmall, h⟩ := h
  cases h
  refine ⟨rfl, toNat_ofNat_u32 ?_, rfl⟩
  rw [length_flatMap_encodePoint, pointBytes] at hsmall
  omega

namespace Tables

/-- The tables with every receipt's durability flag cleared. -/
def forgetDurable (t : Tables) : Tables :=
  { t with
    identifiedReceipts := t.identifiedReceipts.map fun _ => StoredIdentifiedReceipt.forgetDurable
    ingressReceipts := t.ingressReceipts.map fun _ => StoredIngressReceipt.forgetDurable }

/-- The writer's tables `w` against the tables `t` of a scan that is not sorted yet. -/
def Matches (w t : Tables) : Prop := w.forgetDurable = t.sortIndex.forgetDurable

namespace Matches

variable {w t : Tables}

theorem eq (h : w.Matches t) : w.forgetDurable = t.sortIndex.forgetDurable := h

theorem index (h : w.Matches t) : w.index = t.index.sort := (congrArg Tables.index h.eq :)

theorem catalog (h : w.Matches t) : w.catalog = t.catalog := (congrArg Tables.catalog h.eq :)

theorem commitIds (h : w.Matches t) : w.commitIds = t.commitIds :=
  (congrArg Tables.commitIds h.eq :)

theorem ingressLastSequences (h : w.Matches t) :
    w.ingressLastSequences = t.ingressLastSequences := (congrArg Tables.ingressLastSequences h.eq :)

theorem points (h : w.Matches t) : w.points = t.points := (congrArg Tables.points h.eq :)

/-- Flags do not matter for what is known. -/
theorem mem_ingressReceipts (h : w.Matches t) (key : IngressKey) :
    key ∈ w.ingressReceipts ↔ key ∈ t.ingressReceipts := by
  have := congrArg (fun t => key ∈ t.ingressReceipts) h.eq
  simpa [forgetDurable, sortIndex] using this

end Matches

theorem forgetDurable_markReceiptsDurable (t : Tables) :
    t.markReceiptsDurable.forgetDurable = t.forgetDurable := by
  simp only [forgetDurable, markReceiptsDurable, map_map]
  rfl

theorem forgetDurable_addIdentified (t : Tables) (commitId : U128)
    (receipt : StoredIdentifiedReceipt) :
    (t.addIdentified commitId receipt).forgetDurable =
      t.forgetDurable.addIdentified commitId receipt.forgetDurable := by
  simp only [forgetDurable, addIdentified, map_insert]

theorem forgetDurable_addIngress (t : Tables) (receipt : StoredIngressReceipt) :
    (t.addIngress receipt).forgetDurable = t.forgetDurable.addIngress receipt.forgetDurable := by
  simp only [forgetDurable, addIngress, map_insert]
  rfl

theorem forgetDurable_addFrameReceipt (t : Tables) (identity : FrameIdentity) (payload : Bytes)
    (offset : Nat) (commit : Commit) :
    (t.addFrameReceipt identity payload offset commit).forgetDurable =
      t.forgetDurable.addFrameReceipt identity payload offset commit.forgetDurable := by
  cases identity with
  | anonymous => rfl
  | identified commitId => exact forgetDurable_addIdentified ..
  | ingress identity => exact forgetDurable_addIngress ..

/-- A transaction is entered under the flags as they are. -/
theorem forgetDurable_acceptTransaction (t : Tables) (transaction : Transaction) (payload : Bytes)
    (catalog : Option Catalog) (offset : Nat) (commit : Commit) :
    (Database.acceptTransaction t transaction payload catalog offset commit).forgetDurable =
      Database.acceptTransaction t.forgetDurable transaction payload catalog offset
        commit.forgetDurable := by
  simp only [Database.acceptTransaction, forgetDurable_addFrameReceipt]
  rfl

/-! ## Identities -/

/-- What a scan requires of the identity of a frame. -/
def Fresh (t : Tables) : FrameIdentity → Prop
  | .anonymous => True
  | .identified commitId => commitId ∉ t.commitIds
  | .ingress identity => identity.sourceId ≠ 0 ∧ identity.key ∉ t.ingressReceipts ∧
      identity.commitId ∉ t.commitIds ∧
      ∀ last, t.ingressLastSequences[identity.sourceId]? = some last → last < identity.sequence

/-- The commit identifier of an identity among the known ones. -/
def enterCommitId (t : Tables) : FrameIdentity → Tables
  | .anonymous => t
  | .identified commitId => { t with commitIds := t.commitIds.insert commitId }
  | .ingress identity => { t with commitIds := t.commitIds.insert identity.commitId }

theorem enterIngress_eq_ok {t t' : Tables} {identity : IngressIdentity} {offset : Nat}
    {invalid duplicateKey duplicateId : SalvageStopReason} :
    t.enterIngress identity offset invalid duplicateKey duplicateId = .ok t' ↔
      t.Fresh (.ingress identity) ∧ t' = t.enterCommitId (.ingress identity) := by
  simp only [enterIngress, bind_eq_ok, failIf_eq_ok, Except.ok.injEq, exists_and_left, exists_const,
    Fresh, enterCommitId, Option.any_eq_true, decide_eq_true_eq, not_exists, not_and, and_assoc,
    UInt64.not_le, eq_comm (a := t')]

/-- A scan enters an identity if it is fresh. -/
theorem enterIdentity_eq_ok {t t' : Tables} {identity : FrameIdentity} {offset : Nat} :
    t.enterIdentity identity offset = .ok t' ↔
      t.Fresh identity ∧ t' = t.enterCommitId identity := by
  cases identity with
  | anonymous => simp [enterIdentity, Fresh, enterCommitId, eq_comm (a := t')]
  | identified commitId => simp [enterIdentity, Fresh, enterCommitId, eq_comm (a := t')]
  | ingress identity => exact enterIngress_eq_ok

theorem insert_insert_self (s : Std.ExtTreeSet U128) (a : U128) :
    (s.insert a).insert a = s.insert a := by
  apply Std.ExtTreeSet.ext_mem
  intro k
  simp only [Std.ExtTreeSet.mem_insert]
  exact ⟨fun h => h.elim .inl id, .inr⟩

/-- The bytes of an identity in front of a transaction. -/
def FrameIdentity.encode : FrameIdentity → Bytes
  | .anonymous => []
  | .identified commitId => leU128 commitId
  | .ingress identity => Database.identityBytes identity

theorem FrameIdentity.length_encode (identity : FrameIdentity) :
    identity.encode.length = identity.bytes := by
  cases identity <;> simp [encode, bytes, Database.identityBytes, commitIdBytes,
    ingressIdentityBytes]

/-- A frame around a transaction names the identity it was built with. -/
theorem frameIdentity_transactionFrame (identity : FrameIdentity) (n : Nat) (canonical : Bytes)
    (h : (identity.encode ++ canonical).length < 2 ^ 32) :
    frameIdentity (Database.transactionFrame identity n (identity.encode ++ canonical) h) =
      identity := by
  cases identity with
  | anonymous => rfl
  | identified commitId =>
    simp only [frameIdentity, Database.transactionFrame, FrameIdentity.encode]
    rw [slice_left (by simp), readU128_leU128]
  | ingress identity =>
    simp only [frameIdentity, Database.transactionFrame, FrameIdentity.encode,
      Database.identityBytes]
    simp (disch := simp) [slice_skip, slice_left]

/-! ## Frames of the writer in a scan -/

theorem sortIndex_addFrameReceipt (t : Tables) (identity : FrameIdentity) (payload : Bytes)
    (offset : Nat) (commit : Commit) :
    (t.addFrameReceipt identity payload offset commit).sortIndex =
      t.sortIndex.addFrameReceipt identity payload offset commit := by
  cases identity <;> rfl

theorem countCommit_addFrameReceipt (t : Tables) (identity : FrameIdentity) (payload : Bytes)
    (offset : Nat) (commit : Commit) :
    (t.addFrameReceipt identity payload offset commit).countCommit =
      t.countCommit.addFrameReceipt identity payload offset commit := by
  cases identity <;> rfl

variable [Jiff]

/-- The tables behind a transaction frame that a scan accepts. -/
def recordTransaction (t : Tables) (f : Frame) (records : List Record) (catalog : Catalog)
    (offset : Nat) : Tables :=
  let t := t.pushPoints (records.flatMap Record.pointList)
  { t with
    catalog := catalog
    catalogRecords := t.catalogRecords + metadataRecords records }.addFrameReceipt
      (frameIdentity f) f.payload offset
      { frameOffset := offset
        points := pointTotal records
        records := records.length
        bytesWritten := frameHeaderBytes + f.payload.length
        durable := false
        deduplicated := false }

/-- A transaction frame that a scan accepts. -/
theorem applyTransaction_eq_ok {t t' : Tables} {limits : Limits} {f : Frame} {offset : Nat} :
    t.applyTransaction limits f offset = .ok t' ↔ ∃ records catalog,
      t.Fresh (frameIdentity f) ∧
      decodeTransaction (f.payload.drop (frameIdentity f).bytes) f.items.toNat offset =
        .ok records ∧
      t.catalog.applyRecovered records offset = .ok catalog ∧
      pointTotal records ≤ limits.maxBatchPoints ∧
      t' = t.recordTransaction f records catalog offset := by
  have hcatalog : ∀ identity, (t.enterCommitId identity).catalog = t.catalog := by
    intro identity
    cases identity <;> rfl
  have hresult : ∀ records catalog, Tables.addFrameReceipt
      { ({ t.enterCommitId (frameIdentity f) with catalog := catalog } : Tables).pushPoints
          (records.flatMap Record.pointList) with
        catalogRecords := (t.enterCommitId (frameIdentity f)).catalogRecords +
          metadataRecords records }
      (frameIdentity f) f.payload offset
      { frameOffset := offset
        points := pointTotal records
        records := records.length
        bytesWritten := frameHeaderBytes + f.payload.length
        durable := false
        deduplicated := false } = t.recordTransaction f records catalog offset := by
    intro records catalog
    rw [recordTransaction]
    cases frameIdentity f with
    | anonymous => rfl
    | identified commitId =>
      simp only [enterCommitId, addFrameReceipt, addIdentified, pushPoints, insert_insert_self]
    | ingress identity =>
      simp only [enterCommitId, addFrameReceipt, addIngress, pushPoints, insert_insert_self]
  simp only [applyTransaction, bind_eq_ok, mapError_eq_ok, failIf_eq_ok, enterIdentity_eq_ok,
    Except.ok.injEq]
  constructor
  · rintro ⟨_, ⟨hfresh, rfl⟩, records, hrecords, catalog, happlied, _, hpoints, rfl⟩
    rw [hcatalog] at happlied
    exact ⟨records, catalog, hfresh, hrecords, happlied, Nat.not_lt.mp hpoints,
      hresult records catalog⟩
  · rintro ⟨records, catalog, hfresh, hrecords, happlied, hpoints, rfl⟩
    refine ⟨_, ⟨hfresh, rfl⟩, records, hrecords, catalog, ?_, (), Nat.not_lt.mpr hpoints,
      hresult records catalog⟩
    rw [hcatalog]
    exact happlied

/-- What the writer has established about a transaction it frames: the identity
is new, the catalog takes the records, and the points are within the limit. -/
structure Admits (t : Tables) (limits : Limits) (transaction : Transaction) (payload : Bytes)
    (catalog : Option Catalog) : Prop where
  fresh : t.Fresh (Database.transactionIdentity transaction)
  applied : t.catalog.applyRecords transaction.records = .ok catalog
  points_le : transaction.pointCount ≤ limits.maxBatchPoints
  encoded : ∃ canonical, encodeCanonicalTransaction transaction = .ok canonical ∧
    payload = (Database.transactionIdentity transaction).encode ++ canonical

/-- A scan takes the records a writer has applied. -/
theorem applyRecovered_eq_ok {c : Catalog} {records : List Record} {catalog : Option Catalog}
    (h : c.applyRecords records = .ok catalog) (offset : Nat) :
    c.applyRecovered records offset = .ok (catalog.getD c) := by
  rw [Catalog.applyRecovered, h]
  cases catalog <;> rfl

theorem applyPayload_transactionFrame (t : Tables) (limits : Limits) (published : List UInt64)
    (offset : Nat) (identity : FrameIdentity) (n : Nat) (payload : Bytes)
    (h : payload.length < 2 ^ 32) :
    t.applyPayload limits published offset (Database.transactionFrame identity n payload h) =
      t.applyTransaction limits (Database.transactionFrame identity n payload h) offset := by
  cases identity <;> rfl

/-- A scan of a transaction frame of the writer does, up to the order inside the
series, what the writer did. -/
theorem applyFrame_transaction {t : Tables} {limits : Limits} {transaction : Transaction}
    {payload : Bytes} {catalog : Option Catalog}
    (h : t.Admits limits transaction payload catalog) (hsmall : payload.length < 2 ^ 32)
    (published : List UInt64) (offset : Nat) :
    ∃ t', t.applyFrame limits published offset (Database.transactionFrame
        (Database.transactionIdentity transaction) transaction.recordCount payload hsmall) =
          .ok t' ∧
      t'.sortIndex = Database.acceptTransaction t.sortIndex transaction payload catalog offset
        { frameOffset := offset
          points := transaction.pointCount
          records := transaction.recordCount
          bytesWritten := frameHeaderBytes + payload.length
          durable := false
          deduplicated := false } := by
  obtain ⟨canonical, hcanonical, rfl⟩ := h.encoded
  have hidentity := frameIdentity_transactionFrame
    (Database.transactionIdentity transaction) transaction.recordCount canonical hsmall
  have hstep := applyTransaction_eq_ok.mpr ⟨transaction.records, catalog.getD t.catalog,
    hidentity ▸ h.fresh, ?_, applyRecovered_eq_ok h.applied offset, h.points_le, rfl⟩
  · refine ⟨_, by rw [applyFrame, applyPayload_transactionFrame, hstep]; rfl, ?_⟩
    rw [recordTransaction, hidentity, countCommit_addFrameReceipt, sortIndex_addFrameReceipt]
    simp only [Database.acceptTransaction, Database.insertPoints, sortIndex,
      ← LiveIndex.sort_foldl_push]
    rfl
  · rw [hidentity]
    simp only [Database.transactionFrame, toNat_ofNat_u32 (recordCount_lt hcanonical),
      List.drop_left' (FrameIdentity.length_encode _)]
    exact decodeTransaction_encode hcanonical offset

/-- A scan of a batch of points does, up to the order inside the series, what
the writer did. -/
theorem applyFrame_points {points : List Point} {frame : Frame}
    (hframe : Database.pointFrame points = some frame)
    (hvalid : validatePointIntervals points = .ok ()) (t : Tables) (limits : Limits)
    (published : List UInt64) (offset : Nat) :
    ∃ t', t.applyFrame limits published offset frame = .ok t' ∧
      t'.sortIndex = Database.insertPoints t.sortIndex points := by
  obtain ⟨hkind, hitems, hpayload⟩ := Database.pointFrame_eq_some hframe
  refine ⟨_, by
    simp only [applyFrame, applyPayload, hkind, applyLegacyPoints, hpayload, decodePoints_flatMap,
      hvalid]
    rfl, ?_⟩
  simp only [countCommit, sortIndex, LiveIndex.sort_foldl_push, hitems, Database.insertPoints]

end Tables

namespace Database

open Tables

/-! ## What the writer has checked -/

/-- A written batch of points is valid and its frame fits the limits. -/
theorem decideAppend_eq_write {db : Database} {points : List Point} {frame : Frame}
    {catalog : Option Catalog} (h : db.decideAppend points = .write frame catalog) :
    db.readOnly = false ∧ db.poisoned = false ∧ pointFrame points = some frame ∧
      validatePointIntervals points = .ok () ∧ frame.Fits db.config.limits := by
  rw [decideAppend] at h
  split at h
  · cases h
  next hreadOnly =>
  split at h
  · cases h
  next hpoisoned =>
  split at h
  · cases h
  next hcount =>
  split at h
  · cases h
  next hvalid =>
  split at h
  · cases h
  split at h
  · cases h
  next frame' hframe =>
  injection h with hf
  subst hf
  refine ⟨Bool.eq_false_iff.mpr hreadOnly, Bool.eq_false_iff.mpr hpoisoned, hframe, hvalid, ?_⟩
  obtain ⟨hkind, hitems, hpayload⟩ := pointFrame_eq_some hframe
  intro offset
  rw [hkind, hitems, hpayload, length_flatMap_encodePoint, checkFrameHeader, failIf_eq_ok]
  rintro (hlarge | hsize)
  · exact hcount hlarge
  · exact hsize rfl

theorem decideAppend_eq_answer {db : Database} {points : List Point} {commit : Commit}
    (h : db.decideAppend points = .answer commit) :
    points = [] ∧ commit = db.nothingWritten false := by
  rw [decideAppend] at h
  split at h
  · cases h
  split at h
  · cases h
  split at h
  · cases h
  split at h
  · cases h
  split at h
  · next hempty => exact ⟨hempty, (Decision.answer.inj h).symm⟩
  split at h <;> cases h

/-- A payload within the limit makes a frame that fits. -/
theorem fits_transactionFrame {identity : FrameIdentity} {n : Nat} {payload canonical : Bytes}
    (hpayload : payload = identity.encode ++ canonical) (hsmall : payload.length < 2 ^ 32)
    {limits : Limits} (hlimit : payload.length ≤ limits.maxTransactionBytes) :
    (transactionFrame identity n payload hsmall).Fits limits := by
  intro offset
  have hlong : identity.bytes ≤ payload.length := by
    rw [hpayload, List.length_append, FrameIdentity.length_encode]
    exact Nat.le_add_right ..
  have hle := Nat.not_lt.mpr hlimit
  cases identity with
  | anonymous => exact failIf_eq_ok.mpr hle
  | identified commitId =>
    exact bind_eq_ok.mpr ⟨(), failIf_eq_ok.mpr hle, failIf_eq_ok.mpr (Nat.not_lt.mpr hlong)⟩
  | ingress identity =>
    exact bind_eq_ok.mpr ⟨(), failIf_eq_ok.mpr hle, failIf_eq_ok.mpr (Nat.not_lt.mpr hlong)⟩

variable [Jiff]

variable {db : Database} {t : Transaction} {frame : Frame} {catalog : Option Catalog}
  {identity : IngressIdentity} {commit : Commit}

/-- Why a transaction is answered without a write: it is empty, or it repeats one
whose receipt is stored. -/
inductive Answered (db : Database) (t : Transaction) : Commit → Prop
  | empty : t.isEmpty = true → t.ingressIdentity = none → Answered db t (db.nothingWritten false)
  | identified {commitId : U128} {receipt : StoredIdentifiedReceipt} {payload : Bytes} :
      transactionIdentity t = .identified commitId →
      db.identifiedReceipts[commitId]? = some receipt → encodeTransaction t = .ok payload →
      identifiedPayloadMatchesAt db.file receipt payload = .ok true →
      Answered db t (db.nothingWritten true)
  | ingress {identity : IngressIdentity} {receipt : StoredIngressReceipt} {canonical : Bytes} :
      transactionIdentity t = .ingress identity →
      db.ingressReceipts[identity.key]? = some receipt →
      receipt.identity.commitId = identity.commitId →
      encodeCanonicalTransaction t = .ok canonical →
      ingressPayloadMatchesAt db.file receipt canonical = .ok true →
      Answered db t
        { receipt.commit with
          deduplicated := true
          durable := db.ingressDurableSequences[identity.sourceId]?.any (identity.sequence ≤ ·) }

/-- What a decision about a transaction rests on: a written transaction is one that
a scan will take, in a frame that fits the limits. -/
inductive Decided (db : Database) (t : Transaction) : Decision → Prop
  /-- Only an I/O error or damaged bytes poison the handle. -/
  | refused {e : Error} {poison : Bool} : (poison = true → e.isFatal = true) →
      Decided db t (.refuse e poison)
  | answered {commit : Commit} : Answered db t commit → Decided db t (.answer commit)
  | written {payload : Bytes} {hsmall : payload.length < 2 ^ 32} {catalog : Option Catalog} :
      db.toTables.Admits db.config.limits t payload catalog →
      (transactionFrame (transactionIdentity t) t.recordCount payload hsmall).Fits
        db.config.limits →
      Decided db t
        (.write (transactionFrame (transactionIdentity t) t.recordCount payload hsmall) catalog)

/-- A transaction under a new identity, or none. -/
theorem decided_decideNew (hingress : t.ingressIdentity = none)
    (hfresh : ∀ commitId, t.commitId = some commitId → commitId ∉ db.commitIds) :
    Decided db t (db.decideNew t) := by
  rw [decideNew]
  split
  · next hempty => exact .answered (.empty hempty hingress)
  split
  · exact .refused nofun
  next hpoints =>
  split
  · exact .refused nofun
  next catalog hcatalog =>
  split
  · exact .refused nofun
  next payload hpayload =>
  split
  · exact .refused nofun
  next hlimit =>
  split
  · next hsmall =>
    simp only [encodeTransaction, map_eq_ok] at hpayload
    obtain ⟨canonical, hcanonical, rfl⟩ := hpayload
    have hencoded : (t.commitId.map leU128).getD [] ++ canonical =
        (transactionIdentity t).encode ++ canonical := by
      rw [transactionIdentity, hingress]
      cases t.commitId <;> rfl
    refine .written ⟨?_, hcatalog, Nat.not_lt.mp hpoints, canonical, hcanonical, hencoded⟩
      (fits_transactionFrame hencoded hsmall (Nat.not_lt.mp hlimit))
    rw [transactionIdentity, hingress]
    cases hid : t.commitId with
    | none => exact trivial
    | some commitId => exact hfresh commitId hid
  · exact .refused nofun

theorem decided_writeIngress {canonical : Bytes} (hidentity : t.ingressIdentity = some identity)
    (hcanonical : encodeCanonicalTransaction t = .ok canonical)
    (hfresh : db.toTables.Fresh (.ingress identity)) :
    Decided db t (decideIngressNew.writeIngress db identity t canonical) := by
  have hid : transactionIdentity t = .ingress identity := by
    rw [transactionIdentity, hidentity]
  rw [decideIngressNew.writeIngress]
  split
  · exact .refused nofun
  next hpoints =>
  split
  · exact .refused nofun
  next hlimit =>
  split
  · exact .refused nofun
  next catalog hcatalog =>
  split
  · next hsmall =>
    rw [← hid]
    exact .written ⟨hid ▸ hfresh, hcatalog, Nat.not_lt.mp hpoints, canonical, hcanonical,
      by rw [hid]; rfl⟩ (fits_transactionFrame (by rw [hid]; rfl) hsmall (Nat.not_lt.mp hlimit))
  · exact .refused nofun

/-- An ordered transaction. -/
theorem decided_decideIngress (hidentity : t.ingressIdentity = some identity) :
    Decided db t (db.decideIngress identity t) := by
  rw [decideIngress]
  split
  · exact .refused nofun
  next hsource =>
  split
  · exact .refused nofun
  next canonical hcanonical =>
  split
  · next receipt hreceipt =>
    rw [decideIngressReplay]
    split
    · exact .refused nofun
    next hcommit =>
    split
    · exact .refused id
    · exact .refused nofun
    · next hmatch =>
      refine .answered (.ingress ?_ hreceipt (not_not.mp hcommit) hcanonical hmatch)
      rw [transactionIdentity, hidentity]
  next hkey =>
  have hkey' : identity.key ∉ db.ingressReceipts := by
    rw [Std.ExtTreeMap.mem_iff_isSome_getElem?, hkey]
    exact Bool.false_ne_true
  rw [decideIngressNew]
  split
  · exact .refused nofun
  next hcommit =>
  split
  · next last hlast =>
    split
    · exact .refused nofun
    next hseq =>
    refine decided_writeIngress hidentity hcanonical ⟨hsource, hkey', hcommit, ?_⟩
    intro last' hlast'
    obtain rfl := Option.some.inj (hlast.symm.trans hlast')
    exact UInt64.not_le.mp hseq
  · next hlast =>
    refine decided_writeIngress hidentity hcanonical ⟨hsource, hkey', hcommit, ?_⟩
    intro last' hlast'
    rw [hlast] at hlast'
    cases hlast'

/-- A transaction under a known identity. -/
theorem decided_decideReplay {commitId : U128} (hingress : t.ingressIdentity = none)
    (hcommit : t.commitId = some commitId) : Decided db t (db.decideReplay t commitId) := by
  rw [decideReplay]
  split
  · exact .refused nofun
  next payload hpayload =>
  split
  · exact .refused nofun
  next receipt hreceipt =>
  split
  · exact .refused id
  · exact .refused nofun
  · next hmatch =>
    refine .answered (.identified ?_ hreceipt hpayload hmatch)
    rw [transactionIdentity, hingress, hcommit]

/-- Only a handle that can write decides about a transaction. -/
theorem decide_cases (db : Database) (t : Transaction) : (∃ e, db.decide t = .refuse e false) ∨
    db.readOnly = false ∧ db.poisoned = false ∧ Decided db t (db.decide t) := by
  rw [decide]
  split
  · exact .inl ⟨_, rfl⟩
  next hreadOnly =>
  split
  · exact .inl ⟨_, rfl⟩
  next hpoisoned =>
  refine .inr ⟨Bool.eq_false_iff.mpr hreadOnly, Bool.eq_false_iff.mpr hpoisoned, ?_⟩
  split
  · next hidentity => exact decided_decideIngress hidentity
  · next commitId hingress hcommit =>
    split
    · exact .refused nofun
    split
    · exact decided_decideReplay hingress hcommit
    next hfresh =>
    refine decided_decideNew hingress ?_
    intro commitId' hcommit'
    obtain rfl := Option.some.inj (hcommit.symm.trans hcommit')
    exact hfresh
  · next hingress hcommit =>
    refine decided_decideNew hingress ?_
    intro commitId' hcommit'
    rw [hcommit] at hcommit'
    cases hcommit'

/-- What is written would be taken by a scan. -/
theorem decide_eq_write (h : db.decide t = .write frame catalog) :
    db.readOnly = false ∧ db.poisoned = false ∧ ∃ payload hsmall,
      frame = transactionFrame (transactionIdentity t) t.recordCount payload hsmall ∧
      db.toTables.Admits db.config.limits t payload catalog ∧ frame.Fits db.config.limits := by
  rcases db.decide_cases t with ⟨e, hrefused⟩ | ⟨hreadOnly, hpoisoned, hdecided⟩
  · cases hrefused.symm.trans h
  rw [h] at hdecided
  cases hdecided with
  | written hadmits hfits => exact ⟨hreadOnly, hpoisoned, _, _, rfl, hadmits, hfits⟩

/-- What is answered without a write. -/
theorem decide_eq_answer (h : db.decide t = .answer commit) :
    db.readOnly = false ∧ db.poisoned = false ∧ Answered db t commit := by
  rcases db.decide_cases t with ⟨e, hrefused⟩ | ⟨hreadOnly, hpoisoned, hdecided⟩
  · cases hrefused.symm.trans h
  rw [h] at hdecided
  cases hdecided with
  | answered hanswered => exact ⟨hreadOnly, hpoisoned, hanswered⟩

end Database

end Ftwdb
