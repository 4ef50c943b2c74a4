import Ftwdb.Storage.Durability
import Ftwdb.Storage.Sound

/-!
# The tables of receipts

Six tables know about receipts: the set of commit identifiers, the plain and the
ordered receipts, the keys behind the identifiers of the ordered ones, and two
cursors for each source.  `Database.Consistent` says how they describe one
another and the log.  Most of it is `Tables.Backed` seen from outside; what is
left is that a durable cursor never runs ahead (`Reachable.cursors`).
-/

namespace Ftwdb

open ByteCodec Check KeyedMap

namespace Database

/-! ## Durable cursors -/

/-- A durable cursor is at most the last sequence of its source. -/
def CursorsBehind (db : Database) : Prop :=
  ∀ (source : U128) (durable : UInt64), db.ingressDurableSequences[source]? = some durable →
    ∃ last, db.ingressLastSequences[source]? = some last ∧ durable ≤ last

namespace CursorsBehind

variable {db db' : Database}

theorem of_eq (h : db.ingressDurableSequences = db.ingressLastSequences) : db.CursorsBehind := by
  intro source durable hdurable
  rw [h] at hdurable
  exact ⟨durable, hdurable, UInt64.le_refl durable⟩

theorem of_same (h : db.CursorsBehind)
    (hdurable : db'.ingressDurableSequences = db.ingressDurableSequences)
    (hlast : db'.ingressLastSequences = db.ingressLastSequences) : db'.CursorsBehind := by
  intro source durable
  rw [hdurable, hlast]
  exact h source durable

theorem flush (h : db.CursorsBehind) (io : Io) : (db.flush io).2.CursorsBehind := by
  rcases db.flush_cases io with ⟨e, poison, heq, -⟩ | ⟨-, -, heq⟩
  · rw [heq]
    exact h
  · rw [heq]
    exact of_eq rfl

theorem writeFrame (h : db.CursorsBehind) (frame : Frame) (io : Io) :
    (db.writeFrame frame io).2.CursorsBehind := by
  cases hwrite : db.writeFrame frame io with
  | mk result db' =>
    cases result with
    | error e =>
      obtain ⟨-, hbroke⟩ := writeFrame_eq_error hwrite
      exact h.of_same hbroke.cursors (congrArg Tables.ingressLastSequences hbroke.tables)
    | ok durable =>
      obtain ⟨haccepted, htables⟩ := writeFrame_eq_ok hwrite
      have hcursors := haccepted.cursors
      cases durable with
      | true => exact of_eq hcursors
      | false => exact h.of_same hcursors (congrArg Tables.ingressLastSequences htables)

theorem writeSealCheckpoint (h : db.CursorsBehind) (generation points : UInt64) (io flushIo : Io) :
    (db.writeSealCheckpoint generation points io flushIo).2.CursorsBehind :=
  writeSealCheckpoint_preserves h (h.writeFrame _ io) (fun _ hwrite => hwrite.flush flushIo)
    fun _ hflush => hflush

variable [Jiff]

/-- Every call other than a flush. -/
theorem acted (h : db.CursorsBehind) {c : Call} {io : Io} {receipt : Frame → Bool → Commit}
    {tables : Frame → Option Catalog → Commit → Tables} {outcome : Outcome Commit}
    (hacted : Acted db (db.decideCall c) io receipt tables outcome)
    (hrequested : ∀ frame catalog durable, db.decideCall c = .write frame catalog →
      db.Requested c frame (tables frame catalog (receipt frame durable))
        (receipt frame durable) durable) : outcome.2.CursorsBehind := by
  cases hacted with
  | answered _ => exact h
  | refused _ => exact h
  | broke _ hbroke =>
    exact h.of_same hbroke.cursors (congrArg Tables.ingressLastSequences hbroke.tables)
  | @accepted frame catalog durable db' hwrite haccepted htables =>
    have hrequested := hrequested frame catalog durable hwrite
    have hcursors := haccepted.cursors
    cases durable with
    | true => exact of_eq hcursors
    | false =>
      intro source durable hdurable
      rw [hcursors] at hdurable
      obtain ⟨last, hlast, hle⟩ := h source durable hdurable
      obtain ⟨last', hlast', hle'⟩ := raiseCursor_mono hrequested.fresh hlast
      refine ⟨last', ?_, UInt64.le_trans hle hle'⟩
      show db'.toTables.ingressLastSequences[source]? = some last'
      rw [htables, hrequested.cursors]
      exact hlast'

theorem append (h : db.CursorsBehind) (points : List Point) (io : Io) :
    (db.append points io).2.CursorsBehind := by
  refine acted (c := .append points) h (db.append_acted points io) ?_
  intro frame catalog durable hwrite
  exact requested_append hwrite durable

theorem commit (h : db.CursorsBehind) (t : Transaction) (io : Io) :
    (db.commit t io).2.CursorsBehind := by
  refine acted (c := .commit t) h (db.commit_acted t io) ?_
  intro frame catalog durable hwrite
  exact requested_commit hwrite durable

theorem reclaimLiveLog (h : db.CursorsBehind) (order : List UInt64) (io : ReclaimIo) :
    (db.reclaimLiveLog order io).2.CursorsBehind :=
  reclaimLiveLog_preserves h (h.flush io.flush) (fun _ hflush => hflush) fun _ _ => of_eq rfl

/-- An open has synced what it calls durable. -/
theorem opened {config : Config} {readOnly : Bool} {published : List UInt64} {file file' : File}
    {io : OpenIo} (h : openMode config readOnly published file io = (.ok db, file')) :
    db.CursorsBehind := by
  obtain ⟨-, scan, ⟨-, -, rfl⟩ | ⟨-, _, _, -, -, rfl⟩⟩ := openMode_cases h
  · -- a read-only handle calls nothing durable
    intro source durable hdurable
    exact absurd hdurable (by simp [ofScan])
  · exact of_eq rfl

end CursorsBehind

/-- In every run the durable cursors stay behind the accepted ones. -/
theorem Reachable.cursors [Jiff] {db : Database} (h : Reachable db) : db.CursorsBehind := by
  induction h with
  | opened h => exact .opened h
  | append points io _ ih => exact ih.append points io
  | commit t io _ ih => exact ih.commit t io
  | flush io _ ih => exact ih.flush io
  | writeSealCheckpoint generation points io flushIo _ ih =>
    exact ih.writeSealCheckpoint generation points io flushIo
  | attachSealedSegments segments _ ih => exact ih
  | clearLiveIndex _ ih => exact ih
  | reclaimLiveLog order io _ ih => exact ih.reclaimLiveLog order io

/-! ## Consistent tables -/

/-- The bytes behind a plain receipt: a frame of the log, or bytes that a reclaim kept. -/
structure PlainBacked (bytes : Bytes) (commitId : U128) (r : StoredIdentifiedReceipt) : Prop where
  live : r.payloadOffset ≠ 0 → ∃ f, FrameAt bytes r.commit.frameOffset f ∧
    f.kind = .identifiedTransaction ∧ f.items.toNat = r.commit.records ∧
    r.payloadOffset = r.commit.frameOffset + frameHeaderBytes ∧ PlainPayload commitId r f.payload
  kept : r.payloadOffset = 0 → ∀ payload, r.compactPayload = some payload →
    PlainPayload commitId r payload

/-- The bytes behind an ordered receipt. -/
structure OrderedBacked (bytes : Bytes) (r : StoredIngressReceipt) : Prop where
  live : r.canonicalPayloadOffset ≠ 0 → ∃ f canonical, FrameAt bytes r.commit.frameOffset f ∧
    f.kind = .ingressTransaction ∧ f.items.toNat = r.commit.records ∧
    f.payload = identityBytes r.identity ++ canonical ∧
    r.canonicalPayloadOffset =
      r.commit.frameOffset + (frameHeaderBytes + ingressIdentityBytes) ∧
    OrderedPayload r canonical
  kept : r.canonicalPayloadOffset = 0 → ∀ canonical, r.compactPayload = some canonical →
    OrderedPayload r canonical

/-- How the six tables and the log describe one another. -/
structure Consistent (db : Database) : Prop where
  commitIds : ∀ commitId, commitId ∈ db.commitIds ↔
    commitId ∈ db.identifiedReceipts ∨ commitId ∈ db.ingressCommitIds
  disjoint : ∀ commitId, commitId ∈ db.identifiedReceipts → commitId ∉ db.ingressCommitIds
  keys : ∀ (key : IngressKey) (r : StoredIngressReceipt), db.ingressReceipts[key]? = some r →
    r.identity.key = key
  inverse : ∀ (commitId : U128) (key : IngressKey), db.ingressCommitIds[commitId]? = some key ↔
    ∃ r : StoredIngressReceipt, db.ingressReceipts[key]? = some r ∧ r.identity.commitId = commitId
  last : ∀ (source : U128) (sequence : UInt64), db.ingressLastSequences[source]? = some sequence ↔
    (⟨source, sequence⟩ : IngressKey) ∈ db.ingressReceipts ∧
      ∀ sequence', (⟨source, sequence'⟩ : IngressKey) ∈ db.ingressReceipts → sequence' ≤ sequence
  durable : db.CursorsBehind
  identified : ∀ (commitId : U128) (r : StoredIdentifiedReceipt),
    db.identifiedReceipts[commitId]? = some r → PlainBacked db.file.bytes commitId r
  ingress : ∀ (key : IngressKey) (r : StoredIngressReceipt), db.ingressReceipts[key]? = some r →
    OrderedBacked db.file.bytes r

section Backed
variable {bytes : Bytes}

theorem toNat_records {canonical : Bytes} {records points : Nat}
    (h : Tables.Counts canonical records points) : (UInt32.ofNat records).toNat = records :=
  UInt32.toNat_ofNat_of_lt' h.bounds.2.1

theorem plainBacked {commitId : U128} {r : StoredIdentifiedReceipt} {p : Option Bytes}
    (h : Plain bytes commitId r p) : PlainBacked bytes commitId r := by
  cases h with
  | live small hpayload hoffset hframe =>
    obtain ⟨canonical, -, hcounts⟩ := hpayload.holds
    refine ⟨fun _ => ⟨_, hframe, rfl, toNat_records hcounts, hoffset, hpayload⟩, fun hzero => ?_⟩
    rw [hoffset, frameHeaderBytes] at hzero
    omega
  | compact hpayload hoffset hkept =>
    refine ⟨fun hlive => absurd hoffset hlive, fun _ payload' hkept' => ?_⟩
    rw [hkept] at hkept'
    exact Option.some.inj hkept' ▸ hpayload
  | bare _ hoffset hkept =>
    refine ⟨fun hlive => absurd hoffset hlive, fun _ payload' hkept' => ?_⟩
    rw [hkept] at hkept'
    cases hkept'

theorem orderedBacked {r : StoredIngressReceipt} {p : Option Bytes} (h : Ordered bytes r p) :
    OrderedBacked bytes r := by
  cases h with
  | live small hcanonical hoffset hframe =>
    refine ⟨fun _ => ⟨_, _, hframe, rfl, toNat_records hcanonical.holds, rfl, hoffset, hcanonical⟩,
      fun hzero => ?_⟩
    rw [hoffset, frameHeaderBytes] at hzero
    omega
  | compact hcanonical hoffset hkept =>
    refine ⟨fun hlive => absurd hoffset hlive, fun _ canonical' hkept' => ?_⟩
    rw [hkept] at hkept'
    exact Option.some.inj hkept' ▸ hcanonical
  | bare _ hoffset hkept =>
    refine ⟨fun hlive => absurd hoffset hlive, fun _ canonical' hkept' => ?_⟩
    rw [hkept] at hkept'
    cases hkept'

end Backed

/-- The tables stay consistent, whatever bytes the database is opened over and whatever becomes
of the calls behind it. -/
theorem Reachable.receipt_tables_consistent [Jiff] {db : Database} (h : Reachable db) :
    db.Consistent := by
  have hbacked := h.sound.toBacked
  constructor
  case commitIds =>
    intro commitId
    refine ⟨hbacked.commitIds commitId, ?_⟩
    rintro (hmem | hmem)
    · obtain ⟨r, hr⟩ := exists_getElem?_of_mem hmem
      exact (hbacked.identified commitId r hr).1
    · obtain ⟨key, hkey⟩ := exists_getElem?_of_mem hmem
      exact (hbacked.ingressCommitIds commitId key hkey).1
  case disjoint =>
    intro commitId hmem
    obtain ⟨r, hr⟩ := exists_getElem?_of_mem hmem
    exact (hbacked.identified commitId r hr).2.1
  case keys =>
    intro key r hr
    exact (hbacked.ingress key r hr).1
  case inverse =>
    intro commitId key
    constructor
    · intro hkey
      exact (hbacked.ingressCommitIds commitId key hkey).2
    · rintro ⟨r, hr, rfl⟩
      exact (hbacked.ingress key r hr).2.2.1
  case last =>
    intro source sequence
    constructor
    · intro hlast
      refine ⟨hbacked.last source sequence hlast, fun sequence' hmem => ?_⟩
      obtain ⟨last, hlast', hle⟩ := hbacked.cursor _ hmem
      obtain rfl : sequence = last := Option.some.inj (hlast.symm.trans hlast')
      exact hle
    · rintro ⟨hmem, hgreatest⟩
      obtain ⟨last, hlast, hle⟩ := hbacked.cursor _ hmem
      have hback := hgreatest last (hbacked.last source last hlast)
      obtain rfl : sequence = last := UInt64.le_antisymm hle hback
      exact hlast
  case durable => exact h.cursors
  case identified =>
    intro commitId r hr
    obtain ⟨-, -, -, p, hp⟩ := hbacked.identified commitId r hr
    exact plainBacked hp
  case ingress =>
    intro key r hr
    obtain ⟨-, -, -, -, p, hp⟩ := hbacked.ingress key r hr
    exact orderedBacked hp

end Database

/-- The handle behind an ordered commit, a plain one and a reclaim. -/
def Database.compacted [Jiff] (db : Database) : Database :=
  let meter (id : EntityId) : Record := .entity
    { id := id, kind := "meter", name := "main", parent := none, validFrom := 0, validTo := none,
      properties := ∅ }
  let db := (db.commit ⟨[meter 1], none, some ⟨1, 4, 5⟩⟩ {}).2
  let db := (db.commit ⟨[meter 2], some 7, none⟩ {}).2
  (db.reclaimLiveLog [] {}).2

set_option maxRecDepth 20000 in
/-- Both receipts keep their bytes. -/
theorem receipt_tables_consistent_compacted :
    letI := Jiff.withoutZones
    ∃ db : Database, db.Reachable ∧ db.Consistent ∧ db.commitIds.toList = [5, 7] ∧
      (db.identifiedReceipts[(7 : U128)]?.any fun r =>
        decide (r.payloadOffset = 0) && r.compactPayload.isSome) = true := by
  let _ := Jiff.withoutZones
  have hrun : (Database.openMode {} false [] .empty {}).1.map (fun db =>
      (db.compacted.commitIds.toList, db.compacted.identifiedReceipts[(7 : U128)]?.any fun r =>
        decide (r.payloadOffset = 0) && r.compactPayload.isSome)) = .ok ([5, 7], true) := by
    decide +kernel
  obtain ⟨db, hopen, hrun⟩ := map_eq_ok.mp hrun
  obtain ⟨hids, hkept⟩ := Prod.mk.inj hrun
  have hreachable : db.compacted.Reachable :=
    .reclaimLiveLog _ _ (.commit _ _ (.commit _ _ (.opened (Prod.ext hopen rfl))))
  exact ⟨db.compacted, hreachable, hreachable.receipt_tables_consistent, hids, hkept⟩

end Ftwdb
