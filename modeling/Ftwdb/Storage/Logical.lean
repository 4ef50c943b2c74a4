import Ftwdb.Storage.Sound

/-!
# The logical state of a database

What a caller can observe of a handle, without the places where it is stored:
the catalog, the live points of each series, the identifiers and cursors in
use, and for every receipt the bytes of its transaction.  Two sound handles with
one logical state and one configuration decide alike on every transaction
(`Database.decide_agree`); `Decision.Agree` says what may differ: the end of the
log that an answer without a write names, the durability, and the error for
other bytes of the same length and checksum under a plain identifier.
-/

namespace Ftwdb

open ByteCodec Check KeyedMap

/-! ## Stored bytes -/

namespace StoredIdentifiedReceipt

/-- The bytes behind a plain receipt. -/
def payload (r : StoredIdentifiedReceipt) (bytes : Bytes) : Option Bytes :=
  if r.payloadOffset = 0 then r.compactPayload
  else some (slice bytes r.payloadOffset (r.payloadOffset + r.payloadLen.toNat))

end StoredIdentifiedReceipt

namespace StoredIngressReceipt

/-- The bytes behind an ordered receipt. -/
def canonical (r : StoredIngressReceipt) (bytes : Bytes) : Option Bytes :=
  if r.canonicalPayloadOffset = 0 then r.compactPayload
  else some (slice bytes r.canonicalPayloadOffset
    (r.canonicalPayloadOffset + r.canonicalPayloadLen.toNat))

end StoredIngressReceipt

theorem FrameAt.slice_payload {bytes : Bytes} {offset : Nat} {f : Frame}
    (h : FrameAt bytes offset f)
    {a b : Bytes} (hpayload : f.payload = a ++ b) :
    slice bytes (offset + (frameHeaderBytes + a.length))
      (offset + (frameHeaderBytes + a.length) + b.length) = b := by
  obtain ⟨rest, hrest⟩ := h
  rw [slice, Nat.add_sub_cancel_left, ← List.drop_drop, hrest, Frame.encode, hpayload,
    ← Nat.add_zero frameHeaderBytes, Nat.add_assoc, ← f.length_header, Nat.zero_add]
  simp only [List.append_assoc]
  rw [← List.drop_drop, List.drop_left, List.drop_left, List.take_left]

theorem Plain.payload_eq {bytes : Bytes} {commitId : U128} {r : StoredIdentifiedReceipt}
    {p : Option Bytes} (h : Plain bytes commitId r p) : r.payload bytes = p := by
  rw [StoredIdentifiedReceipt.payload]
  cases h with
  | @live payload small hpayload hoffset hframe =>
    have hslice := hframe.slice_payload (a := []) rfl
    rw [List.length_nil, Nat.add_zero, ← hoffset, hpayload.length] at hslice
    rw [if_neg (by rw [hoffset, frameHeaderBytes]; omega), hslice]
  | compact hpayload hoffset hkept => rw [if_pos hoffset, hkept]
  | bare hlong hoffset hkept => rw [if_pos hoffset, hkept]

theorem Ordered.canonical_eq {bytes : Bytes} {r : StoredIngressReceipt} {p : Option Bytes}
    (h : Ordered bytes r p) : r.canonical bytes = p := by
  rw [StoredIngressReceipt.canonical]
  cases h with
  | @live canonical small hpayload hoffset hframe =>
    have hslice := hframe.slice_payload rfl
    have hidentity : (Database.identityBytes r.identity).length = ingressIdentityBytes :=
      Tables.FrameIdentity.length_encode (.ingress r.identity)
    rw [hidentity, ← hoffset, hpayload.length] at hslice
    rw [if_neg (by rw [hoffset, frameHeaderBytes]; omega), hslice]
  | compact hpayload hoffset hkept => rw [if_pos hoffset, hkept]
  | bare hlong hoffset hkept => rw [if_pos hoffset, hkept]

/-! ## Logical states -/

/-- What a stored receipt says of the original transaction. -/
structure Receipt where
  frameOffset : Nat
  points : Nat
  records : Nat
  bytesWritten : Nat
deriving DecidableEq

/-- The answer to an exact retry. -/
def Receipt.commit (r : Receipt) (durable : Bool) : Commit :=
  ⟨r.frameOffset, r.points, r.records, r.bytesWritten, durable, true⟩

/-- An ordered transaction that was accepted: its identifier, its bytes if they
are kept, and its receipt. -/
structure OrderedEntry where
  commitId : U128
  canonical : Option Bytes
  receipt : Receipt
deriving DecidableEq

/-- What a caller can observe of a handle. -/
@[ext] structure Logical where
  catalog : Catalog
  series : UInt64 → List Point
  commitIds : Std.ExtTreeSet U128
  cursors : Std.ExtTreeMap U128 UInt64
  orderedIds : Std.ExtTreeMap U128 IngressKey
  plain : U128 → Option (Option Bytes)
  ordered : IngressKey → Option OrderedEntry

/-- What is logical in an ordered receipt. -/
def StoredIngressReceipt.entry (r : StoredIngressReceipt) (bytes : Bytes) : OrderedEntry :=
  ⟨r.identity.commitId, r.canonical bytes,
    ⟨r.commit.frameOffset, r.commit.points, r.commit.records, r.commit.bytesWritten⟩⟩

/-- The logical state of tables over the bytes of a log. -/
def Tables.logical (t : Tables) (bytes : Bytes) : Logical where
  catalog := t.catalog
  series := t.index.seriesPoints
  commitIds := t.commitIds
  cursors := t.ingressLastSequences
  orderedIds := t.ingressCommitIds
  plain commitId := t.identifiedReceipts[commitId]?.map (·.payload bytes)
  ordered key := t.ingressReceipts[key]?.map (·.entry bytes)

/-- The logical state of a handle. -/
def Database.logical (db : Database) : Logical := db.toTables.logical db.file.bytes

/-! ## Decisions that agree -/

namespace Database

/-- A refusal because a plain identifier is known with other bytes.  A handle that
has the frame in its log takes equal lengths and checksums for corruption. -/
inductive Decision.Conflicts (commitId : U128) : Decision → Prop
  | conflict : Conflicts commitId (.refuse (.ingressCommitIdConflict commitId) false)
  | corruption (offset : Nat) : Conflicts commitId
      (.refuse (.corruption offset "stored identified payload changed after open") true)

/-- How the decisions of two handles on one transaction agree. -/
inductive Decision.Agree (db db' : Database) (t : Transaction) : Decision → Decision → Prop
  /-- Nothing to write, or an exact retry of a plain identifier: each handle
  reports no counts and the end of its own log. -/
  | nothing (deduplicated : Bool) : t.ingressIdentity = none →
      Agree db db' t (.answer (db.nothingWritten deduplicated))
        (.answer (db'.nothingWritten deduplicated))
  /-- An exact retry of an ordered identity: one receipt. -/
  | replayed (receipt : Receipt) (durable durable' : Bool) :
      Agree db db' t (.answer (receipt.commit durable)) (.answer (receipt.commit durable'))
  | refused (e : Error) : Agree db db' t (.refuse e false) (.refuse e false)
  | conflict {commitId : U128} {d d' : Decision} : t.commitId = some commitId →
      d.Conflicts commitId → d'.Conflicts commitId → Agree db db' t d d'
  | accepted (frame : Frame) (catalog : Option Catalog) :
      Agree db db' t (.write frame catalog) (.write frame catalog)

theorem Decision.Conflicts.refuses {commitId : U128} {d : Decision} (h : d.Conflicts commitId) :
    ∃ e poison, d = .refuse e poison := by
  cases h with
  | conflict => exact ⟨_, _, rfl⟩
  | corruption offset => exact ⟨_, _, rfl⟩

theorem Decision.Agree.refuses {db db' : Database} {t : Transaction} {e : Error} {poison : Bool}
    {d : Decision} (h : Agree db db' t (.refuse e poison) d) :
    ∃ e' poison', d = .refuse e' poison' := by
  cases h with
  | refused e => exact ⟨e, false, rfl⟩
  | conflict _ _ hd => exact hd.refuses

variable [Jiff] {db db' : Database}

theorem decideNew_agree (hcatalog : db'.catalog = db.catalog) (hconfig : db'.config = db.config)
    {t : Transaction} (hplain : t.ingressIdentity = none) :
    Decision.Agree db db' t (db.decideNew t) (db'.decideNew t) := by
  rw [decideNew, decideNew, hcatalog, hconfig]
  split
  · exact .nothing false hplain
  split
  · exact .refused _
  cases db.catalog.applyRecords t.records with
  | error e => exact .refused e
  | ok catalog =>
    cases encodeTransaction t with
    | error e => exact .refused e
    | ok payload =>
      simp only
      split
      · exact .refused _
      split
      · exact .accepted ..
      · exact .refused _

theorem writeIngress_agree (hcatalog : db'.catalog = db.catalog) (hconfig : db'.config = db.config)
    (identity : IngressIdentity) (t : Transaction) (canonical : Bytes) :
    Decision.Agree db db' t (decideIngressNew.writeIngress db identity t canonical)
      (decideIngressNew.writeIngress db' identity t canonical) := by
  simp only [decideIngressNew.writeIngress, hcatalog, hconfig]
  split
  · exact .refused _
  split
  · exact .refused _
  cases db.catalog.applyRecords t.records with
  | error e => exact .refused e
  | ok catalog =>
    simp only
    split
    · exact .accepted ..
    · exact .refused _

/-- The decision on a known plain identifier with other bytes. -/
theorem decideReplay_conflicts (h : db.Sound) {t : Transaction} {commitId : U128} {payload : Bytes}
    {r : StoredIdentifiedReceipt} (hpayload : encodeTransaction t = .ok payload)
    (hr : db.identifiedReceipts[commitId]? = some r)
    (hother : r.payload db.file.bytes ≠ some payload) :
    (db.decideReplay t commitId).Conflicts commitId := by
  obtain ⟨-, -, -, p, hp⟩ := h.identified commitId r hr
  rw [hp.payload_eq] at hother
  simp only [decideReplay, hpayload, hr, hp.identifiedPayloadMatchesAt, if_neg hother]
  by_cases hlive : r.payloadOffset ≠ 0 ∧ payload.length = r.payloadLen.toNat ∧
      Crc32.hash payload = r.payloadCrc32
  · simp only [if_pos hlive]
    exact .corruption _
  · simp only [if_neg hlive]
    exact .conflict

/-- A known plain identifier: the bytes decide, whichever way they are kept. -/
theorem decideReplay_agree (h : db.Sound) (h' : db'.Sound) (hlogical : db'.logical = db.logical)
    {t : Transaction} {commitId : U128} (hplain : t.ingressIdentity = none)
    (hcommit : t.commitId = some commitId) :
    Decision.Agree db db' t (db.decideReplay t commitId) (db'.decideReplay t commitId) := by
  cases hpayload : encodeTransaction t with
  | error e =>
    simp only [decideReplay, hpayload]
    exact .refused e
  | ok payload =>
    have hbytes : db'.identifiedReceipts[commitId]?.map (·.payload db'.file.bytes) =
        db.identifiedReceipts[commitId]?.map (·.payload db.file.bytes) :=
      congrFun (congrArg Logical.plain hlogical :) commitId
    cases hr : db.identifiedReceipts[commitId]? with
    | none =>
      rw [hr, Option.map_none, Option.map_eq_none_iff] at hbytes
      simp only [decideReplay, hpayload, hr, hbytes]
      exact .refused _
    | some r =>
      rw [hr, Option.map_some] at hbytes
      obtain ⟨r', hr', hbytes⟩ := Option.map_eq_some_iff.mp hbytes
      by_cases hsame : r.payload db.file.bytes = some payload
      · obtain ⟨-, -, -, p, hp⟩ := h.identified commitId r hr
        obtain ⟨-, -, -, p', hp'⟩ := h'.identified commitId r' hr'
        rw [hsame, hp'.payload_eq] at hbytes
        rw [hp.payload_eq] at hsame
        simp only [decideReplay, hpayload, hr, hr', hp.identifiedPayloadMatchesAt,
          hp'.identifiedPayloadMatchesAt, if_pos hsame, if_pos hbytes]
        exact .nothing true hplain
      · exact .conflict hcommit (decideReplay_conflicts h hpayload hr hsame)
          (decideReplay_conflicts h' hpayload hr' (hbytes ▸ hsame))

/-- The decision on a known ordered key: from its receipt alone. -/
theorem decideIngressReplay_eq (h : db.Sound) {identity : IngressIdentity}
    {r : StoredIngressReceipt} (hr : db.ingressReceipts[identity.key]? = some r)
    (canonical : Bytes) : db.decideIngressReplay identity r canonical =
      if r.identity.commitId = identity.commitId ∧ r.canonical db.file.bytes = some canonical then
        .answer ((r.entry db.file.bytes).receipt.commit
          (db.ingressDurableSequences[identity.sourceId]?.any (identity.sequence ≤ ·)))
      else .refuse (.ingressSourceSequenceConflict identity.sourceId identity.sequence) false := by
  obtain ⟨-, -, -, -, p, hp⟩ := h.ingress _ _ hr
  rw [decideIngressReplay, hp.canonical_eq, hp.ingressPayloadMatchesAt]
  by_cases hcommit : r.identity.commitId = identity.commitId
  · by_cases hsame : p = some canonical
    · simp [hcommit, hsame, StoredIngressReceipt.entry, Receipt.commit]
    · simp [hcommit, hsame]
  · simp [hcommit]

/-- An ordered identity: a known key is compared by its bytes, a new one must be
new in all its parts. -/
theorem decideIngress_agree (h : db.Sound) (h' : db'.Sound) (hlogical : db'.logical = db.logical)
    (hconfig : db'.config = db.config) (t : Transaction) (identity : IngressIdentity) :
    Decision.Agree db db' t (db.decideIngress identity t) (db'.decideIngress identity t) := by
  rw [decideIngress, decideIngress]
  split
  · exact .refused _
  cases encodeCanonicalTransaction t with
  | error e => exact .refused e
  | ok canonical =>
    have hentry : db'.ingressReceipts[identity.key]?.map (·.entry db'.file.bytes) =
        db.ingressReceipts[identity.key]?.map (·.entry db.file.bytes) :=
      congrFun (congrArg Logical.ordered hlogical :) identity.key
    cases hr : db.ingressReceipts[identity.key]? with
    | some r =>
      rw [hr, Option.map_some] at hentry
      obtain ⟨r', hr', hentry⟩ := Option.map_eq_some_iff.mp hentry
      have hid : r'.identity.commitId = r.identity.commitId :=
        (congrArg OrderedEntry.commitId hentry :)
      have hbytes : r'.canonical db'.file.bytes = r.canonical db.file.bytes :=
        (congrArg OrderedEntry.canonical hentry :)
      simp only [hr', decideIngressReplay_eq h hr, decideIngressReplay_eq h' hr', hentry, hid,
        hbytes]
      split
      · exact .replayed ..
      · exact .refused _
    | none =>
      rw [hr, Option.map_none, Option.map_eq_none_iff] at hentry
      have hcatalog : db'.catalog = db.catalog := (congrArg Logical.catalog hlogical :)
      have hids : db'.commitIds = db.commitIds := (congrArg Logical.commitIds hlogical :)
      have hcursors : db'.ingressLastSequences = db.ingressLastSequences :=
        (congrArg Logical.cursors hlogical :)
      have hwrite := writeIngress_agree hcatalog hconfig identity t canonical
      simp only [hentry, decideIngressNew, hids, hcursors]
      split
      · exact .refused _
      split
      · split
        · exact .refused _
        · exact hwrite
      · exact hwrite

/-- Healthy handles with one logical state and one configuration agree on every
transaction. -/
theorem decide_agree (h : db.Sound) (h' : db'.Sound) (hlogical : db'.logical = db.logical)
    (hconfig : db'.config = db.config) (hwritable : db.readOnly = false ∧ db.poisoned = false)
    (hwritable' : db'.readOnly = false ∧ db'.poisoned = false) (t : Transaction) :
    Decision.Agree db db' t (db.decide t) (db'.decide t) := by
  have hcatalog : db'.catalog = db.catalog := (congrArg Logical.catalog hlogical :)
  have hids : db'.commitIds = db.commitIds := (congrArg Logical.commitIds hlogical :)
  have hordered : db'.ingressCommitIds = db.ingressCommitIds :=
    (congrArg Logical.orderedIds hlogical :)
  rw [decide, decide, hwritable.1, hwritable.2, hwritable'.1, hwritable'.2, hids, hordered]
  simp only [Bool.false_eq_true, if_false]
  cases hidentity : t.ingressIdentity with
  | some identity => exact decideIngress_agree h h' hlogical hconfig t identity
  | none =>
    cases hcommit : t.commitId with
    | none => exact decideNew_agree hcatalog hconfig hidentity
    | some commitId =>
      simp only
      split
      · exact .refused _
      split
      · exact decideReplay_agree h h' hlogical hidentity hcommit
      · exact decideNew_agree hcatalog hconfig hidentity

variable {t : Transaction} {identity : IngressIdentity} (hsound : db.Sound)
  (hidentity : t.ingressIdentity = some identity) (hreadOnly : db.readOnly = false)
  (hpoisoned : db.poisoned = false) {receipt : StoredIngressReceipt}
  (hreceipt : db.ingressReceipts[identity.key]? = some receipt) {canonical : Bytes}
  (hcanonical : encodeCanonicalTransaction t = .ok canonical)
include hsound hidentity hreadOnly hpoisoned hreceipt hcanonical

/-- How a known key is decided: from its receipt alone. -/
theorem decide_of_known : db.decide t =
    if receipt.identity.commitId = identity.commitId ∧
        receipt.canonical db.file.bytes = some canonical then
      .answer { receipt.commit with
        deduplicated := true
        durable := db.ingressDurableSequences[identity.sourceId]?.any (identity.sequence ≤ ·) }
    else .refuse (.ingressSourceSequenceConflict identity.sourceId identity.sequence) false := by
  obtain ⟨hkey, hsource, -, -, p, hordered⟩ := hsound.ingress _ _ hreceipt
  have hsame : receipt.identity.sourceId = identity.sourceId := congrArg IngressKey.sourceId hkey
  have hzero : identity.sourceId ≠ 0 := hsame ▸ hsource
  rw [decide, hreadOnly, hpoisoned, hidentity]
  simp only [Bool.false_eq_true, if_false]
  rw [decideIngress, if_neg hzero, hcanonical]
  simp only [hreceipt]
  exact decideIngressReplay_eq hsound hreceipt canonical

theorem commit_of_known (io : Io) : db.commit t io =
    if receipt.identity.commitId = identity.commitId ∧
        receipt.canonical db.file.bytes = some canonical then
      (.ok { receipt.commit with
        deduplicated := true
        durable := db.ingressDurableSequences[identity.sourceId]?.any (identity.sequence ≤ ·) }, db)
    else (.error (.ingressSourceSequenceConflict identity.sourceId identity.sequence), db) := by
  rw [commit, decide_of_known hsound hidentity hreadOnly hpoisoned hreceipt hcanonical]
  by_cases hsame : receipt.identity.commitId = identity.commitId ∧
      receipt.canonical db.file.bytes = some canonical
  · rw [if_pos hsame, if_pos hsame]
  · rw [if_neg hsame, if_neg hsame]
    simp only [Bool.or_false]

end Database

end Ftwdb
