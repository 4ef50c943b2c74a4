import Mathlib.Tactic.MkIffOfInductiveProp
import Ftwdb.Storage.Recovery

/-!
# The journal of a log

A batch is one accepted request as its caller knows it: its points, its catalog
records, its identity and the place of its frame.  `Tables.Carries t bs` says
that the tables `t` are exactly those of the batches `bs`.  A `Journal` pairs the frames of a log
with their batches; a cut of the log keeps the journal of the batches that end
within it (`Journal.cut`), and every call that writes adds one batch
(`Database.call_acted`).
-/

namespace Ftwdb

open ByteCodec Check StableSort List KeyedMap

/-! ## Batches -/

/-- One accepted request: where its frame stands in the log, what it brought and
who it says it is. -/
structure Batch where
  offset : Nat
  length : Nat
  points : List Point
  /-- The records of a transaction; an appended batch is not checked against the catalog. -/
  records : List Record
  identity : Tables.FrameIdentity
deriving DecidableEq

/-- The end of the frame. -/
def Batch.stop (b : Batch) : Nat := b.offset + b.length

/-- The points that a call brings. -/
def Call.points : Call → List Point
  | .append points => points
  | .commit t => t.pointList
  | .commitIngress _ t => t.pointList
  | .flush => []

/-- The records that a call brings to the catalog. -/
def Call.records : Call → List Record
  | .append _ => []
  | .commit t => t.records
  | .commitIngress _ t => t.records
  | .flush => []

/-- The identity that a call is framed with. -/
def Call.identity : Call → Tables.FrameIdentity
  | .append _ => .anonymous
  | .commit t => Database.transactionIdentity t
  | .commitIngress identity _ => .ingress identity
  | .flush => .anonymous

/-- The batch of a call whose frame stands at `offset`. -/
def Call.batch (c : Call) (offset length : Nat) : Batch :=
  ⟨offset, length, c.points, c.records, c.identity⟩

/-- A receipt for every identity among the batches `bs` and for no other. -/
@[mk_iff] structure Tables.Receipts (t : Tables) (bs : List Batch) : Prop where
  identified : ∀ b ∈ bs, ∀ commitId, b.identity = .identified commitId →
    ∃ r, t.identifiedReceipts[commitId]? = some r ∧ r.commit.frameOffset = b.offset
  ingress : ∀ b ∈ bs, ∀ identity, b.identity = .ingress identity →
    ∃ r, t.ingressReceipts[identity.key]? = some r ∧ r.identity = identity ∧
      r.commit.frameOffset = b.offset
  ofIdentified : ∀ commitId (r : StoredIdentifiedReceipt),
    t.identifiedReceipts[commitId]? = some r →
      commitId ∈ t.commitIds ∧ ∃ b ∈ bs, b.identity = .identified commitId
  ofIngress : ∀ key (r : StoredIngressReceipt), t.ingressReceipts[key]? = some r →
    r.identity.key = key ∧ ∃ b ∈ bs, b.identity = .ingress r.identity

section

variable [Jiff]

/-- The catalog that the records of the batches lead to, one batch after the other. -/
def Batch.catalog (bs : List Batch) : Except Error Catalog :=
  bs.foldlM (fun c b => (c.applyRecords b.records).map fun next => next.getD c) {}

/-- The tables hold the points of `bs`, each in its place, the catalog that their
records lead to, and their receipts. -/
structure Tables.Carries (t : Tables) (bs : List Batch) : Prop extends t.Receipts bs where
  points : t.index.Holds (bs.flatMap Batch.points)
  catalog : Batch.catalog bs = .ok t.catalog
  catalogRecords : t.catalogRecords = (bs.map fun b => metadataRecords b.records).sum

namespace Database

/-- What the writer decides about a call. -/
def decideCall (db : Database) : Call → Decision
  | .append points => db.decideAppend points
  | .commit t => db.decide t
  | .commitIngress identity t => db.decide (t.withIngressIdentity identity)
  | .flush => .refuse .readOnly false

/-- The batch that a call tries to write at the end of the log. -/
def attempt (db : Database) (c : Call) : Option Batch :=
  match db.decideCall c with
  | .write frame _ => some (c.batch db.file.length frame.encode.length)
  | _ => none

end Database

end

namespace Tables

theorem mem_concat {α : Type} {a x : α} {l : List α} (h : x ∈ l ++ [a]) : x ∈ l ∨ x = a :=
  (mem_append.mp h).imp_right mem_singleton.mp

section

variable {t : Tables} {frame : FrameIdentity} {payload : Bytes} {offset : Nat} {commit : Commit}

theorem mem_commitIds_addFrameReceipt {commitId : U128}
    (h : frame = .identified commitId ∨ commitId ∈ t.commitIds) :
    commitId ∈ (t.addFrameReceipt frame payload offset commit).commitIds := by
  rcases h with rfl | h
  · simp [Tables.addFrameReceipt, addIdentified]
  · cases frame <;> simp [Tables.addFrameReceipt, addIdentified, addIngress, h]

/-- A plain receipt of the new table is the frame's own or an older one. -/
theorem getElem?_identifiedReceipts_addFrameReceipt {commitId : U128}
    {r : StoredIdentifiedReceipt} :
    (t.addFrameReceipt frame payload offset commit).identifiedReceipts[commitId]? = some r ↔
      (frame = .identified commitId ∧
        ⟨offset + frameHeaderBytes, UInt32.ofNat payload.length, Crc32.hash payload, none,
          commit⟩ = r) ∨
      (frame ≠ .identified commitId ∧ t.identifiedReceipts[commitId]? = some r) := by
  cases frame with
  | anonymous => simp [Tables.addFrameReceipt]
  | ingress identity => simp [Tables.addFrameReceipt, addIngress]
  | identified new =>
    by_cases hnew : new = commitId <;>
      simp [Tables.addFrameReceipt, addIdentified, getElem?_insert_eq, hnew]

/-- An ordered receipt of the new table is the frame's own or an older one. -/
theorem getElem?_ingressReceipts_addFrameReceipt {key : IngressKey} {r : StoredIngressReceipt} :
    (t.addFrameReceipt frame payload offset commit).ingressReceipts[key]? = some r ↔
      (∃ identity, frame = .ingress identity ∧ identity.key = key ∧
        ⟨identity, offset + frameHeaderBytes + ingressIdentityBytes,
          UInt32.ofNat (payload.drop ingressIdentityBytes).length,
          Crc32.hash (payload.drop ingressIdentityBytes), none, commit⟩ = r) ∨
      ((∀ identity, frame = .ingress identity → identity.key ≠ key) ∧
        t.ingressReceipts[key]? = some r) := by
  cases frame with
  | anonymous => simp [Tables.addFrameReceipt]
  | identified commitId => simp [Tables.addFrameReceipt, addIdentified]
  | ingress new =>
    by_cases hnew : new.key = key <;>
      simp [Tables.addFrameReceipt, addIngress, getElem?_insert_eq, hnew]

theorem Receipts.addFrameReceipt {bs : List Batch} (h : t.Receipts bs) {b : Batch}
    (hfresh : t.Fresh b.identity) (payload : Bytes) (offset : Nat)
    (hcommit : commit.frameOffset = b.offset) :
    (t.addFrameReceipt b.identity payload offset commit).Receipts (bs ++ [b]) := by
  have hlast : b ∈ bs ++ [b] := mem_append_right _ mem_cons_self
  refine ⟨fun b' hb' commitId hid => ?_, fun b' hb' identity hid => ?_,
    fun commitId r hr => ?_, fun key r hr => ?_⟩
  · rcases mem_concat hb' with hb' | rfl
    · obtain ⟨r, hr, hoffset⟩ := h.identified b' hb' commitId hid
      refine ⟨r, getElem?_identifiedReceipts_addFrameReceipt.mpr (.inr ⟨fun heq => ?_, hr⟩),
        hoffset⟩
      rw [heq] at hfresh
      exact hfresh (h.ofIdentified commitId r hr).1
    · exact ⟨_, getElem?_identifiedReceipts_addFrameReceipt.mpr (.inl ⟨hid, rfl⟩), hcommit⟩
  · rcases mem_concat hb' with hb' | rfl
    · obtain ⟨r, hr, hsame, hoffset⟩ := h.ingress b' hb' identity hid
      refine ⟨r, getElem?_ingressReceipts_addFrameReceipt.mpr
        (.inr ⟨fun new heq hkey => ?_, hr⟩), hsame, hoffset⟩
      rw [heq] at hfresh
      exact hfresh.2.1 (hkey ▸ mem_of_getElem? hr)
    · exact ⟨_, getElem?_ingressReceipts_addFrameReceipt.mpr (.inl ⟨identity, hid, rfl, rfl⟩), rfl,
        hcommit⟩
  · rcases getElem?_identifiedReceipts_addFrameReceipt.mp hr with ⟨hid, -⟩ | ⟨-, hr⟩
    · exact ⟨mem_commitIds_addFrameReceipt (.inl hid), b, hlast, hid⟩
    · obtain ⟨hin, b', hb', hid⟩ := h.ofIdentified commitId r hr
      exact ⟨mem_commitIds_addFrameReceipt (.inr hin), b', mem_append_left _ hb', hid⟩
  · rcases getElem?_ingressReceipts_addFrameReceipt.mp hr with ⟨new, hid, hkey, rfl⟩ | ⟨-, hr⟩
    · exact ⟨hkey, b, hlast, hid⟩
    · obtain ⟨hkey, b', hb', hid⟩ := h.ofIngress key r hr
      exact ⟨hkey, b', mem_append_left _ hb', hid⟩

theorem receipts_forgetDurable {bs : List Batch} :
    t.forgetDurable.Receipts bs ↔ t.Receipts bs := by
  simp only [receipts_iff, forgetDurable, Std.ExtTreeMap.getElem?_map, Option.map_eq_some_iff,
    forall_exists_index, and_imp, forall_apply_eq_imp_iff₂, exists_exists_and_eq_and,
    Commit.frameOffset_forgetDurable, StoredIdentifiedReceipt.commit_forgetDurable,
    StoredIngressReceipt.commit_forgetDurable, StoredIngressReceipt.identity_forgetDurable]

end

namespace Carries

variable [Jiff] {t : Tables} {bs : List Batch}

theorem empty : Tables.Carries {} [] where
  points := .empty
  catalog := rfl
  catalogRecords := rfl
  identified := by simp
  ingress := by simp
  ofIdentified := by simp
  ofIngress := by simp

/-- The catalog behind one more batch. -/
theorem catalog_concat (h : t.Carries bs) {b : Batch} {catalog : Option Catalog}
    (happlied : t.catalog.applyRecords b.records = .ok catalog) :
    Batch.catalog (bs ++ [b]) = .ok (catalog.getD t.catalog) := by
  rw [Batch.catalog, foldlM_append]
  change (Batch.catalog bs).bind _ = _
  rw [h.catalog]
  change (Except.map _ (t.catalog.applyRecords b.records)).bind pure = _
  rw [happlied]
  rfl

theorem catalogRecords_concat (h : t.Carries bs) (b : Batch) :
    t.catalogRecords + metadataRecords b.records =
      ((bs ++ [b]).map fun b => metadataRecords b.records).sum := by
  rw [map_append, sum_append, h.catalogRecords]
  simp

theorem insertPoints (h : t.Carries bs) (offset length : Nat) (points : List Point) :
    (Database.insertPoints t points).Carries
      (bs ++ [(Call.append points).batch offset length]) where
  toReceipts := by
    have hcommit : (⟨offset, 0, 0, 0, false, false⟩ : Commit).frameOffset = offset := rfl
    have hreceipts := h.toReceipts.addFrameReceipt (b := (Call.append points).batch offset length)
      trivial [] 0 hcommit
    exact { hreceipts with }
  points := by
    rw [flatMap_append, flatMap_singleton]
    exact h.points.foldl_insertIndexedPoint points
  catalog := @catalog_concat _ _ _ h _ none rfl
  catalogRecords := h.catalogRecords_concat ((Call.append points).batch offset length)

theorem acceptTransaction (h : t.Carries bs) {transaction : Transaction}
    {catalog : Option Catalog}
    (hfresh : t.Fresh (Database.transactionIdentity transaction))
    (happlied : t.catalog.applyRecords transaction.records = .ok catalog)
    (length : Nat) (payload : Bytes) (offset : Nat) {commit : Commit}
    (hcommit : commit.frameOffset = offset) :
    (Database.acceptTransaction t transaction payload catalog offset commit).Carries
      (bs ++ [(Call.commit transaction).batch offset length]) := by
  have hreceipts := h.toReceipts.addFrameReceipt
    (b := (Call.commit transaction).batch offset length)
    hfresh payload offset hcommit
  have hpoints := h.points.foldl_insertIndexedPoint transaction.pointList
  have hcatalog := h.catalog_concat (b := (Call.commit transaction).batch offset length) happlied
  have hrecords := h.catalogRecords_concat ((Call.commit transaction).batch offset length)
  have hflat : (bs ++ [(Call.commit transaction).batch offset length]).flatMap Batch.points =
      bs.flatMap Batch.points ++ transaction.pointList := by
    rw [flatMap_append, flatMap_singleton]
    rfl
  rw [Database.acceptTransaction]
  simp only [Call.batch, Call.identity] at hreceipts
  cases hidentity : Database.transactionIdentity transaction <;>
  · simp only [hidentity] at hreceipts
    exact ⟨by simpa only [Call.batch, Call.identity, hidentity] using { hreceipts with },
      hflat ▸ hpoints, hcatalog, hrecords⟩

/-- Durability flags do not matter. -/
theorem of_forgetDurable_eq {u : Tables} (h : t.Carries bs)
    (heq : t.forgetDurable = u.forgetDurable) : u.Carries bs where
  toReceipts := by
    rw [← receipts_forgetDurable, ← heq, receipts_forgetDurable]
    exact h.toReceipts
  points := (congrArg Tables.index heq :) ▸ h.points
  catalog := (congrArg Tables.catalog heq :) ▸ h.catalog
  catalogRecords := (congrArg Tables.catalogRecords heq :) ▸ h.catalogRecords

end Carries

end Tables

/-! ## The journal of a log -/

theorem length_logBytes_concat (es : List (Frame × Batch)) (f : Frame) (b : Batch) :
    (logBytes ((es ++ [(f, b)]).map Prod.fst)).length =
      (logBytes (es.map Prod.fst)).length + f.encode.length := by
  rw [map_append, logBytes_append, length_append]
  simp [frameBytes_cons]

section

variable [Jiff]

/-- The frames of a log with the batch that each of them delivers, and the tables
that a scan of them gives. -/
inductive Journal (limits : Limits) : List (Frame × Batch) → Tables → Prop
  | nil : Journal limits [] {}
  | snoc {es : List (Frame × Batch)} {t t' : Tables} {f : Frame} {b : Batch} :
      Journal limits es t → f.Fits limits → b.offset = (logBytes (es.map Prod.fst)).length →
      b.length = f.encode.length → t.applyFrame limits [] b.offset f = .ok t' →
      t'.sortIndex.Carries (es.map Prod.snd ++ [b]) → Journal limits (es ++ [(f, b)]) t'

namespace Journal

variable {limits : Limits} {es : List (Frame × Batch)} {t : Tables}

theorem fits (h : Journal limits es t) : ∀ f ∈ es.map Prod.fst, f.Fits limits := by
  induction h with
  | nil => simp
  | snoc _ hfits _ _ _ _ ih =>
    intro f hf
    rw [map_append] at hf
    rcases Tables.mem_concat hf with hf | rfl
    · exact ih f hf
    · exact hfits

theorem replay (h : Journal limits es t) :
    replay limits [] databaseHeaderBytes {} (es.map Prod.fst) = .ok t := by
  induction h with
  | nil => rfl
  | snoc _ _ hoffset _ hstep _ ih =>
    rw [map_append]
    rw [hoffset, length_logBytes] at hstep
    exact replay_concat ih hstep

theorem carries (h : Journal limits es t) : t.sortIndex.Carries (es.map Prod.snd) := by
  cases h with
  | nil =>
    have hindex : (∅ : LiveIndex).sort = ∅ := by
      apply Std.ExtTreeMap.ext_getElem?
      simp [LiveIndex.sort]
    rw [Tables.sortIndex, hindex]
    exact Tables.Carries.empty
  | snoc _ _ _ _ _ hcarries => simpa using hcarries

theorem stop_le (h : Journal limits es t) :
    ∀ b ∈ es.map Prod.snd, b.stop ≤ (logBytes (es.map Prod.fst)).length := by
  induction h with
  | nil => simp
  | snoc _ _ hoffset hlength _ _ ih =>
    intro b' hb'
    rw [map_append] at hb'
    rw [length_logBytes_concat]
    rcases Tables.mem_concat hb' with hb' | rfl
    · exact Nat.le_add_right_of_le (ih b' hb')
    · rw [Batch.stop, hoffset, hlength]

/-- A cut of the log keeps the journal of the batches that end within it. -/
theorem cut (h : Journal limits es t) {m : Nat} (hm : databaseHeaderBytes ≤ m) :
    ∃ es' t' torn, Journal limits es' t' ∧ TornFrame limits torn ∧
      (logBytes (es.map Prod.fst)).take m = logBytes (es'.map Prod.fst) ++ torn ∧
      (es.map Prod.snd).filter
        (fun b => b.stop ≤ (logBytes (es'.map Prod.fst)).length) = es'.map Prod.snd ∧
      ∀ b ∈ es.map Prod.snd, b.stop ≤ m → b ∈ es'.map Prod.snd := by
  induction h with
  | nil =>
    refine ⟨[], {}, [], .nil, .inl rfl, ?_, rfl, by simp⟩
    rw [append_nil]
    exact take_of_length_le hm
  | @snoc es t t' f b hjournal hfits hoffset hlength hstep hcarries ih =>
    have htotal := length_logBytes_concat es f b
    have hstop : b.stop = (logBytes ((es ++ [(f, b)]).map Prod.fst)).length := by
      rw [htotal, Batch.stop, hoffset, hlength]
    have hbytes : logBytes ((es ++ [(f, b)]).map Prod.fst) =
        logBytes (es.map Prod.fst) ++ f.encode := by
      rw [map_append, logBytes_append]
      simp [frameBytes_cons]
    by_cases hall : (logBytes ((es ++ [(f, b)]).map Prod.fst)).length ≤ m
    · have hjournal' := Journal.snoc hjournal hfits hoffset hlength hstep hcarries
      refine ⟨es ++ [(f, b)], t', [], hjournal', .inl rfl, ?_, ?_, fun b' hb' _ => hb'⟩
      · rw [append_nil, take_of_length_le hall]
      · rw [filter_eq_self]
        intro b' hb'
        exact decide_eq_true (hjournal'.stop_le b' hb')
    have hlate : ∀ n, n ≤ m → ¬ b.stop ≤ n := by
      intro n hn
      omega
    by_cases hcut : (logBytes (es.map Prod.fst)).length ≤ m
    · -- the cut is inside the last frame
      refine ⟨es, t, f.encode.take (m - (logBytes (es.map Prod.fst)).length), hjournal,
        .inr ⟨f, _, hfits, by omega, rfl⟩, ?_, ?_, ?_⟩
      · rw [hbytes, take_append, take_of_length_le hcut]
      · rw [map_append, filter_append, filter_eq_self.mpr]
        · simp [hlate _ hcut]
        · intro b' hb'
          exact decide_eq_true (hjournal.stop_le b' hb')
      · intro b' hb' hle
        rw [map_append] at hb'
        rcases Tables.mem_concat hb' with hb' | rfl
        · exact hb'
        · exact absurd hle (hlate m (Nat.le_refl m))
    · -- the cut is before it
      obtain ⟨es', t'', torn, hjournal', htorn, htake, hfilter, hkept⟩ := ih
      have hshort : (logBytes (es'.map Prod.fst)).length ≤ m := by
        have := congrArg List.length htake
        rw [length_append, length_take] at this
        omega
      refine ⟨es', t'', torn, hjournal', htorn, ?_, ?_, ?_⟩
      · rw [hbytes, take_append_of_le_length (by omega), htake]
      · rw [map_append, filter_append, hfilter]
        simp [hlate _ hshort]
      · intro b' hb' hle
        rw [map_append] at hb'
        rcases Tables.mem_concat hb' with hb' | rfl
        · exact hkept b' hb' hle
        · exact absurd hle (hlate m (Nat.le_refl m))

end Journal

/-! ## A call and its batch -/

namespace Database

/-- The cursors behind a batch of the given identity. -/
def raiseCursor (last : Std.ExtTreeMap U128 UInt64) :
    Tables.FrameIdentity → Std.ExtTreeMap U128 UInt64
  | .ingress identity => last.insert identity.sourceId identity.sequence
  | _ => last

/-- What is known about a call that writes `frame`, with the tables and the
receipt it leads to. -/
structure Requested (db : Database) (c : Call) (frame : Frame) (tables : Tables) (commit : Commit)
    (durable : Bool) : Prop where
  poisoned : db.poisoned = false
  fresh : db.toTables.Fresh c.identity
  writes : db.Writes [] frame tables
  carries : ∀ bs, db.toTables.Carries bs →
    tables.Carries (bs ++ [c.batch db.file.length frame.encode.length])
  cursors : tables.ingressLastSequences = raiseCursor db.ingressLastSequences c.identity
  commit_durable : commit.durable = durable
  commit_new : commit.deduplicated = false

theorem requested_append {db : Database} {points : List Point} {frame : Frame}
    {catalog : Option Catalog} (h : db.decideAppend points = .write frame catalog)
    (durable : Bool) :
    db.Requested (.append points) frame (insertPoints db.toTables points)
      (db.writtenCommit frame points.length 1 durable) durable where
  poisoned := (decideAppend_eq_write h).2.1
  fresh := trivial
  writes := writes_append h []
  carries _ hbs := hbs.insertPoints ..
  cursors := rfl
  commit_durable := rfl
  commit_new := rfl

theorem requested_commit {db : Database} {t : Transaction} {frame : Frame}
    {catalog : Option Catalog} (h : db.decide t = .write frame catalog) (durable : Bool) :
    db.Requested (.commit t) frame
      (acceptTransaction db.toTables t frame.payload catalog db.file.length
        (db.writtenCommit frame t.pointCount t.recordCount durable))
      (db.writtenCommit frame t.pointCount t.recordCount durable) durable := by
  obtain ⟨-, hpoisoned, payload, hsmall, rfl, hadmits, -⟩ := decide_eq_write h
  refine ⟨hpoisoned, hadmits.fresh, writes_commit h [] durable, fun bs hbs => ?_, ?_, rfl, rfl⟩
  · exact hbs.acceptTransaction hadmits.fresh hadmits.applied _ _ _ rfl
  · rw [acceptTransaction, Call.identity]
    cases transactionIdentity t <;> rfl

/-- A call other than a flush, seen through its decision. -/
theorem call_acted (db : Database) (io : Io) {c : Call} (hc : c ≠ .flush) :
    ∃ receipt tables r, db.call io c = (r.1.map some, r.2) ∧
      Acted db (db.decideCall c) io receipt tables r ∧
      ∀ frame catalog durable, db.decideCall c = .write frame catalog →
        db.Requested c frame (tables frame catalog (receipt frame durable))
          (receipt frame durable) durable := by
  cases c with
  | append points =>
    exact ⟨_, _, _, rfl, db.append_acted points io, fun _ _ durable h =>
      requested_append h durable⟩
  | commit t =>
    exact ⟨_, _, _, rfl, db.commit_acted t io, fun _ _ durable h => requested_commit h durable⟩
  | commitIngress identity t =>
    refine ⟨_, _, _, rfl, db.commit_acted (t.withIngressIdentity identity) io,
      fun _ _ durable h => ?_⟩
    have hrequested := requested_commit (t := t.withIngressIdentity identity) h durable
    exact ⟨hrequested.poisoned, hrequested.fresh, hrequested.writes, hrequested.carries,
      hrequested.cursors, rfl, rfl⟩
  | flush => exact absurd rfl hc

/-- A call that is answered as a repetition names an identity with a receipt, and
is called durable if the whole log is synced or if the source's durable cursor
covers it. -/
theorem answer_known {db : Database} {c : Call} {commit : Commit}
    (h : db.decideCall c = .answer commit) (hdedup : commit.deduplicated = true) :
    db.poisoned = false ∧
      ((∃ commitId r, c.identity = .identified commitId ∧
          db.identifiedReceipts[commitId]? = some r ∧
          (commit.durable = true → db.bytesSinceSync = 0)) ∨
        ∃ identity r, c.identity = .ingress identity ∧
          db.ingressReceipts[identity.key]? = some r ∧
          r.identity.commitId = identity.commitId ∧
          (commit.durable = true → db.ingressDurableSequences[identity.sourceId]?.any
            (identity.sequence ≤ ·) = true)) := by
  have hcommit : ∀ t, db.decide t = .answer commit → db.poisoned = false ∧
      ((∃ commitId r, transactionIdentity t = .identified commitId ∧
          db.identifiedReceipts[commitId]? = some r ∧
          (commit.durable = true → db.bytesSinceSync = 0)) ∨
        ∃ identity r, transactionIdentity t = .ingress identity ∧
          db.ingressReceipts[identity.key]? = some r ∧
          r.identity.commitId = identity.commitId ∧
          (commit.durable = true → db.ingressDurableSequences[identity.sourceId]?.any
            (identity.sequence ≤ ·) = true)) := by
    intro t ht
    obtain ⟨-, hpoisoned, hanswered⟩ := decide_eq_answer ht
    refine ⟨hpoisoned, ?_⟩
    cases hanswered with
    | empty => cases hdedup
    | identified hid hr _ _ => exact .inl ⟨_, _, hid, hr, of_decide_eq_true⟩
    | ingress hid hr hsame _ _ => exact .inr ⟨_, _, hid, hr, hsame, id⟩
  cases c with
  | append points =>
    rw [(decideAppend_eq_answer h).2] at hdedup
    cases hdedup
  | commit t => exact hcommit t h
  | commitIngress identity t => exact hcommit (t.withIngressIdentity identity) h
  | flush => cases h

end Database

end

end Ftwdb
