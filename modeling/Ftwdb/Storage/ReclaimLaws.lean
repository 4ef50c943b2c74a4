import Ftwdb.Storage.CompactLog

/-!
# Reclaiming keeps the logical state

A reclaim that succeeds leaves a handle over the compact log of the old one.
Both the running handle and any handle that is opened over the new log later
have the logical state the old handle had, so they decide on every transaction as
it would have done, up to what `Decision.Agree` leaves open.  The new log holds
no checkpoint, so the published seals play no part in reading it, and a writable
open with the same configuration always succeeds.
-/

namespace Ftwdb

open ByteCodec Check KeyedMap List Tables

/-! ## Frames without checkpoints -/

section Published

variable [Jiff] {limits : Limits} {f : Frame} {fs : List Frame}

theorem applyFrame_published (hkind : f.kind ≠ .sealCheckpoint) (published : List UInt64)
    (offset : Nat) (t : Tables) :
    t.applyFrame limits published offset f = t.applyFrame limits [] offset f := by
  rw [applyFrame, applyFrame, applyPayload, applyPayload]
  cases hk : f.kind with
  | sealCheckpoint => exact absurd hk hkind
  | _ => rfl

theorem replay_published (hkinds : ∀ f ∈ fs, f.kind ≠ .sealCheckpoint) (published : List UInt64)
    (offset : Nat) (t : Tables) :
    replay limits published offset t fs = replay limits [] offset t fs := by
  induction fs generalizing offset t with
  | nil => rfl
  | cons f fs ih =>
    rw [replay, replay, applyFrame_published (hkinds f mem_cons_self)]
    cases t.applyFrame limits [] offset f with
    | error e => rfl
    | ok t' => exact ih (fun g hg => hkinds g (mem_cons_of_mem f hg)) _ t'

end Published

namespace Database

theorem kind_of_standalone {empty : Prop} [Decidable empty] {records : List Record} {maximum : Nat}
    {fs : List Frame} (h : unlessEmpty empty
      ((writeStandaloneTransaction records maximum).map fun f => [f]) = .ok fs) :
    ∀ f ∈ fs, f.kind ≠ .sealCheckpoint := by
  intro f hf
  rcases unlessEmpty_eq_ok.mp h with ⟨-, rfl⟩ | ⟨-, h⟩
  · cases hf
  · obtain ⟨g, hg, rfl⟩ := map_eq_ok.mp h
    obtain rfl := mem_singleton.mp hf
    obtain ⟨payload, hsmall, -, -, rfl⟩ := writeStandaloneTransaction_eq_ok.mp hg
    intro hkind
    cases hkind

theorem kind_of_indexFrames {limit : Nat} {fs : List Frame} {chunks : List CompactIdentityIndex}
    (h : List.Forall₂ (IndexFrame limit) fs chunks) : ∀ f ∈ fs, f.kind = .identityIndex := by
  intro f hf
  obtain ⟨chunk, -, hframe⟩ := exists_indexFrame h hf
  exact hframe.kind

theorem kind_of_compactLog {c : Catalog} {index : CompactIdentityIndex} {tail : List Point}
    {limits : Limits} {frames : List Frame}
    (h : writeCompactLog c index tail limits = .ok frames) :
    ∀ f ∈ frames, f.kind ≠ .sealCheckpoint := by
  simp only [writeCompactLog, bind_eq_ok] at h
  obtain ⟨records, -, catalogFrames, hcatalog, indexFrames, hindex, _, -, tailFrames, htail, h⟩ := h
  cases h
  intro f hf
  rcases mem_append.mp hf with hf | hf
  · rcases mem_append.mp hf with hf | hf
    · exact kind_of_standalone hcatalog f hf
    · rcases unlessEmpty_eq_ok.mp hindex with ⟨-, rfl⟩ | ⟨-, hindex⟩
      · cases hf
      · obtain ⟨chunks, hchunks, -⟩ := writeIdentityIndexFrames_eq_ok hindex
        rw [kind_of_indexFrames hchunks f hf]
        decide
  · exact kind_of_standalone htail f hf

/-! ## The new log -/

section Compact

variable [Jiff] {db : Database} {order : List UInt64} {file : File} {scan : Scan}

/-- The log that a reclaim leaves, and its scan. -/
structure Compacted (db : Database) (order : List UInt64) (frames : List Frame) (t : Tables) :
    Prop where
  written : writeCompactLog db.catalog db.identityIndex (livePointsSnapshot db.index order)
    db.config.limits = .ok frames
  fits : ∀ f ∈ frames, f.Fits db.config.limits
  replay : replay db.config.limits [] databaseHeaderBytes {} frames = .ok t

theorem compactLog_eq_ok (hsound : db.Sound) (h : db.compactLog order = .ok (file, scan)) :
    ∃ frames t, db.Compacted order frames t ∧ file.bytes = logBytes frames ∧
      scan.toTables = t.sortIndex := by
  simp only [compactLog, compactIdentityIndex_eq hsound.toBacked, bind_eq_ok, Except.ok.injEq,
    exists_eq_left'] at h
  obtain ⟨frames, hwritten, h⟩ := h
  split at h
  · cases h
  next file₀ hextend =>
  have hbytes : file₀.sync.bytes = logBytes frames := by
    have := (File.extend_eq_some hextend).1
    rwa [File.empty, nil_append] at this
  rw [scanAndRecover] at h
  cases hscan : scanLog db.config.limits (.recover false) [] file₀.sync.bytes with
  | error e => simp only [hscan, reduceCtorEq] at h
  | ok scan' =>
    have hlog := hscan
    rw [hbytes] at hlog
    obtain ⟨hfits, t, hreplay, htables, htail⟩ := scanLog_logBytes hlog
    simp only [hscan, if_pos htail, Except.ok.injEq, Prod.mk.injEq] at h
    obtain ⟨rfl, rfl⟩ := h
    exact ⟨frames, t, ⟨hwritten, hfits, hreplay⟩, hbytes, htables⟩

/-- The handle can be reclaimed: its catalog, each receipt and its live points fit
the frames of a compact log, which fits a file and is taken by a scan. -/
def Reclaimable (db : Database) (order : List UInt64) : Prop :=
  ∃ frames t, db.Compacted order frames t ∧ (logBytes frames).length < 2 ^ 63

theorem compactLog_isOk_iff (hsound : db.Sound) :
    (∃ file scan, db.compactLog order = .ok (file, scan)) ↔ db.Reclaimable order := by
  constructor
  · rintro ⟨file, scan, h⟩
    obtain ⟨frames, t, hcompacted, hbytes, -⟩ := compactLog_eq_ok hsound h
    exact ⟨frames, t, hcompacted, hbytes ▸ file.small⟩
  · rintro ⟨frames, t, h, hlength⟩
    have hscan := scanLog_recover false h.fits h.replay (.inl rfl)
    rw [append_nil] at hscan
    obtain ⟨file, hextend⟩ : ∃ file, File.empty.extend (logBytes frames) = some file :=
      ⟨_, dif_pos hlength⟩
    have hbytes : file.sync.bytes = logBytes frames := (File.extend_eq_some hextend).1
    have hrecover : ∃ scan, scanAndRecover file.sync db.config.limits [] false =
        (.ok scan, file.sync) := by
      rw [scanAndRecover, hbytes, hscan]
      exact ⟨_, rfl⟩
    obtain ⟨scan, hrecover⟩ := hrecover
    refine ⟨file.sync.sync, scan, ?_⟩
    simp only [compactLog, compactIdentityIndex_eq hsound.toBacked, h.written, bind, Except.bind,
      hextend, hrecover]

/-- Without a failure of the system a reclaim succeeds exactly if there is such a
log. -/
theorem reclaimLiveLog_isOk_iff (hsound : db.Sound) (hreadOnly : db.readOnly = false)
    (hpoisoned : db.poisoned = false) :
    (∃ db', db.reclaimLiveLog order {} = (.ok (), db')) ↔ db.Reclaimable order := by
  let db₁ : Database := { db with
    file := db.file.sync
    bytesSinceSync := 0
    ingressDurableSequences := db.ingressLastSequences }
  have hflush : db.flush {} = (.ok (), db₁) := by
    simp [flush, hreadOnly, hpoisoned, db₁]
  have hcompact : (∃ db', db.reclaimLiveLog order {} = (.ok (), db')) ↔
      ∃ file scan, db₁.compactLog order = .ok (file, scan) := by
    simp only [reclaimLiveLog, hreadOnly, hpoisoned, hflush, Bool.false_eq_true, if_false]
    cases db₁.compactLog order with
    | error e => simp
    | ok written => simp [Prod.exists.symm]
  have hsound₁ : db₁.Sound := hsound
  rw [hcompact, compactLog_isOk_iff hsound₁]
  -- a flush changes nothing that the compact log is made of
  constructor
  all_goals
    rintro ⟨frames, t, h, hlength⟩
    exact ⟨frames, t, ⟨h.written, h.fits, h.replay⟩, hlength⟩

/-- What a successful reclaim has done. -/
theorem reclaimLiveLog_eq_ok {db' : Database} {io : ReclaimIo}
    (h : db.reclaimLiveLog order io = (.ok (), db')) :
    db.readOnly = false ∧ db.poisoned = false ∧ ∃ (db₁ : Database) (file : File) (scan : Scan),
      db₁.toTables = db.toTables ∧ db₁.file.bytes = db.file.bytes ∧ db₁.config = db.config ∧
      db₁.readOnly = false ∧ db₁.poisoned = false ∧
      db₁.compactLog order = .ok (file, scan) ∧ db' = db₁.adopt file scan := by
  rw [reclaimLiveLog] at h
  split at h
  · cases h
  split at h
  · cases h
  rcases flush_cases db io.flush with ⟨e, poison, hflush, -⟩ | ⟨hreadOnly, hpoisoned, hflush⟩
  · rw [hflush] at h
    cases h
  rw [hflush] at h
  simp only at h
  split at h
  · cases h
  next file scan hcompact =>
  split at h
  · cases h
  split at h
  · cases h
  · exact ⟨hreadOnly, hpoisoned,
      { db with
        file := db.file.sync
        bytesSinceSync := 0
        ingressDurableSequences := db.ingressLastSequences }, file, scan, rfl, rfl, rfl, hreadOnly,
      hpoisoned, hcompact, (Prod.mk.inj h).2.symm⟩

/-- The logical state of the new log, for the running handle and for any scan. -/
theorem Compacted.logical (hsound : db.Sound) {frames : List Frame} {t : Tables}
    (h : db.Compacted order frames t) (hlength : (logBytes frames).length < 2 ^ 63)
    {limits : Limits} {published : List UInt64} {t' : Tables}
    (hreplay : Ftwdb.replay limits published databaseHeaderBytes {} frames = .ok t') :
    t'.sortIndex.logical (logBytes frames) = db.logical :=
  logical_of_compacts hsound (replay_compactLog hsound.catalog h.written hreplay)
    (Tables.Sound.replay hlength hreplay).toBacked

/-- The handle goes on with its logical state. -/
theorem logical_adopt (hsound : db.Sound) (h : db.compactLog order = .ok (file, scan)) :
    (db.adopt file scan).logical = db.logical := by
  obtain ⟨frames, t, hcompacted, hlog, hscan⟩ := compactLog_eq_ok hsound h
  have hflags := scan.toTables.markReceiptsDurable.logical_forgetDurable file.bytes
  rw [forgetDurable_markReceiptsDurable, Tables.logical_forgetDurable, hscan] at hflags
  rw [← hcompacted.logical hsound (hlog ▸ file.small) hcompacted.replay, ← hlog, hflags, ← hscan]
  rfl

/-- An open of complete frames, if it succeeds. -/
theorem openMode_logBytes {config : Config} {readOnly : Bool} {published : List UInt64}
    {io : OpenIo} {file' : File} {frames : List Frame} (hbytes : file.bytes = logBytes frames)
    (h : openMode config readOnly published file io = (.ok db, file')) :
    ∃ t, db.Opened config published frames t [] ∧ db.file.bytes = logBytes frames := by
  have hnil : file.bytes = logBytes frames ++ [] := by rw [hbytes, append_nil]
  obtain ⟨scan, hscan, -⟩ := scanLog_of_openMode (hnil ▸ logBytes_append_ne_nil frames []) h
  rw [hbytes] at hscan
  obtain ⟨hfits, t, hreplay, -⟩ := scanLog_logBytes hscan
  rw [openMode] at h
  split at h
  · cases h
  split at h
  · obtain ⟨db', hopen, hopened, hfile⟩ := openShared_logged hnil hfits hreplay (.inl rfl)
    obtain rfl := Except.ok.inj ((Prod.mk.inj h).1.symm.trans hopen)
    exact ⟨t, hopened, hfile ▸ hbytes⟩
  · rcases openExclusive_logged hnil hfits hreplay (.inl rfl) io with
      ⟨db', hopen, hopened, -, hlog, -⟩ | ⟨_, hopen, -⟩
    · obtain ⟨hsame, -⟩ := Prod.mk.inj (hopen.symm.trans h)
      cases hsame
      exact ⟨t, hopened, hlog⟩
    · cases (Prod.mk.inj (hopen.symm.trans h)).1

end Compact

/-! ## Handles that cannot be told apart -/

section Same

variable {db db' : Database}

/-- The two handles hold the same. -/
structure HoldsSame (db db' : Database) : Prop where
  catalog : db'.catalog = db.catalog
  series : ∀ s, db'.index.seriesPoints s = db.index.seriesPoints s
  commitIds : db'.commitIds = db.commitIds
  cursors : db'.ingressLastSequences = db.ingressLastSequences

theorem HoldsSame.of_logical (h : db'.logical = db.logical) : HoldsSame db db' where
  catalog := (congrArg Logical.catalog h :)
  series s := congrFun (congrArg Logical.series h :) s
  commitIds := (congrArg Logical.commitIds h :)
  cursors := (congrArg Logical.cursors h :)

variable [Jiff]

/-- They also agree on every transaction. -/
structure Indistinguishable (db db' : Database) : Prop extends HoldsSame db db' where
  decisions : ∀ t, Decision.Agree db db' t (db.decide t) (db'.decide t)

/-- Healthy handles with one logical state and one configuration. -/
theorem Indistinguishable.of_logical (hsound : db.Sound) (hsound' : db'.Sound)
    (hlogical : db'.logical = db.logical) (hconfig : db'.config = db.config)
    (hwritable : db.readOnly = false ∧ db.poisoned = false)
    (hwritable' : db'.readOnly = false ∧ db'.poisoned = false) : Indistinguishable db db' where
  toHoldsSame := .of_logical hlogical
  decisions := decide_agree hsound hsound' hlogical hconfig hwritable hwritable'

/-- The transaction names a receipt that came from an identity record without
bytes. -/
def NamesBareReceipt (db : Database) (t : Transaction) : Prop :=
  match t.ingressIdentity, t.commitId with
  | some identity, _ => ∃ r, db.ingressReceipts[identity.key]? = some r ∧
      r.canonicalPayloadOffset = 0 ∧ r.compactPayload = none
  | none, some commitId => ∃ r, db.identifiedReceipts[commitId]? = some r ∧
      r.payloadOffset = 0 ∧ r.compactPayload = none
  | none, none => False

/-- Such a transaction is refused, whatever it holds. -/
theorem Sound.refuses_bare (hsound : db.Sound)
    (hwritable : db.readOnly = false ∧ db.poisoned = false) {t : Transaction}
    (h : db.NamesBareReceipt t) : ∃ e poison, db.decide t = .refuse e poison := by
  rw [NamesBareReceipt] at h
  rw [decide, hwritable.1, hwritable.2]
  simp only [Bool.false_eq_true, if_false]
  cases hidentity : t.ingressIdentity with
  | some identity =>
    simp only [hidentity] at h ⊢
    obtain ⟨r, hr, hoffset, hkept⟩ := h
    rw [decideIngress]
    split
    · exact ⟨_, _, rfl⟩
    cases encodeCanonicalTransaction t with
    | error e => exact ⟨_, _, rfl⟩
    | ok canonical =>
      have hbare : r.canonical db.file.bytes = none := by
        rw [StoredIngressReceipt.canonical, if_pos hoffset, hkept]
      simp only [hr, decideIngressReplay_eq hsound hr, hbare, reduceCtorEq, and_false, if_false]
      exact ⟨_, _, rfl⟩
  | none =>
    cases hcommit : t.commitId with
    | none => simp only [hidentity, hcommit] at h
    | some commitId =>
      simp only [hidentity, hcommit] at h ⊢
      obtain ⟨r, hr, hoffset, hkept⟩ := h
      split
      · exact ⟨_, _, rfl⟩
      rw [if_pos (hsound.identified commitId r hr).1]
      cases hpayload : encodeTransaction t with
      | error e =>
        simp only [decideReplay, hpayload]
        exact ⟨_, _, rfl⟩
      | ok payload =>
        have hbare : r.payload db.file.bytes ≠ some payload := by
          rw [StoredIdentifiedReceipt.payload, if_pos hoffset, hkept]
          simp
        exact (decideReplay_conflicts hsound hpayload hr hbare).refuses

end Same

/-! ## Reclaims -/

section Reclaims

variable [Jiff] {db db' : Database}

/-- A reclaim of `db` returned `Ok` and left `db'`. -/
def Reclaims (db db' : Database) : Prop :=
  ∃ order io, db.reclaimLiveLog order io = (.ok (), db')

/-- What is known behind one reclaim. -/
structure Reclaimed (db db' : Database) : Prop where
  sound : db'.Sound
  logical : db'.logical = db.logical
  config : db'.config = db.config
  writable : db.readOnly = false ∧ db.poisoned = false
  writable' : db'.readOnly = false ∧ db'.poisoned = false
  frames : ∃ frames t, db'.file.bytes = logBytes frames ∧
    (∀ f ∈ frames, f.Fits db.config.limits) ∧
    (∀ published, replay db.config.limits published databaseHeaderBytes {} frames = .ok t) ∧
    ∀ limits published t', replay limits published databaseHeaderBytes {} frames = .ok t' →
      t'.sortIndex.logical (logBytes frames) = db.logical

theorem Reclaims.reclaimed (hsound : db.Sound) (h : Reclaims db db') : Reclaimed db db' := by
  obtain ⟨order, io, h⟩ := h
  have hsound' : db'.Sound := by
    have := hsound.reclaimLiveLog order io
    rwa [h] at this
  obtain ⟨hreadOnly, hpoisoned, db₁, file, scan, htables, hbytes, hconfig, hreadOnly₁, hpoisoned₁,
    hcompact, rfl⟩ := reclaimLiveLog_eq_ok h
  have hsound₁ : db₁.Sound := by
    rw [Database.Sound, htables, hbytes]
    exact hsound
  have hlogical₁ : db₁.logical = db.logical := by
    rw [Database.logical, htables, hbytes]
    rfl
  obtain ⟨frames, t, hcompacted, hlog, -⟩ := compactLog_eq_ok hsound₁ hcompact
  have hlength : (logBytes frames).length < 2 ^ 63 := hlog ▸ file.small
  refine ⟨hsound', (logical_adopt hsound₁ hcompact).trans hlogical₁, hconfig,
    ⟨hreadOnly, hpoisoned⟩, ⟨hreadOnly₁, hpoisoned₁⟩, frames, t, hlog, hconfig ▸ hcompacted.fits,
    ?_, ?_⟩
  · intro published
    rw [replay_published (kind_of_compactLog hcompacted.written), ← hconfig]
    exact hcompacted.replay
  · intro limits published t' hreplay
    rw [← hlogical₁]
    exact hcompacted.logical hsound₁ hlength hreplay

theorem Reclaimed.trans {db₁ : Database} (h : Reclaimed db db₁) (h' : Reclaimed db₁ db') :
    Reclaimed db db' where
  sound := h'.sound
  logical := h'.logical.trans h.logical
  config := h'.config.trans h.config
  writable := h.writable
  writable' := h'.writable'
  frames := by
    rw [← h.config, ← h.logical]
    exact h'.frames

/-- Any number of reclaims is as good as one. -/
theorem reclaimed_of_transGen (hsound : db.Sound) (h : Relation.TransGen Reclaims db db') :
    Reclaimed db db' := by
  induction h with
  | single h => exact h.reclaimed hsound
  | tail _ h ih => exact ih.trans (h.reclaimed ih.sound)

/-- A handle over the new log has the old logical state. -/
theorem Reclaimed.logical_opened (h : Reclaimed db db') {config : Config} {readOnly : Bool}
    {published : List UInt64} {io : OpenIo} {opened : Database} {file : File}
    (hopen : openMode config readOnly published db'.file io = (.ok opened, file)) :
    opened.logical = db.logical := by
  obtain ⟨frames, -, hbytes, -, -, hlogical⟩ := h.frames
  obtain ⟨t, hopened, hlog⟩ := openMode_logBytes hbytes hopen
  have hconfig := hopened.config
  rw [Database.logical, hlog, hopened.tables.logical_eq]
  exact hlogical _ published t hopened.replay

theorem Reclaimed.opens (h : Reclaimed db db') (hvalid : db.config.validate = .ok ())
    (published : List UInt64) :
    ∃ opened, openMode db.config false published db'.file {} = (.ok opened, opened.file) := by
  obtain ⟨frames, t, hbytes, hfits, hreplay, -⟩ := h.frames
  have hnil : db'.file.bytes = logBytes frames ++ [] := by rw [hbytes, append_nil]
  rw [openMode, hvalid]
  rcases openExclusive_logged hnil hfits (hreplay published) (.inl rfl) {} with
    ⟨opened, hopen, -⟩ | ⟨_, -, hio, -⟩
  · exact ⟨opened, hopen⟩
  · exact absurd rfl hio

/-- What reclaims keep: the running handle and every handle opened over the new
log hold what the old handle held and agree with it on every transaction. -/
structure Keeps (db db' : Database) : Prop where
  running : Indistinguishable db db'
  opens : ∀ published, ∃ opened,
    openMode db.config false published db'.file {} = (.ok opened, opened.file)
  opened : ∀ published io opened file,
    openMode db.config false published db'.file io = (.ok opened, file) →
      Indistinguishable db opened
  viewed : ∀ config readOnly published io opened file,
    openMode config readOnly published db'.file io = (.ok opened, file) → HoldsSame db opened
  closed : ∀ t, db.NamesBareReceipt t →
    (∃ e poison, db.decide t = .refuse e poison) ∧ ∃ e poison, db'.decide t = .refuse e poison

end Reclaims

end Database

/-- A plain transaction of one entity. -/
def plainSite : Transaction where
  commitId := some 7
  records := [.entity
    { id := 1, kind := "site", name := "home", parent := none, validFrom := 0, validTo := none,
      properties := ∅ }]

/-- The same entity in an ordered transaction. -/
def siteBatch : Transaction where
  ingressIdentity := some ⟨1, 5, 105⟩
  records := plainSite.records

/-- A database behind one plain and one ordered transaction. -/
def Database.twoReceipts [Jiff] (db : Database) : Database :=
  ((db.commit plainSite {}).2.commit siteBatch {}).2

theorem Database.Reachable.twoReceipts [Jiff] {config : Config} {file : File} {io : OpenIo}
    {db : Database} (h : (openMode config false [] file io).1 = .ok db) :
    Reachable db.twoReceipts := .commit _ _ (.commit _ _ (.opened (Prod.ext h rfl)))

end Ftwdb
