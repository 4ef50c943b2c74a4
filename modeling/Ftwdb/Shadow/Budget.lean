import Ftwdb.Shadow.Progress
import Ftwdb.Storage.FailStop

/-!
# The byte budget of a bounded shadow store

With storage limits the runtime starts only over a store without active rollups
and without background maintenance.  Then a commit changes no file but the log,
and the log grows by the frame whose length was checked against the limit, or
not at all: a known key is answered or refused from its receipt.  So the files
of the store stay within the limit, or within what they held at the start.  A
receipt of the first identity index, which kept no bytes, refuses the exact retry
too (`firstFormat_refuses_retry`).
-/

namespace Ftwdb

open Check ByteCodec

namespace Database

variable [Jiff] {db : Database} {t : Transaction} {identity : IngressIdentity}

/-- A frame is written for a new key only, and has the length that was computed
beforehand. -/
theorem decide_eq_write_ingress (hidentity : t.ingressIdentity = some identity) {frame : Frame}
    {catalog : Option Catalog} (hwrite : db.decide t = .write frame catalog) :
    identity.key ∉ db.ingressReceipts ∧ Shadow.ingressFrameBytes t = .ok frame.encode.length := by
  have hid : transactionIdentity t = .ingress identity := by rw [transactionIdentity, hidentity]
  obtain ⟨-, -, payload, hsmall, rfl, hadmits, -⟩ := decide_eq_write hwrite
  obtain ⟨canonical, hcanonical, rfl⟩ := hadmits.encoded
  have hfresh := hadmits.fresh
  rw [hid] at hfresh
  refine ⟨hfresh.2.1, ?_⟩
  have hlength : (transactionIdentity t).encode.length = ingressIdentityBytes := by
    rw [hid]
    exact Tables.FrameIdentity.length_encode (.ingress identity)
  rw [Shadow.ingressFrameBytes, hcanonical, Frame.length_encode, transactionFrame.eq_def,
    List.length_append, hlength, ← Nat.add_assoc]
  rfl

theorem length_commit_le (hidentity : t.ingressIdentity = some identity) (io : Io) {n : Nat}
    (hframe : Shadow.ingressFrameBytes t = .ok n) :
    (db.commit t io).2.file.length ≤ db.file.length + n := by
  have hacted := commit_acted db t io
  generalize db.commit t io = outcome at hacted
  cases hacted with
  | answered _ => exact Nat.le_add_right _ _
  | refused _ => exact Nat.le_add_right _ _
  | @broke frame catalog db' hwrite hbroke =>
    obtain ⟨-, hlength⟩ := decide_eq_write_ingress hidentity hwrite
    obtain rfl := Except.ok.inj (hframe.symm.trans hlength)
    obtain ⟨k, hbytes⟩ := hbroke.bytes
    change db'.file.bytes.length ≤ db.file.bytes.length + _
    rw [hbytes, List.length_append, List.length_take]
    omega
  | @accepted frame catalog durable db' hwrite haccepted _ =>
    obtain ⟨-, hlength⟩ := decide_eq_write_ingress hidentity hwrite
    obtain rfl := Except.ok.inj (hframe.symm.trans hlength)
    change db'.file.bytes.length ≤ db.file.bytes.length + _
    rw [haccepted.bytes, List.length_append]

/-- A new key that is committed takes exactly the bytes of its frame. -/
theorem length_commit_eq (hidentity : t.ingressIdentity = some identity) {io : Io} {n : Nat}
    (hframe : Shadow.ingressFrameBytes t = .ok n) (hkey : db.ingressReceipts[identity.key]? = none)
    {commit : Commit} (hcommit : (db.commit t io).1 = .ok commit) :
    (db.commit t io).2.file.length = db.file.length + n ∧ commit.bytesWritten = n ∧
      commit.deduplicated = false := by
  have hacted := commit_acted db t io
  generalize db.commit t io = outcome at hacted hcommit
  cases hacted with
  | answered hanswer =>
    obtain ⟨-, -, hanswered⟩ := decide_eq_answer hanswer
    have hid : transactionIdentity t = .ingress identity := by rw [transactionIdentity, hidentity]
    cases hanswered with
    | empty _ hnone => cases hidentity.symm.trans hnone
    | identified hid' => cases hid.symm.trans hid'
    | ingress hid' hreceipt =>
      obtain rfl := Tables.FrameIdentity.ingress.inj (hid.symm.trans hid')
      cases hkey.symm.trans hreceipt
  | refused _ => cases hcommit
  | broke _ _ => cases hcommit
  | @accepted frame catalog durable db' hwrite haccepted _ =>
    obtain ⟨-, hlength⟩ := decide_eq_write_ingress hidentity hwrite
    obtain rfl := Except.ok.inj (hframe.symm.trans hlength)
    cases hcommit
    refine ⟨?_, rfl, rfl⟩
    change db'.file.bytes.length = db.file.bytes.length + _
    rw [haccepted.bytes, List.length_append]

/-- A known key writes nothing. -/
theorem file_commit_of_known (hidentity : t.ingressIdentity = some identity) (io : Io)
    (hkey : identity.key ∈ db.ingressReceipts) : (db.commit t io).2.file = db.file := by
  have hacted := commit_acted db t io
  generalize db.commit t io = outcome at hacted
  cases hacted with
  | answered _ => rfl
  | refused _ => rfl
  | broke hwrite _ => exact absurd hkey (decide_eq_write_ingress hidentity hwrite).1
  | accepted hwrite _ _ => exact absurd hkey (decide_eq_write_ingress hidentity hwrite).1

end Database

namespace Store

variable {s : Store}

/-- Nothing has poisoned the handles, and they can write. -/
structure Healthy (s : Store) : Prop where
  readOnly : s.readOnly = false
  poisoned : s.poisoned = false
  databaseReadOnly : s.database.readOnly = false
  databasePoisoned : s.database.poisoned = false

theorem Healthy.ensureWritable (h : s.Healthy) : s.ensureWritable = .ok () := by
  rw [Store.ensureWritable, ensureHealthy, h.readOnly, h.poisoned]
  rfl

theorem healthy_flush (h : s.Healthy) {io : Io}
    (hresult : ∀ e, (s.flush io).1 = .error e → Shadow.writerErrorRequiresPoison e = false) :
    (s.flush io).2.Healthy := by
  rw [Store.flush, h.ensureWritable] at hresult ⊢
  rw [Database.flush, h.databaseReadOnly, h.databasePoisoned] at hresult ⊢
  simp only [Bool.false_eq_true, if_false] at hresult ⊢
  split at hresult
  · cases hresult .io rfl
  · next hsync =>
    rw [if_neg hsync]
    exact ⟨h.readOnly, h.poisoned, rfl, rfl⟩

/-- A flush leaves all contents of the files alone. -/
theorem flush_keeps [FileSizes] (s : Store) (io : Io) :
    (s.flush io).2.directory = s.directory ∧ (s.flush io).2.manifest = s.manifest ∧
      (s.flush io).2.readOnly = s.readOnly ∧ (s.flush io).2.diskBytes = s.diskBytes := by
  rw [Store.flush]
  split
  · exact ⟨rfl, rfl, rfl, rfl⟩
  · rcases Database.flush_cases s.database io with ⟨e, poison, hflush, -⟩ | ⟨-, -, hflush⟩
    · rw [hflush]
      exact ⟨rfl, rfl, rfl, rfl⟩
    · rw [hflush]
      exact ⟨rfl, rfl, rfl, rfl⟩

variable [Jiff]

/-- Without active rollups a commit of the store is one of its database. -/
theorem commit_of_inactive (hinactive : s.manifest.hasActiveRollups = false)
    (hwritable : s.ensureWritable = .ok ()) (t : Transaction) (io : CommitIo) :
    s.commit t io = ((s.database.commit t io.frame).1,
      { s with database := (s.database.commit t io.frame).2 }) := by
  rw [commit, hwritable]
  simp only [hinactive, Bool.false_eq_true, if_false]
  split
  · next heq => rw [heq]
  · next heq =>
    rw [heq]
    split
    · rfl
    · rw [afterFrame, if_neg (fun h => h.1 rfl)]

theorem commit_of_not_writable {e : Error} (h : s.ensureWritable = .error e) (t : Transaction)
    (io : CommitIo) : s.commit t io = (.error e, s) := by
  rw [commit, h]

/-- An error that does not poison the worker leaves a healthy store as it was. -/
theorem healthy_commitIngress (h : s.Healthy) (hinactive : s.manifest.hasActiveRollups = false)
    {identity : IngressIdentity} {t : Transaction} {io : CommitIo}
    (hresult : ∀ e, (s.commitIngress identity t io).1 = .error e →
      Shadow.writerErrorRequiresPoison e = false) :
    (s.commitIngress identity t io).2.Healthy := by
  rw [commitIngress, commit_of_inactive hinactive h.ensureWritable] at hresult ⊢
  cases hcommit : (s.database.commit (t.withIngressIdentity identity) io.frame).1 with
  | error e =>
    have hfatal : e.isFatal = false := by
      have hpoison := hresult e hcommit
      cases e <;> first | rfl | cases hpoison
    have hsame : (s.database.call io.frame (.commitIngress identity t)).2 = s.database :=
      Database.call_error_same (congrArg (Except.map some) hcommit) hfatal
    change (s.database.commit (t.withIngressIdentity identity) io.frame).2 = s.database at hsame
    rw [hsame]
    exact h
  | ok commit =>
    have hacted := Database.commit_acted s.database (t.withIngressIdentity identity) io.frame
    generalize s.database.commit (t.withIngressIdentity identity) io.frame = outcome
      at hacted hcommit
    cases hacted with
    | answered _ => exact h
    | refused _ => cases hcommit
    | broke _ _ => cases hcommit
    | accepted _ haccepted _ =>
      exact ⟨h.readOnly, h.poisoned, haccepted.readOnly.trans h.databaseReadOnly,
        haccepted.poisoned.trans h.databasePoisoned⟩

end Store

namespace Shadow

section Budget

variable [FileSizes]

/-! ## Poison of the worker -/

/-- The poison that a call brings over the worker. -/
def Called.poison {α : Type} : Called α → Option WorkerPoison
  | .returned (.ok _) => none
  | .returned (.error e) => if writerErrorRequiresPoison e then some (.error e) else none
  | .panicked cause => some (.panic cause)

/-- The poison of the worker, that of a call to be settled included. -/
def Worker.poison : Worker → Option WorkerPoison
  | .settlingWrite _ _ _ called => called.poison
  | .settlingFlush _ _ _ _ called => called.poison
  | worker => worker.writer.bind Writer.poison

theorem poison_settleWrite (h : HealthState) (b : Backend) (identity : IngressIdentity)
    (called : Called Commit) (io : SnapshotIo) :
    (settleWrite h b identity called io).2.2 = called.poison := by
  rw [settleWrite.eq_def]
  split
  · rfl
  · rw [Called.poison]
    split <;> rfl
  · rfl

theorem poison_settleFlush (h : HealthState) (b : Backend) (sourceId : U128)
    (throughSequence : UInt64) (called : Called Unit) (io : SnapshotIo) :
    (settleFlush h b sourceId throughSequence called io).2.2 = called.poison := by
  rw [settleFlush.eq_def]
  split
  · rfl
  · rw [Called.poison]
    split <;> rfl
  · rfl

variable {limits : ShadowStorageLimits} {store : Store}

/-! ## The writer of a bounded store -/

/-- What the check promises: the frame fits under the limit. -/
theorem StoreWriter.check_eq_ok {s : Store} {t : Transaction} {io : WriteIo}
    (h : limits.check s t io = .ok ()) :
    ∃ n, ingressFrameBytes t = .ok n ∧ s.diskBytes + n ≤ limits.maxStoreBytes.toNat := by
  simp only [ShadowStorageLimits.check, bind_eq_ok, failIf_eq_ok] at h
  obtain ⟨n, hframe, stored, hstored, -, hfits, -⟩ := h
  refine ⟨n, hframe, ?_⟩
  have hdisk : stored.toNat = s.diskBytes := by
    rw [Store.storedBytes] at hstored
    split at hstored
    · cases hstored
    split at hstored
    · next hsmall =>
      cases hstored
      exact UInt64.toNat_ofNat_of_lt' hsmall
    · cases hstored
  omega

variable [Jiff]

/-- The writer behind a start over `store`: only the log has changed, and the
files are within the budget. -/
structure StoreWriter.Bounded (l : ShadowStorageLimits) (store : Store) (w : StoreWriter) :
    Prop where
  limits : w.limits = some l
  directory : w.store.directory = store.directory
  manifest : w.store.manifest = store.manifest
  within : w.store.diskBytes ≤ max store.diskBytes l.maxStoreBytes.toNat
  reachable : w.store.database.Reachable

namespace StoreWriter

variable {w : StoreWriter} {identity : IngressIdentity} {t : Transaction} {io : WriteIo}

theorem commitIngress_refused (hlimits : w.limits = some limits)
    (hkey : w.store.database.ingressReceipts[identity.key]? = none) {e : Error}
    (hcheck : limits.check w.store t io = .error e) :
    w.commitIngress identity t io = (.error e, w) := by
  simp only [commitIngress, hkey, hlimits, hcheck]

theorem commitIngress_passed (hlimits : w.limits = some limits)
    (hpass : w.store.database.ingressReceipts[identity.key]? = none →
      limits.check w.store t io = .ok ()) :
    w.commitIngress identity t io = ((w.store.commitIngress identity t io.commit).1,
      { w with store := (w.store.commitIngress identity t io.commit).2 }) := by
  rw [commitIngress]
  cases hkey : w.store.database.ingressReceipts[identity.key]? with
  | some receipt => rfl
  | none => simp only [hlimits, hpass hkey]

variable (identity t io) in
/-- A commit does nothing at all, or it has passed the check and is one of the
database. -/
theorem commitIngress_cases (h : w.Bounded limits store)
    (hinactive : store.manifest.hasActiveRollups = false) :
    (∃ e, w.commitIngress identity t io = (.error e, w)) ∨
      (w.store.database.ingressReceipts[identity.key]? = none →
        limits.check w.store t io = .ok ()) ∧
      w.commitIngress identity t io =
        ((w.store.database.commit (t.withIngressIdentity identity) io.commit.frame).1,
          { w with store := { w.store with database :=
            (w.store.database.commit (t.withIngressIdentity identity) io.commit.frame).2 } }) := by
  by_cases hpass : w.store.database.ingressReceipts[identity.key]? = none →
      limits.check w.store t io = .ok ()
  · rw [commitIngress_passed h.limits hpass]
    cases hwritable : w.store.ensureWritable with
    | error e =>
      refine .inl ⟨e, ?_⟩
      rw [Store.commitIngress, Store.commit_of_not_writable hwritable]
    | ok u =>
      refine .inr ⟨hpass, ?_⟩
      rw [Store.commitIngress, Store.commit_of_inactive (by rw [h.manifest, hinactive]) hwritable]
  · obtain ⟨hkey, hcheck⟩ := Classical.not_imp.mp hpass
    cases hchecked : limits.check w.store t io with
    | error e => exact .inl ⟨e, commitIngress_refused h.limits hkey hchecked⟩
    | ok u => exact absurd hchecked hcheck

theorem Bounded.commitIngress (h : w.Bounded limits store)
    (hinactive : store.manifest.hasActiveRollups = false) :
    (w.commitIngress identity t io).2.Bounded limits store := by
  rcases commitIngress_cases identity t io h hinactive with ⟨e, heq⟩ | ⟨hcheck, heq⟩
  · rw [heq]
    exact h
  rw [heq]
  refine ⟨h.limits, h.directory, h.manifest, ?_, h.reachable.commit _ _⟩
  have hidentity : (t.withIngressIdentity identity).ingressIdentity = some identity := rfl
  have hwithin := h.within
  simp only [Store.diskBytes] at hwithin ⊢
  cases hreceipt : w.store.database.ingressReceipts[identity.key]? with
  | some receipt =>
    have hkey : identity.key ∈ w.store.database.ingressReceipts := by
      rw [Std.ExtTreeMap.mem_iff_isSome_getElem?, hreceipt]
      rfl
    rw [Database.file_commit_of_known hidentity _ hkey]
    exact hwithin
  | none =>
    obtain ⟨n, hframe, hfits⟩ := check_eq_ok (hcheck hreceipt)
    have hle : _ ≤ w.store.database.file.length + n :=
      Database.length_commit_le hidentity io.commit.frame hframe
    rw [Store.diskBytes] at hfits
    omega

theorem Bounded.flush (h : w.Bounded limits store) (io : Io) :
    (w.flush io).2.Bounded limits store := by
  obtain ⟨hdirectory, hmanifest, -, hbytes⟩ := w.store.flush_keeps io
  exact ⟨h.limits, hdirectory.trans h.directory, hmanifest.trans h.manifest, hbytes ▸ h.within,
    (Store.flush_advances h.reachable io).reachable⟩

/-- How a commit is metered: the limit refuses without a trace, a new key takes
exactly its frame and no other file, and a known key is answered or refused from
its receipt, whatever the limit says.  A receipt without bytes refuses all. -/
structure Metered (l : ShadowStorageLimits) (w : StoreWriter) (identity : IngressIdentity)
    (t : Transaction) : Prop where
  refused : w.store.database.ingressReceipts[identity.key]? = none →
    ∀ io e, l.check w.store t io = .error e → w.commitIngress identity t io = (.error e, w)
  appended : w.store.database.ingressReceipts[identity.key]? = none →
    ∀ io commit w', w.commitIngress identity t io = (.ok commit, w') →
      ∃ n, ingressFrameBytes t = .ok n ∧ l.check w.store t io = .ok () ∧
        commit.bytesWritten = n ∧ commit.deduplicated = false ∧
        w'.store.database.file.length = w.store.database.file.length + n ∧
        w'.store.directory = w.store.directory
  retried : ∀ receipt canonical, w.store.database.ingressReceipts[identity.key]? = some receipt →
    receipt.identity.commitId = identity.commitId → encodeCanonicalTransaction t = .ok canonical →
    receipt.canonical w.store.database.file.bytes = some canonical →
    ∀ io, ∃ durable, w.commitIngress identity t io =
      (.ok { receipt.commit with deduplicated := true, durable := durable }, w)
  changed : ∀ receipt stored canonical,
    w.store.database.ingressReceipts[identity.key]? = some receipt →
    receipt.canonical w.store.database.file.bytes = some stored →
    encodeCanonicalTransaction t = .ok canonical →
    (receipt.identity.commitId ≠ identity.commitId ∨ stored ≠ canonical) →
    ∀ io, w.commitIngress identity t io =
      (.error (.ingressSourceSequenceConflict identity.sourceId identity.sequence), w)
  withoutBytes : ∀ receipt canonical,
    w.store.database.ingressReceipts[identity.key]? = some receipt →
    receipt.canonical w.store.database.file.bytes = none →
    encodeCanonicalTransaction t = .ok canonical →
    ∀ io, w.commitIngress identity t io =
      (.error (.ingressSourceSequenceConflict identity.sourceId identity.sequence), w)

/-- The commit of a known key by a healthy store. -/
theorem commitIngress_known (h : w.Bounded limits store)
    (hinactive : store.manifest.hasActiveRollups = false) (hhealthy : w.store.Healthy)
    {receipt : StoredIngressReceipt}
    (hreceipt : w.store.database.ingressReceipts[identity.key]? = some receipt)
    {canonical : Bytes} (hcanonical : encodeCanonicalTransaction t = .ok canonical) :
    w.commitIngress identity t io =
      if receipt.identity.commitId = identity.commitId ∧
          receipt.canonical w.store.database.file.bytes = some canonical then
        (.ok { receipt.commit with
          deduplicated := true
          durable := w.store.database.ingressDurableSequences[identity.sourceId]?.any
            (identity.sequence ≤ ·) }, w)
      else (.error (.ingressSourceSequenceConflict identity.sourceId identity.sequence), w) := by
  have hdatabase := Database.commit_of_known (t := t.withIngressIdentity identity)
    h.reachable.sound rfl hhealthy.databaseReadOnly hhealthy.databasePoisoned hreceipt hcanonical
    io.commit.frame
  rw [commitIngress_passed h.limits fun hnone => (nomatch hreceipt.symm.trans hnone),
    Store.commitIngress,
    Store.commit_of_inactive (by rw [h.manifest, hinactive]) hhealthy.ensureWritable, hdatabase]
  split <;> rfl

theorem Bounded.metered (h : w.Bounded limits store)
    (hinactive : store.manifest.hasActiveRollups = false) (hhealthy : w.store.Healthy)
    (identity : IngressIdentity) (t : Transaction) : w.Metered limits identity t where
  refused hkey io e hcheck := commitIngress_refused h.limits hkey hcheck
  appended hkey io commit w' hcommit := by
    rcases commitIngress_cases identity t io h hinactive with ⟨e, heq⟩ | ⟨hcheck, heq⟩
    · cases (Prod.mk.inj (heq.symm.trans hcommit)).1
    obtain ⟨n, hframe, -⟩ := check_eq_ok (hcheck hkey)
    obtain ⟨hok, rfl⟩ := Prod.mk.inj (heq.symm.trans hcommit)
    have hidentity : (t.withIngressIdentity identity).ingressIdentity = some identity := rfl
    obtain ⟨hlength, hbytes, hnew⟩ := Database.length_commit_eq hidentity hframe hkey hok
    exact ⟨n, hframe, hcheck hkey, hbytes, hnew, hlength, rfl⟩
  retried receipt canonical hreceipt hcommit hcanonical hbytes io := by
    rw [commitIngress_known h hinactive hhealthy hreceipt hcanonical, if_pos ⟨hcommit, hbytes⟩]
    exact ⟨_, rfl⟩
  changed receipt stored canonical hreceipt hstored hcanonical hdiffers io := by
    rw [commitIngress_known h hinactive hhealthy hreceipt hcanonical, hstored, if_neg]
    intro hsame
    exact hdiffers.elim (fun hne => hne hsame.1) fun hne => hne (Option.some.inj hsame.2)
  withoutBytes receipt canonical hreceipt hnone hcanonical io := by
    rw [commitIngress_known h hinactive hhealthy hreceipt hcanonical, hnone, if_neg]
    rintro ⟨-, ⟨⟩⟩

end StoreWriter

/-! ## Along a run -/

/-- The storage is the bounded store, unless a panic has left something else. -/
def Backend.Kept (limits : ShadowStorageLimits) (store : Store) (b : Backend)
    (poison : Option WorkerPoison) : Prop :=
  (∀ cause, poison ≠ some (.panic cause)) →
    ∃ w, b = .store w ∧ w.Bounded limits store ∧
      (store.Healthy → poison = none → w.store.Healthy)

namespace Backend

variable {b b' : Backend}

/-- A guarded call keeps the storage if it does so whenever it runs. -/
theorem Kept.guarded {ι α : Type} {call : ι → Except Error α × Backend}
    (h : b.Kept limits store none)
    (hruns : ∀ w, b = .store w → w.Bounded limits store → ∀ io, ∃ w', (call io).2 = .store w' ∧
      w'.Bounded limits store ∧ (w.store.Healthy →
        (∀ e, (call io).1 = .error e → writerErrorRequiresPoison e = false) → w'.store.Healthy))
    {fate : Fate ι} {called : Called α} (hcall : guarded call fate = (called, b')) :
    b'.Kept limits store called.poison := by
  intro hpanic
  obtain ⟨w, hb, hbounded, hhealthy⟩ := h nofun
  cases fate with
  | panics cause left =>
    cases hcall
    exact absurd rfl (hpanic cause)
  | runs io =>
    cases hcall
    obtain ⟨w', hw', hbounded', hhealthy'⟩ := hruns w hb hbounded io
    refine ⟨w', hw', hbounded', fun hstore hpoison =>
      hhealthy' (hhealthy hstore rfl) fun e he => ?_⟩
    simp only [he, Called.poison] at hpoison
    exact Bool.eq_false_iff.mpr fun htrue => by simp [htrue] at hpoison

theorem Kept.commitIngress (h : b.Kept limits store none)
    (hinactive : store.manifest.hasActiveRollups = false) {identity : IngressIdentity}
    {t : Transaction} {fate : Fate WriteIo} {called : Called Commit}
    (hcall : Shadow.guarded (b.commitIngress identity t) fate = (called, b')) :
    b'.Kept limits store called.poison := by
  refine h.guarded (fun w hb hbounded io => ?_) hcall
  subst hb
  refine ⟨(w.commitIngress identity t io).2, rfl, hbounded.commitIngress hinactive,
    fun hhealthy hresult => ?_⟩
  rcases StoreWriter.commitIngress_cases identity t io hbounded hinactive with
    ⟨e, heq⟩ | ⟨hcheck, heq⟩
  · rw [heq]
    exact hhealthy
  · have hpassed := StoreWriter.commitIngress_passed hbounded.limits hcheck
    change ∀ e, (w.commitIngress identity t io).1 = .error e → _ at hresult
    rw [hpassed] at hresult ⊢
    exact Store.healthy_commitIngress hhealthy (by rw [hbounded.manifest, hinactive]) hresult

theorem Kept.flush (h : b.Kept limits store none) {fate : Fate Io} {called : Called Unit}
    (hcall : Shadow.guarded b.flush fate = (called, b')) : b'.Kept limits store called.poison := by
  refine h.guarded (fun w hb hbounded io => ?_) hcall
  subst hb
  exact ⟨(w.flush io).2, rfl, hbounded.flush io, fun hhealthy hresult =>
    Store.healthy_flush hhealthy hresult⟩

end Backend

namespace Runtime

variable {s s' : Runtime}

/-- What every step of a bounded runtime keeps. -/
structure Budgeted (limits : ShadowStorageLimits) (store : Store) (s : Runtime) : Prop where
  interval : s.config.maintenanceInterval = none
  kept : ∀ w, s.worker.writer = some w → w.backend.Kept limits store s.worker.poison

namespace Budgeted

/-- A step that leaves the storage and the poison of the worker alone. -/
theorem same (h : Budgeted limits store s) {worker : Worker} (hworker : s.worker = worker)
    (hconfig : s'.config = s.config)
    (hwriter : s'.worker.writer.map Writer.backend = worker.writer.map Writer.backend)
    (hpoison : s'.worker.poison = worker.poison) : Budgeted limits store s' where
  interval := hconfig ▸ h.interval
  kept w' hw' := by
    subst hworker
    rw [hw', Option.map_some] at hwriter
    obtain ⟨w, hw, hbackend⟩ := Option.map_eq_some_iff.mp hwriter.symm
    rw [hpoison, ← hbackend]
    exact h.kept w hw

theorem gone (h : Budgeted limits store s) (hconfig : s'.config = s.config)
    (hwriter : s'.worker.writer = none) : Budgeted limits store s' where
  interval := hconfig ▸ h.interval
  kept w' hw' := by
    rw [hwriter] at hw'
    cases hw'

/-- The storage of a worker about to make a call. -/
theorem processing (h : Budgeted limits store s) {w : Writer} {r : Submission} {reply : Nat}
    (hworker : s.worker = .processing w r reply) (hpoison : w.poison = none) :
    w.backend.Kept limits store none := by
  have hkept := h.kept w (by rw [hworker]; rfl)
  rwa [hworker, show (Worker.processing w r reply).poison = none from hpoison] at hkept

theorem works (h : Budgeted limits store s) (hinactive : store.manifest.hasActiveRollups = false)
    (hstep : Works s s') : Budgeted limits store s' := by
  cases hstep with
  | commit fate hworker hpoison hcall =>
    refine ⟨h.interval, fun w' hw' => ?_⟩
    cases hw'
    exact (h.processing hworker hpoison).commitIngress hinactive hcall
  | flush fate hworker hpoison _ hcall =>
    refine ⟨h.interval, fun w' hw' => ?_⟩
    cases hw'
    exact (h.processing hworker hpoison).flush hcall
  | acknowledge io hworker hsettled | fail io hworker hsettled =>
    refine h.same hworker rfl rfl ?_
    exact (congrArg (fun settled => settled.2.2) hsettled).symm.trans (poison_settleWrite ..)
  | settleFlush io hworker hsettled =>
    refine h.same hworker rfl rfl ?_
    exact (congrArg (fun settled => settled.2.2) hsettled).symm.trans (poison_settleFlush ..)
  | maintain tick _ hdue _ =>
    -- a bounded runtime has no background work
    rw [maintenanceDue, h.interval] at hdue
    cases hdue
  | closePoisoned _ _ | close _ _ _ _ | closeFails _ _ _ _ | closePanics _ _ _ =>
    exact h.gone rfl rfl
  | receive hworker _ | receiveShutdown hworker _ | release hworker | refuse hworker _
  | notAccepted hworker _ _ _ | rest _ hworker _ | reply hworker =>
    exact h.same hworker rfl rfl rfl

theorem step (h : Budgeted limits store s) (hinactive : store.manifest.hasActiveRollups = false)
    (hstep : Step s s') : Budgeted limits store s' := by
  have hconfig := hstep.config_eq
  rcases hstep.cases with hout | hworks | hdies
  · exact h.same hout.worker.symm hconfig rfl rfl
  · exact h.works hinactive hworks
  · cases hdies
    exact h.gone rfl rfl

end Budgeted

/-- The budget in one state of a run: the files are within it, and every commit
that can come next is metered. -/
structure WithinBudget (limits : ShadowStorageLimits) (store : Store) (s : Runtime) : Prop where
  within : ∀ w, s.worker.writer = some w → (∀ cause, s.worker.poison ≠ some (.panic cause)) →
    ∃ writer, w.backend = .store writer ∧ writer.store.directory = store.directory ∧
      writer.store.diskBytes ≤ max store.diskBytes limits.maxStoreBytes.toNat ∧
      ∀ io, (writer.flush io).2.store.directory = store.directory ∧
        (writer.flush io).2.store.diskBytes = writer.store.diskBytes
  metered : store.Healthy → ∀ w, s.worker.writer = some w → s.worker.poison = none →
    ∃ writer, w.backend = .store writer ∧ ∀ identity t, writer.Metered limits identity t

theorem Budgeted.withinBudget (h : Budgeted limits store s)
    (hinactive : store.manifest.hasActiveRollups = false) : WithinBudget limits store s where
  within w hw hpanic := by
    obtain ⟨writer, hwriter, hbounded, -⟩ := h.kept w hw hpanic
    refine ⟨writer, hwriter, hbounded.directory, hbounded.within, fun io => ?_⟩
    exact ⟨(hbounded.flush io).directory, (writer.store.flush_keeps io).2.2.2⟩
  metered hhealthy w hw hpoison := by
    obtain ⟨writer, hwriter, hbounded, hkept⟩ := h.kept w hw (by rw [hpoison]; exact nofun)
    exact ⟨writer, hwriter, hbounded.metered hinactive (hkept hhealthy hpoison)⟩

/-- In every run over a store with limits the files stay within the budget. -/
theorem withinBudget_of_startStore {config : ShadowRuntimeConfig} {io : SnapshotIo} {s₀ : Runtime}
    (hreachable : store.database.Reachable) (hlimits : config.storageLimits = some limits)
    (hstart : startStore store config io = .ok s₀) (hsteps : Relation.ReflTransGen Step s₀ s) :
    WithinBudget limits store s := by
  simp only [startStore, startBackend, bind_eq_ok, failIf_eq_ok] at hstart
  obtain ⟨_, -, _, hvalid, _, -, hstart⟩ := hstart
  cases hstart
  obtain ⟨hinactive, hinterval, -⟩ : store.manifest.hasActiveRollups = false ∧
      config.maintenanceInterval = none ∧ config.sealLogBytesThreshold = none := by
    simpa [hlimits] using hvalid
  refine Budgeted.withinBudget ?_ hinactive
  induction hsteps with
  | refl =>
    refine ⟨hinterval, fun w hw _ => ?_⟩
    cases hw
    exact ⟨⟨store, config.storageLimits⟩, rfl, ⟨hlimits, rfl, rfl, le_max_left _ _, hreachable⟩,
      fun hhealthy _ => hhealthy⟩
  | tail _ hstep ih => exact ih.step hinactive hstep

end Runtime

end Budget

/-- An identity index of the first format with the receipt of `siteBatch`: the
length and the checksum of its bytes, but not the bytes. -/
def firstFormatIndex : Frame where
  kind := .identityIndex
  items := 0
  payload := (Codec.pair (Codec.list Postcard.legacyIdentifiedReceipt)
    (Codec.list Postcard.legacyIngressReceipt)).encode ([], [(1, 5, 105, 35, 0x39C66F2B, 0, 1)])
  small := by decide +kernel

/-- A log of that index. -/
def firstFormatLog : File where
  bytes := logBytes [firstFormatIndex]
  synced := 0
  small := by decide +kernel
  synced_le := Nat.zero_le _

set_option maxRecDepth 20000 in
/-- A bounded runtime refuses the exact retry of a batch that it knows from such an
index. -/
theorem firstFormat_refuses_retry :
    letI := Jiff.withoutZones
    letI := FileSizes.logOnly
    ∃ (db : Database) (s : Runtime) (w : StoreWriter) (receipt : StoredIngressReceipt)
      (canonical : Bytes), db.Reachable ∧
      Runtime.startStore (Store.ofDatabase db {} {} false) { storageLimits := some ⟨1000, 0⟩ } {} =
        .ok s ∧ s.worker = .receiving { backend := .store w } ∧
      w.store.database.ingressReceipts[(⟨1, 5⟩ : IngressKey)]? = some receipt ∧
      receipt.identity = ⟨1, 5, 105⟩ ∧ encodeCanonicalTransaction siteBatch = .ok canonical ∧
      receipt.canonicalPayloadLen.toNat = canonical.length ∧
      receipt.canonicalPayloadCrc32 = Crc32.hash canonical ∧
      (w.commitIngress ⟨1, 5, 105⟩ siteBatch {}).1 =
        .error (.ingressSourceSequenceConflict 1 5) := by
  let _ := Jiff.withoutZones
  let _ := FileSizes.logOnly
  obtain ⟨canonical, hcanonical, hsum⟩ := Check.map_eq_ok.mp
    (show (encodeCanonicalTransaction siteBatch).map (fun bytes =>
      (bytes.length, Crc32.hash bytes)) = .ok (35, 0x39C66F2B) by decide +kernel)
  obtain ⟨db, hopen, hrun⟩ := Check.map_eq_ok.mp
    (show (Database.openMode {} false [] firstFormatLog {}).1.map (fun db =>
        (db.ingressReceipts[(⟨1, 5⟩ : IngressKey)]?.map fun r =>
          (r.identity, r.canonicalPayloadLen, r.canonicalPayloadCrc32),
        (StoreWriter.commitIngress ⟨Store.ofDatabase db {} {} false, some ⟨1000, 0⟩⟩ ⟨1, 5, 105⟩
          siteBatch {}).1)) =
      .ok (some (⟨1, 5, 105⟩, 35, 0x39C66F2B), .error (.ingressSourceSequenceConflict 1 5)) by
      decide +kernel)
  simp only [Prod.mk.injEq, Option.map_eq_some_iff] at hrun hsum
  obtain ⟨⟨receipt, hreceipt, hidentity, hlength, hchecksum⟩, hrefused⟩ := hrun
  exact ⟨db, _, _, receipt, canonical, .opened (Prod.ext hopen rfl), rfl, rfl, hreceipt, hidentity,
    hcanonical, by rw [hlength, hsum.1]; rfl, hchecksum.trans hsum.2.symm, hrefused⟩

set_option maxRecDepth 20000 in
/-- A runtime with room for a thousand bytes over an empty store has served a
write.  Its exact retry is answered and a changed one refused, though no system
call of the check would succeed. -/
theorem withinBudget_siteWrite :
    letI := Jiff.withoutZones
    letI := FileSizes.logOnly
    ∃ (store : Store) (s : Runtime) (w : StoreWriter) (ack : ShadowAck), store.Healthy ∧
      s.worker = .receiving { backend := .store w } ∧ s.replies = [(0, .write (.ok ack))] ∧
      ack.commit.deduplicated = false ∧
      (w.commitIngress ⟨1, 5, 105⟩ siteBatch {}).1 = .ok { ack.commit with deduplicated := true } ∧
      (w.commitIngress ⟨1, 5, 105⟩ {} {}).1 = .error (.ingressSourceSequenceConflict 1 5) ∧
      s.WithinBudget ⟨1000, 0⟩ store := by
  let _ := Jiff.withoutZones
  let _ := FileSizes.logOnly
  -- a file system with a thousand blocks
  let io : WriteIo := { space := some ⟨4096, 1000⟩ }
  obtain ⟨db, hopen, hrun⟩ := Check.map_eq_ok.mp
    (show (Database.openMode {} false [] .empty {}).1.map (fun db =>
        let w : StoreWriter := ⟨Store.ofDatabase db {} {} false, some ⟨1000, 0⟩⟩
        let written := w.commitIngress ⟨1, 5, 105⟩ siteBatch io
        (db.readOnly, db.poisoned, written.1.map fun commit =>
          (commit.deduplicated, decide ((written.2.commitIngress ⟨1, 5, 105⟩ siteBatch {}).1 =
            .ok { commit with deduplicated := true })),
          (written.2.commitIngress ⟨1, 5, 105⟩ {} {}).1)) =
      .ok (false, false, .ok (false, true), .error (.ingressSourceSequenceConflict 1 5)) by
      decide +kernel)
  simp only [Prod.mk.injEq] at hrun
  obtain ⟨hwritable, hpoisoned, hok, hchanged⟩ := hrun
  obtain ⟨commit, hcommit, hretried⟩ := Check.map_eq_ok.mp hok
  simp only [Prod.mk.injEq, decide_eq_true_eq] at hretried
  have hidle : (Runtime.initial (.store ⟨Store.ofDatabase db {} {} false, some ⟨1000, 0⟩⟩)
      { storageLimits := some ⟨1000, 0⟩ } {}).Idle
      { backend := .store ⟨Store.ofDatabase db {} {} false, some ⟨1000, 0⟩⟩ } :=
    ⟨rfl, rfl, rfl, rfl, rfl, rfl, Nat.succ_ne_zero 63, rfl⟩
  obtain ⟨s, ack, hsteps, hidle, rfl, -, -, hreplies⟩ := hidle.write siteWrite io
    (b := .store (StoreWriter.commitIngress ⟨Store.ofDatabase db {} {} false, some ⟨1000, 0⟩⟩
      ⟨1, 5, 105⟩ siteBatch io).2) (Nat.zero_le _) (Nat.two_pow_pos 64) (Prod.ext hcommit rfl)
  have hstart : Runtime.startStore (Store.ofDatabase db {} {} false)
      { storageLimits := some ⟨1000, 0⟩ } {} = .ok (Runtime.initial
        (.store ⟨Store.ofDatabase db {} {} false, some ⟨1000, 0⟩⟩)
        { storageLimits := some ⟨1000, 0⟩ } {}) := rfl
  exact ⟨Store.ofDatabase db {} {} false, s, _, ack, ⟨rfl, rfl, hwritable, hpoisoned⟩,
    hidle.worker, hreplies, hretried.1, hretried.2, hchanged,
    Runtime.withinBudget_of_startStore (.opened (Prod.ext hopen rfl)) rfl hstart hsteps⟩

end Shadow

end Ftwdb
