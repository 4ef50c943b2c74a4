import Ftwdb.Model.CatalogSnapshot
import Ftwdb.Storage.CatalogHistory

/-!
# One catalog on every path

A transaction of points alone does not rebuild the catalog, and a scan does not
commit.  The short cut and the scan still decide as the full validation and the
commit do.  For the short cut this needs that the references of the catalog hold
already, which is an invariant of what transactions build (`Catalog.Valid`).  For
the scan it needs that the frame decodes to the records that were committed.
-/

namespace Ftwdb

open ByteCodec Check KeyedMap

namespace Catalog

variable [Jiff] {c c' : Catalog} {records : List Record}

/-! ## Points alone -/

theorem foldlM_apply_points (hpoints : records.all Record.isPoints = true) :
    records.foldlM apply c = .ok c := by
  induction records with
  | nil => rfl
  | cons r rest ih =>
    rw [List.all_cons, Bool.and_eq_true] at hpoints
    cases r with
    | points points =>
      rw [List.foldlM_cons]
      exact ih hpoints.2
    | entity | relation | series | run | plan => cases hpoints.1

/-- Points do not change the catalog, and its references hold already. -/
theorem Valid.validateAndApply_points (hc : c.Valid)
    (hpoints : records.all Record.isPoints = true) :
    c.validateAndApply records = (c.validateRecordPoints records).map fun _ => c := by
  rw [Catalog.validateAndApply, foldlM_apply_points hpoints]
  show (c.validateReferences >>= fun _ => c.validateRecordPoints records >>= fun _ => .ok c) = _
  rw [hc.references]
  show (c.validateRecordPoints records >>= fun _ => .ok c) = _
  cases c.validateRecordPoints records with
  | error e => rfl
  | ok _ => rfl

theorem applyRecovered_iff_accept {offset : Nat} :
    c.applyRecovered records offset = .ok c' ↔ c.accept records = .ok c' := by
  rw [applyRecovered, accept]
  cases c.applyRecords records with
  | error e =>
    constructor
    · intro h
      cases h
    · intro h
      cases h
  | ok o => cases o <;> exact Iff.rfl

/-- The paths of a transaction into the catalog. -/
structure PathsAgree (c : Catalog) : Prop where
  /-- The short cut has the verdict and the error of the full validation. -/
  shortCut : ∀ records, records.all Record.isPoints = true →
    c.applyRecords records = (c.validateAndApply records).map fun _ => none
  unchanged : ∀ records c', records.all Record.isPoints = true →
    c.validateAndApply records = .ok c' → c' = c
  recovered : ∀ records offset c',
    c.applyRecovered records offset = .ok c' ↔ c.accept records = .ok c'

/-- The paths of a catalog agree on every list of records. -/
theorem Valid.pathsAgree (hc : c.Valid) : c.PathsAgree where
  shortCut records hpoints := by
    rw [Catalog.applyRecords, if_pos hpoints, hc.validateAndApply_points hpoints]
    cases c.validateRecordPoints records with
    | error e => rfl
    | ok _ => rfl
  unchanged records c' hpoints happly := by
    rw [hc.validateAndApply_points hpoints, map_eq_ok] at happly
    obtain ⟨_, -, hsame⟩ := happly
    exact hsame.symm
  recovered _ _ _ := applyRecovered_iff_accept

end Catalog

theorem Tables.catalog_recordTransaction (t : Tables) (f : Frame) (records : List Record)
    (catalog : Catalog) (offset : Nat) :
    (t.recordTransaction f records catalog offset).countCommit.catalog = catalog := by
  rw [recordTransaction]
  cases frameIdentity f <;> rfl

namespace Database

variable [Jiff] {db : Database} {t : Transaction} {payload : Bytes}

/-! ## Commit and scan -/

/-- A transaction that passes every check of the commit but the one of the catalog. -/
structure Offered (db : Database) (t : Transaction) (payload : Bytes) : Prop where
  writable : db.readOnly = false
  usable : db.poisoned = false
  fresh : db.toTables.Fresh (transactionIdentity t)
  nonempty : t.ingressIdentity = none → t.isEmpty = false
  points_le : t.pointCount ≤ db.config.maxBatchPoints
  encoded : ∃ canonical, encodeCanonicalTransaction t = .ok canonical ∧
    payload = (transactionIdentity t).encode ++ canonical
  length_le : payload.length ≤ db.config.maxTransactionBytes
  small : payload.length < 2 ^ 32

/-- What is left to the catalog. -/
def decideCatalog (db : Database) (t : Transaction) (payload : Bytes)
    (hsmall : payload.length < 2 ^ 32) : Decision :=
  match db.catalog.applyRecords t.records with
  | .error e => .refuse e false
  | .ok catalog =>
    .write (transactionFrame (transactionIdentity t) t.recordCount payload hsmall) catalog

theorem Offered.decideNew (h : db.Offered t payload) (hingress : t.ingressIdentity = none) :
    db.decideNew t = db.decideCatalog t payload h.small := by
  obtain ⟨canonical, hcanonical, hpayload⟩ := h.encoded
  have hencode : encodeTransaction t = .ok payload := by
    rw [encodeTransaction, hcanonical, hpayload, transactionIdentity, hingress]
    cases t.commitId <;> rfl
  rw [Database.decideNew, h.nonempty hingress, if_neg Bool.false_ne_true,
    if_neg (Nat.not_lt.mpr h.points_le), decideCatalog]
  cases db.catalog.applyRecords t.records with
  | error e => rfl
  | ok catalog =>
    simp only [hencode]
    rw [if_neg (Nat.not_lt.mpr h.length_le), dif_pos h.small]

theorem Offered.decideIngress {identity : IngressIdentity} (h : db.Offered t payload)
    (hidentity : t.ingressIdentity = some identity) :
    db.decideIngress identity t = db.decideCatalog t payload h.small := by
  obtain ⟨canonical, hcanonical, hpayload⟩ := h.encoded
  have hframed : transactionIdentity t = .ingress identity := by
    rw [transactionIdentity, hidentity]
  have hfresh := h.fresh
  rw [hframed] at hfresh hpayload
  obtain ⟨hsource, hkey, hcommit, hlast⟩ := hfresh
  have hwrite : decideIngressNew.writeIngress db identity t canonical =
      db.decideCatalog t payload h.small := by
    have hbytes : identityBytes identity ++ canonical = payload := hpayload.symm
    simp only [decideIngressNew.writeIngress, hbytes]
    rw [if_neg (Nat.not_lt.mpr h.points_le), if_neg (Nat.not_lt.mpr h.length_le), decideCatalog,
      hframed]
    cases db.catalog.applyRecords t.records with
    | error e => rfl
    | ok catalog =>
      simp only
      rw [dif_pos h.small]
  rw [Database.decideIngress, if_neg hsource, hcanonical]
  simp only [Std.ExtTreeMap.getElem?_eq_none hkey]
  rw [decideIngressNew, if_neg hcommit]
  cases hcursor : db.ingressLastSequences[identity.sourceId]? with
  | none => exact hwrite
  | some last =>
    simp only
    rw [if_neg (UInt64.not_le.mpr (hlast last hcursor)), hwrite]

/-- Nothing but the catalog decides about an offered transaction. -/
theorem Offered.decide (hsound : db.Sound) (h : db.Offered t payload) :
    db.decide t = db.decideCatalog t payload h.small := by
  have hfresh := h.fresh
  rw [Database.decide, h.writable, h.usable, if_neg Bool.false_ne_true, if_neg Bool.false_ne_true]
  cases hingress : t.ingressIdentity with
  | some identity => exact h.decideIngress hingress
  | none =>
    rw [transactionIdentity, hingress] at hfresh
    cases hcommit : t.commitId with
    | none => exact h.decideNew hingress
    | some commitId =>
      rw [hcommit] at hfresh
      have hordered : commitId ∉ db.ingressCommitIds := by
        intro hmem
        obtain ⟨key, hkey⟩ := exists_getElem?_of_mem hmem
        exact hfresh (hsound.toBacked.ingressCommitIds commitId key hkey).1
      simp only
      rw [if_neg hordered, if_neg hfresh]
      exact h.decideNew hingress

theorem Offered.applyFrame (h : db.Offered t payload) {published : List UInt64} {offset : Nat}
    {c' : Catalog} : (∃ tables, db.toTables.applyFrame db.config.limits published offset
        (transactionFrame (transactionIdentity t) t.recordCount payload h.small) = .ok tables ∧
        tables.catalog = c') ↔ db.catalog.applyRecovered t.records offset = .ok c' := by
  obtain ⟨canonical, hcanonical, rfl⟩ := h.encoded
  have hidentity := Tables.frameIdentity_transactionFrame (transactionIdentity t) t.recordCount
    canonical h.small
  have hdecode : decodeTransaction
      ((transactionFrame (transactionIdentity t) t.recordCount
        ((transactionIdentity t).encode ++ canonical) h.small).payload.drop
          (transactionIdentity t).bytes)
      (transactionFrame (transactionIdentity t) t.recordCount
        ((transactionIdentity t).encode ++ canonical) h.small).items.toNat offset =
        .ok t.records := by
    simp only [transactionFrame, toNat_ofNat_u32 (recordCount_lt hcanonical),
      List.drop_left' (Tables.FrameIdentity.length_encode _)]
    exact decodeTransaction_encode hcanonical offset
  rw [Tables.applyFrame, Tables.applyPayload_transactionFrame]
  simp only [map_eq_ok, Tables.applyTransaction_eq_ok, hidentity, hdecode]
  constructor
  · rintro ⟨_, ⟨_, ⟨records, catalog, -, hrecords, happlied, -, rfl⟩, rfl⟩, hcatalog⟩
    cases hrecords
    rw [Tables.catalog_recordTransaction] at hcatalog
    rwa [hcatalog] at happlied
  · intro happlied
    exact ⟨_, ⟨_, ⟨t.records, c', h.fresh, rfl, happlied, h.points_le, rfl⟩, rfl⟩,
      Tables.catalog_recordTransaction _ _ _ _ _⟩

/-- The commit and the scan of its log agree about the catalog. -/
structure PathsAgree (db : Database) : Prop where
  catalog : db.catalog.PathsAgree
  /-- With every other check passed, a transaction is written iff a scan takes its frame. -/
  scanned : ∀ t payload (h : db.Offered t payload) published offset c',
    (∃ catalog, db.decide t = .write
        (transactionFrame (transactionIdentity t) t.recordCount payload h.small) catalog ∧
        catalog.getD db.catalog = c') ↔
      ∃ tables, db.toTables.applyFrame db.config.limits published offset
        (transactionFrame (transactionIdentity t) t.recordCount payload h.small) = .ok tables ∧
        tables.catalog = c'
  committed : ∀ t io commit, (db.commit t io).1 = .ok commit → commit.deduplicated = false →
    t.records ≠ [] → ∀ offset,
    db.catalog.applyRecovered t.records offset = .ok (db.commit t io).2.catalog

/-- The writer and a scan of its log agree in every run. -/
theorem Reachable.pathsAgree (h : Reachable db) : db.PathsAgree where
  catalog := h.sound.catalog.pathsAgree
  scanned t payload hoffered published offset c' := by
    rw [hoffered.applyFrame, Catalog.applyRecovered_iff_accept, hoffered.decide h.sound,
      decideCatalog, Catalog.accept, map_eq_ok]
    cases db.catalog.applyRecords t.records with
    | error e =>
      constructor
      · rintro ⟨_, hwrite, -⟩
        cases hwrite
      · rintro ⟨_, hok, -⟩
        cases hok
    | ok catalog =>
      constructor
      · rintro ⟨_, hwrite, rfl⟩
        obtain ⟨-, rfl⟩ := Decision.write.inj hwrite
        exact ⟨catalog, rfl, rfl⟩
      · rintro ⟨_, hok, rfl⟩
        cases hok
        exact ⟨catalog, rfl, rfl⟩
  committed t io commit hok hnew hrecords offset := by
    have hentered := db.commit_entered t io
    generalize db.commit t io = outcome at hentered hok
    cases hentered with
    | nothing _ hempty =>
      cases hok
      exact absurd (hempty hnew) hrecords
    | failed => cases hok
    | entered happlied hcatalog =>
      show _ = Except.ok _
      rw [hcatalog]
      exact Tables.applyRecovered_eq_ok happlied offset

end Database

/-- What transactions build is such a catalog, whether a handle holds it or a scan passes it. -/
theorem catalog_paths_agree [Jiff] :
    (∀ c, Catalog.Accepted c → c.PathsAgree) ∧ ∀ db : Database, db.Reachable → db.PathsAgree :=
  ⟨fun _ hc => hc.valid.pathsAgree, fun _ h => h.pathsAgree⟩

set_option maxRecDepth 20000 in
/-- One meter, offered to a database that has its site. -/
theorem catalog_paths_agree_meter :
    letI := Jiff.withoutZones
    ∃ (db : Database) (t : Transaction) (payload : Bytes) (c : Catalog), db.Reachable ∧
      db.catalog.entities.keys = [1] ∧ db.Offered t payload ∧ db.PathsAgree ∧
      c.entities.keys = [1] ∧ c.PathsAgree := by
  let _ := Jiff.withoutZones
  let site : Transaction := { records := [.entity ⟨1, "site", "home", none, 0, none, ∅⟩] }
  let meter : Transaction := { records := [.entity ⟨2, "meter", "main", some 1, 0, none, ∅⟩] }
  have hopened : (Database.openMode {} false [] .empty {}).1.map (fun db =>
      let db := (db.commit site {}).2
      decide (db.readOnly = false ∧ db.poisoned = false ∧ db.config = {} ∧
        db.catalog.entities.keys = [1])) = .ok true := by
    decide +kernel
  have hencode : (encodeCanonicalTransaction meter).map (fun canonical =>
      decide (canonical.length ≤ ({} : Config).maxTransactionBytes ∧ canonical.length < 2 ^ 32)) =
        .ok true := by
    decide +kernel
  have haccept : (({} : Catalog).accept site.records).map (·.entities.keys) = .ok [1] := by
    decide +kernel
  obtain ⟨db, hopen, hdb⟩ := map_eq_ok.mp hopened
  obtain ⟨hwritable, husable, hconfig, hkeys⟩ := of_decide_eq_true hdb
  obtain ⟨canonical, hcanonical, hlength⟩ := map_eq_ok.mp hencode
  obtain ⟨hle, hsmall⟩ := of_decide_eq_true hlength
  obtain ⟨c, hc, hkeys'⟩ := map_eq_ok.mp haccept
  have hreachable : (db.commit site {}).2.Reachable :=
    .commit site {} (.opened (Prod.ext hopen rfl))
  refine ⟨_, meter, canonical, c, hreachable, hkeys, ?_, catalog_paths_agree.2 _ hreachable, hkeys',
    catalog_paths_agree.1 c (.transaction .empty hc)⟩
  exact
    { writable := hwritable
      usable := husable
      fresh := trivial
      nonempty := fun _ => rfl
      points_le := by rw [hconfig]; decide
      encoded := ⟨canonical, hcanonical, rfl⟩
      length_le := by rw [hconfig]; exact hle
      small := hsmall }

end Ftwdb
