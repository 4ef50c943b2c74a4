import Ftwdb.Storage.Receipts
import Ftwdb.Storage.Reclaim

/-!
# Sound handles

A handle is sound if its receipts are backed by its file, its catalog is valid
and its live index is the index of some points.  Opening any bytes at all gives
a sound handle, if it succeeds, and every call keeps the handle sound, whatever
its result and whatever the system does to its writes: calls only append to the
file.  `reclaimLiveLog` replaces the file; it ends with a scan of the new one.
-/

namespace Ftwdb

open ByteCodec Check KeyedMap

/-! ## Sound tables -/

namespace Tables

/-- Compact receipts leave the catalog and the points alone. -/
theorem applyIdentityIndex_rest {t t' : Tables} {payload : Bytes} {offset : Nat}
    (hstep : t.applyIdentityIndex payload offset = .ok t') :
    t'.catalog = t.catalog ∧ t'.index = t.index ∧ t'.points = t.points ∧
      t'.pendingReclaim = t.pendingReclaim := by
  let Same (u : Tables) := u.catalog = t.catalog ∧ u.index = t.index ∧ u.points = t.points ∧
    u.pendingReclaim = t.pendingReclaim
  simp only [applyIdentityIndex, bind_eq_ok] at hstep
  obtain ⟨index, -, t₁, hidentified, hingress⟩ := hstep
  have h₁ : Same t₁ := by
    refine foldlM_invariant Same ?_ ⟨rfl, rfl, rfl, rfl⟩ hidentified
    intro u r u' _ hu hstep
    obtain ⟨kept, -, -, -, rfl⟩ := applyIdentifiedReceipt_eq_ok.mp hstep
    exact hu
  refine foldlM_invariant Same ?_ h₁ hingress
  intro u r u' _ hu hstep
  obtain ⟨kept, -, -, -, rfl⟩ := applyIngressReceipt_eq_ok.mp hstep
  exact hu

theorem exists_holds_push {index : LiveIndex} (h : ∃ l, index.sort.Holds l) (points : List Point) :
    ∃ l, (points.foldl LiveIndex.push index).sort.Holds l := by
  obtain ⟨l, hl⟩ := h
  rw [LiveIndex.sort_foldl_push]
  exact ⟨l ++ points, hl.foldl_insertIndexedPoint points⟩

variable [Jiff]

/-- Tables that the bytes of a log account for. -/
structure Sound (t : Tables) (bytes : Bytes) : Prop extends t.Backed bytes where
  catalog : t.catalog.Valid
  index : ∃ l, t.index.Holds l

namespace Sound

variable {t t' : Tables} {bytes : Bytes} {offset : Nat}

theorem append (h : t.Sound bytes) (more : Bytes) : t.Sound (bytes ++ more) :=
  ⟨h.toBacked.append more, h.catalog, h.index⟩

/-- What a frame does to the catalog and to the points. -/
theorem applyFrame_rest {f : Frame} {limits : Limits} {published : List UInt64}
    (hcatalog : t.catalog.Valid) (hindex : ∃ l, t.index.sort.Holds l)
    (hstep : t.applyFrame limits published offset f = .ok t') :
    t'.catalog.Valid ∧ ∃ l, t'.index.sort.Holds l := by
  obtain ⟨t₁, htakes, rfl⟩ := exists_takes hstep
  change t₁.catalog.Valid ∧ ∃ l, t₁.index.sort.Holds l
  cases htakes with
  | points => exact ⟨hcatalog, exists_holds_push hindex _⟩
  | reclaims =>
    refine ⟨hcatalog, [], fun s => ?_⟩
    rw [LiveIndex.seriesPoints_sort, LiveIndex.Holds.empty s]
    rfl
  | checkpoint => exact ⟨hcatalog, hindex⟩
  | identities hpayload =>
    obtain ⟨hsame, hsame', -⟩ := applyIdentityIndex_rest hpayload
    rw [hsame, hsame']
    exact ⟨hcatalog, hindex⟩
  | transaction hpayload =>
    obtain ⟨records, catalog, -, -, happlied, -, rfl⟩ := applyTransaction_eq_ok.mp hpayload
    have hvalid := hcatalog.applyRecovered happlied
    have hpoints := exists_holds_push hindex (records.flatMap Record.pointList)
    rw [recordTransaction]
    cases frameIdentity f <;> exact ⟨hvalid, hpoints⟩

/-- The tables of a scan. -/
theorem replay {limits : Limits} {published : List UInt64} {fs : List Frame}
    (hbytes : (logBytes fs).length < 2 ^ 63)
    (hreplay : Ftwdb.replay limits published databaseHeaderBytes {} fs = .ok t) :
    t.sortIndex.Sound (logBytes fs) := by
  have hbacked := Backed.replay hbytes hreplay
  have hrest : t.catalog.Valid ∧ ∃ l, t.index.sort.Holds l := by
    refine replay_invariant (fun t => t.catalog.Valid ∧ ∃ l, t.index.sort.Holds l) ?_
      (fun _ h hstep => applyFrame_rest h.1 h.2 hstep) hreplay
    refine ⟨.empty, [], fun s => ?_⟩
    rw [LiveIndex.seriesPoints_sort, LiveIndex.Holds.empty s]
    rfl
  exact ⟨{ hbacked with }, hrest.1, hrest.2⟩

end Sound

end Tables

/-! ## Durability flags -/

theorem plain_forgetDurable {bytes : Bytes} {commitId : U128} {r : StoredIdentifiedReceipt}
    {p : Option Bytes} : Plain bytes commitId r.forgetDurable p ↔ Plain bytes commitId r p := by
  constructor
  all_goals
    intro h
    cases h with
    | live small hpayload hoffset hframe =>
      exact .live small ⟨hpayload.length, hpayload.checksum, hpayload.holds⟩ hoffset hframe
    | compact hpayload hoffset hkept =>
      exact .compact ⟨hpayload.length, hpayload.checksum, hpayload.holds⟩ hoffset hkept
    | bare hlong hoffset hkept => exact .bare hlong hoffset hkept

theorem ordered_forgetDurable {bytes : Bytes} {r : StoredIngressReceipt} {p : Option Bytes} :
    Ordered bytes r.forgetDurable p ↔ Ordered bytes r p := by
  constructor
  all_goals
    intro h
    cases h with
    | live small hpayload hoffset hframe =>
      exact .live small ⟨hpayload.length, hpayload.checksum, hpayload.holds⟩ hoffset hframe
    | compact hpayload hoffset hkept =>
      exact .compact ⟨hpayload.length, hpayload.checksum, hpayload.holds⟩ hoffset hkept
    | bare hlong hoffset hkept => exact .bare hlong hoffset hkept

theorem Commit.small_forgetDurable {c : Commit} : c.forgetDurable.Small ↔ c.Small :=
  ⟨fun h => ⟨h.1, h.2, h.3, h.4⟩, fun h => ⟨h.1, h.2, h.3, h.4⟩⟩

namespace Tables

/-- The bytes back a table whatever its durability flags are. -/
theorem backed_forgetDurable {t : Tables} {bytes : Bytes} :
    t.forgetDurable.Backed bytes ↔ t.Backed bytes := by
  simp only [backed_iff, forgetDurable, Std.ExtTreeMap.getElem?_map, Std.ExtTreeMap.mem_map,
    Option.map_eq_some_iff, forall_exists_index, and_imp, forall_apply_eq_imp_iff₂,
    exists_exists_and_eq_and, plain_forgetDurable, ordered_forgetDurable,
    Commit.small_forgetDurable, StoredIdentifiedReceipt.commit_forgetDurable,
    StoredIngressReceipt.commit_forgetDurable, StoredIngressReceipt.identity_forgetDurable]

theorem Backed.of_forgetDurable_eq {t u : Tables} {bytes : Bytes} (h : t.Backed bytes)
    (heq : t.forgetDurable = u.forgetDurable) : u.Backed bytes := by
  rwa [← backed_forgetDurable, ← heq, backed_forgetDurable]

theorem Sound.of_matches [Jiff] {w t : Tables} {bytes : Bytes} (h : t.sortIndex.Sound bytes)
    (hmatch : w.Matches t) : w.Sound bytes where
  toBacked := h.toBacked.of_forgetDurable_eq hmatch.eq.symm
  catalog := by
    rw [hmatch.catalog]
    exact h.catalog
  index := by
    rw [hmatch.index]
    exact h.index

end Tables

/-! ## Sound handles -/

namespace Database

/-- The tables are backed by the file. -/
def Sound [Jiff] (db : Database) : Prop := db.toTables.Sound db.file.bytes

section Open

variable [Jiff] {config : Config} {published : List UInt64} {file file' : File} {db : Database}

/-- A recovery takes the scan over and cuts the file, unless no tail is torn. -/
theorem scanAndRecover_cases {limits : Limits} {fails : Bool} {scan : Scan}
    (h : scanAndRecover file limits published fails = (.ok scan, file')) :
    scanLog limits (.recover false) published file.bytes = .ok scan ∧
      (scan.recoveredTail = .none ∧ file' = file ∨
        file' = (file.truncate scan.validatedBytes).sync) := by
  rw [scanAndRecover] at h
  split at h
  · cases h
  next hscan =>
  split at h
  · next hnone =>
    cases h
    exact ⟨hscan, .inl ⟨hnone, rfl⟩⟩
  · simp only at h
    split at h
    · cases h
    · cases h
      exact ⟨hscan, .inr rfl⟩

/-- What a successful recovery has read, and what it leaves in the file. -/
theorem scanAndRecover_eq_ok {limits : Limits} {fails : Bool} {scan : Scan}
    (h : scanAndRecover file limits published fails = (.ok scan, file')) :
    ∃ fs t, (∀ f ∈ fs, f.Fits limits) ∧
      replay limits published databaseHeaderBytes {} fs = .ok t ∧ scan.toTables = t.sortIndex ∧
      file'.bytes = logBytes fs := by
  obtain ⟨hscan, hfile⟩ := scanAndRecover_cases h
  obtain ⟨fs, torn, t, hbytes, hfits, hreplay, htables, hvalidated, hclean⟩ := scanLog_eq_ok hscan
  refine ⟨fs, t, hfits, hreplay, htables, ?_⟩
  rcases hfile with ⟨hnone, rfl⟩ | rfl
  · rw [hbytes, hclean hnone, List.append_nil]
  · change file.bytes.take _ = _
    rw [hvalidated, hbytes, List.take_left]

/-- What a successful open has done. -/
theorem openMode_cases {readOnly : Bool} {io : OpenIo}
    (h : openMode config readOnly published file io = (.ok db, file')) :
    config.validate = .ok () ∧ ∃ scan,
      (readOnly = true ∧ scanLog config.limits (.recover true) published file.bytes = .ok scan ∧
        db = ofScan config true file scan scan.toTables ∅) ∨
      (readOnly = false ∧ ∃ file₁ file₂, writeDatabaseHeader file io = (.ok (), file₁) ∧
        scanAndRecover file₁ config.limits published io.truncateSyncFails = (.ok scan, file₂) ∧
        db = ofScan config false file₂.sync scan scan.toTables.markReceiptsDurable
          scan.ingressLastSequences) := by
  rw [openMode] at h
  split at h
  · cases h
  next hvalid =>
  refine ⟨hvalid, ?_⟩
  split at h
  · next hreadOnly =>
    rw [openShared] at h
    split at h
    · cases h
    obtain ⟨scan, hscan, rfl⟩ := map_eq_ok.mp (Prod.mk.inj h).1
    exact ⟨scan, .inl ⟨hreadOnly, hscan, rfl⟩⟩
  · next hreadOnly =>
    rw [openExclusive] at h
    split at h
    · cases h
    next hheader =>
    split at h
    · cases h
    next scan _ hscan =>
    split at h
    · cases h
    cases h
    exact ⟨scan, .inr ⟨Bool.eq_false_iff.mpr hreadOnly, _, _, hheader, hscan, rfl⟩⟩

/-- The scan behind an open of a file that is not empty. -/
theorem scanLog_of_openMode {readOnly : Bool} {io : OpenIo} (hne : file.bytes ≠ [])
    (h : openMode config readOnly published file io = (.ok db, file')) :
    ∃ scan, scanLog config.limits (.recover readOnly) published file.bytes = .ok scan ∧
      db.catalog = scan.catalog := by
  obtain ⟨-, scan, ⟨rfl, hscan, rfl⟩ | ⟨rfl, _, _, hheader, hscan, rfl⟩⟩ := openMode_cases h
  · exact ⟨scan, hscan, rfl⟩
  · rw [writeDatabaseHeader, if_neg hne] at hheader
    cases hheader
    exact ⟨scan, (scanAndRecover_cases hscan).1, rfl⟩

/-- Whatever bytes are opened: the handle has the tables of a log at their front. -/
theorem openMode_eq_ok {readOnly : Bool} {io : OpenIo}
    (h : openMode config readOnly published file io = (.ok db, file')) :
    db.config = config ∧ db.readOnly = readOnly ∧ db.poisoned = false ∧
      ∃ fs torn t, (∀ f ∈ fs, f.Fits config.limits) ∧
        replay config.limits published databaseHeaderBytes {} fs = .ok t ∧
        db.toTables.Matches t ∧ db.file.bytes = logBytes fs ++ torn ∧
        (readOnly = false → torn = []) := by
  obtain ⟨-, scan, ⟨rfl, hscan, rfl⟩ | ⟨rfl, _, _, -, hscan, rfl⟩⟩ := openMode_cases h
  · obtain ⟨fs, torn, t, hbytes, hfits, hreplay, htables, -⟩ := scanLog_eq_ok hscan
    refine ⟨rfl, rfl, rfl, fs, torn, t, hfits, hreplay, ?_, hbytes, nofun⟩
    change scan.toTables.forgetDurable = _
    rw [htables]
  · obtain ⟨fs, t, hfits, hreplay, htables, hbytes⟩ := scanAndRecover_eq_ok hscan
    refine ⟨rfl, rfl, rfl, fs, [], t, hfits, hreplay, ?_,
      hbytes.trans (List.append_nil _).symm, fun _ => rfl⟩
    change scan.toTables.markReceiptsDurable.forgetDurable = _
    rw [htables, Tables.forgetDurable_markReceiptsDurable]

theorem openMode_sound {readOnly : Bool} {io : OpenIo}
    (h : openMode config readOnly published file io = (.ok db, file')) : db.Sound := by
  obtain ⟨-, -, -, fs, torn, t, -, hreplay, hmatch, hbytes, -⟩ := openMode_eq_ok h
  have hlength : (logBytes fs).length < 2 ^ 63 := by
    have hsmall := db.file.small
    rw [hbytes, List.length_append] at hsmall
    omega
  rw [Sound, hbytes]
  exact ((Tables.Sound.replay hlength hreplay).of_matches hmatch).append torn

end Open

/-! ## Rules for the calls of a seal -/

section Rules

variable {db : Database} {P : Database → Prop}

/-- What a written frame and a flush keep, a checkpoint keeps. -/
theorem writeSealCheckpoint_preserves {generation points : UInt64} {io flushIo : Io} (h : P db)
    (hwrite : P (db.writeFrame (checkpointFrame generation points) io).2)
    (hflush : ∀ db', P db' → P (db'.flush flushIo).2)
    (hcount : ∀ db' : Database, P db' → P { db' with commits := db'.commits + 1 }) :
    P (db.writeSealCheckpoint generation points io flushIo).2 := by
  rw [Database.writeSealCheckpoint]
  split
  · exact h
  split
  · exact h
  split
  · next heq =>
    rw [heq] at hwrite
    exact hwrite
  next db₁ heq =>
  rw [heq] at hwrite
  have hflushed := hflush db₁ hwrite
  split
  · next heq =>
    rw [heq] at hflushed
    exact hflushed
  · next heq =>
    rw [heq] at hflushed
    exact hcount _ hflushed

/-- What a flush keeps and the new log has, a reclaim keeps. -/
theorem reclaimLiveLog_preserves [Jiff] {order : List UInt64} {io : ReclaimIo} (h : P db)
    (hflush : P (db.flush io.flush).2)
    (hpoison : ∀ db' : Database, P db' → P { db' with poisoned := true })
    (hadopt : ∀ {db' : Database} {file scan}, P db' → db'.compactLog order = .ok (file, scan) →
      P (db'.adopt file scan)) : P (db.reclaimLiveLog order io).2 := by
  rw [Database.reclaimLiveLog]
  split
  · exact h
  split
  · exact h
  split
  · next heq =>
    rw [heq] at hflush
    exact hflush
  next heq =>
  rw [heq] at hflush
  split
  · exact hflush
  next hcompact =>
  split
  · exact hflush
  split
  · exact hpoison _ hflush
  · exact hadopt hflush hcompact

end Rules

namespace Sound

theorem writtenCommit_small {db : Database} {frame : Frame} {points records : Nat}
    (hpoints : points < 2 ^ 32)
    (hrecords : records < 2 ^ 32) (durable : Bool) :
    (db.writtenCommit frame points records durable).Small := by
  have hlength := db.file.small
  have hpayload := frame.small
  refine ⟨?_, ?_, ?_, ?_⟩
  · show db.file.bytes.length < 2 ^ 64
    omega
  · show points < 2 ^ 64
    omega
  · show records < 2 ^ 64
    omega
  · show frame.encode.length < 2 ^ 64
    rw [frame.length_encode, frameHeaderBytes]
    omega

variable [Jiff] {db : Database}

theorem insertPoints {t : Tables} {bytes : Bytes} (h : t.Sound bytes) (points : List Point) :
    (Database.insertPoints t points).Sound bytes := by
  obtain ⟨l, hl⟩ := h.index
  exact ⟨{ h with }, h.catalog, l ++ points, hl.foldl_insertIndexedPoint points⟩

/-- A transaction that the tables admit, in its frame. -/
theorem acceptTransaction {t : Tables} {bytes : Bytes} (h : t.Sound bytes) {limits : Limits}
    {transaction : Transaction} {payload : Bytes} {catalog : Option Catalog}
    (hadmits : t.Admits limits transaction payload catalog) (hsmall : payload.length < 2 ^ 32)
    {offset : Nat} (hframe : FrameAt bytes offset
      (transactionFrame (transactionIdentity transaction) transaction.recordCount payload hsmall))
    {commit : Commit} (hcommit : commit.Small) (hoffset : commit.frameOffset = offset)
    (hpoints : commit.points = transaction.pointCount)
    (hrecords : commit.records = transaction.recordCount) :
    (Database.acceptTransaction t transaction payload catalog offset commit).Sound bytes := by
  obtain ⟨canonical, hcanonical, rfl⟩ := hadmits.encoded
  have hidentity := Tables.frameIdentity_transactionFrame (transactionIdentity transaction)
    transaction.recordCount canonical hsmall
  have hitems : (UInt32.ofNat transaction.recordCount).toNat = transaction.recordCount :=
    toNat_ofNat_u32 (recordCount_lt hcanonical)
  have hcounts : Tables.Counts canonical transaction.recordCount transaction.pointCount :=
    Tables.counts_of_decode (decodeTransaction_encode hcanonical 0)
      (Catalog.intervals_of_applyRecords hadmits.applied)
  have hvalid : (catalog.getD t.catalog).Valid := by
    have happlied := hadmits.applied
    cases catalog with
    | none => exact h.catalog
    | some c => exact h.catalog.applyRecords happlied
  have hinserted := insertPoints h transaction.pointList
  have hbase : ({ Database.insertPoints t transaction.pointList with
      catalog := catalog.getD t.catalog
      catalogRecords := t.catalogRecords + Tables.metadataRecords transaction.records } :
        Tables).Backed bytes :=
    { hinserted with }
  have hfresh := hadmits.fresh
  have hbacked := hbase.addFrameReceipt hframe
    (by
      rw [hidentity]
      cases hid : transactionIdentity transaction <;> rw [hid] at hfresh <;> exact hfresh)
    (by
      rw [hidentity]
      simp only [transactionFrame, List.drop_left' (Tables.FrameIdentity.length_encode _), hitems]
      exact hcounts)
    hcommit hoffset hpoints (hrecords.trans hitems.symm)
  rw [hidentity] at hbacked
  rw [Database.acceptTransaction]
  cases hid : transactionIdentity transaction <;> simp only [hid] at hbacked <;>
    exact ⟨hbacked, hvalid, hinserted.index⟩

/-- Whatever becomes of a call, the handle stays sound if the tables of an
accepted frame are. -/
theorem acted (h : db.Sound) {decision : Decision} {io : Io} {receipt : Frame → Bool → Commit}
    {tables : Frame → Option Catalog → Commit → Tables} {outcome : Outcome Commit}
    (hacted : Acted db decision io receipt tables outcome)
    (haccepted : ∀ frame catalog durable, decision = .write frame catalog →
      (tables frame catalog (receipt frame durable)).Sound (db.file.bytes ++ frame.encode)) :
    outcome.2.Sound := by
  cases hacted with
  | answered _ => exact h
  | refused _ => exact h
  | broke _ hbroke =>
    obtain ⟨n, hbytes⟩ := hbroke.bytes
    rw [Sound, hbroke.tables, hbytes]
    exact h.append _
  | accepted hwrite hwritten htables =>
    rw [Sound, hwritten.bytes, htables]
    exact haccepted _ _ _ hwrite

theorem append (h : db.Sound) (points : List Point) (io : Io) : (db.append points io).2.Sound :=
  h.acted (append_acted db points io) fun _ _ _ _ => insertPoints (Tables.Sound.append h _) points

theorem commit (h : db.Sound) (t : Transaction) (io : Io) : (db.commit t io).2.Sound := by
  refine h.acted (commit_acted db t io) ?_
  intro frame catalog durable hwrite
  obtain ⟨-, -, payload, hsmall, rfl, hadmits, -⟩ := decide_eq_write hwrite
  obtain ⟨canonical, hcanonical, hpayload⟩ := hadmits.encoded
  have hcounts := Tables.counts_of_decode (decodeTransaction_encode hcanonical 0)
    (Catalog.intervals_of_applyRecords hadmits.applied)
  obtain ⟨-, hrecords, hpoints⟩ := hcounts.bounds
  have hcanonicalSmall : canonical.length < 2 ^ 32 := by
    rw [hpayload, List.length_append] at hsmall
    omega
  refine acceptTransaction (Tables.Sound.append h _) hadmits hsmall ?_
    (writtenCommit_small (Nat.lt_of_le_of_lt hpoints hcanonicalSmall) hrecords durable) rfl rfl rfl
  have hframe := frameAt_length db.file.bytes (transactionFrame (transactionIdentity t)
    t.recordCount payload hsmall) []
  rwa [List.append_nil] at hframe

theorem flush (h : db.Sound) (io : Io) : (db.flush io).2.Sound := by
  rcases flush_cases db io with ⟨e, poison, heq, -⟩ | ⟨-, -, heq⟩
  · rw [heq]
    exact h
  · rw [heq]
    exact h

theorem writeFrame (h : db.Sound) (frame : Frame) (io : Io) : (db.writeFrame frame io).2.Sound := by
  cases hwrite : db.writeFrame frame io with
  | mk result db' =>
    cases result with
    | error e =>
      obtain ⟨-, hbroke⟩ := writeFrame_eq_error hwrite
      obtain ⟨n, hbytes⟩ := hbroke.bytes
      rw [Sound, hbroke.tables, hbytes]
      exact Tables.Sound.append h _
    | ok durable =>
      obtain ⟨hwritten, htables⟩ := writeFrame_eq_ok hwrite
      rw [Sound, htables, hwritten.bytes]
      exact Tables.Sound.append h _

theorem writeSealCheckpoint (h : db.Sound) (generation points : UInt64) (io flushIo : Io) :
    (db.writeSealCheckpoint generation points io flushIo).2.Sound := by
  refine writeSealCheckpoint_preserves h (h.writeFrame _ io) (fun _ hwrite => hwrite.flush flushIo)
    ?_
  intro db' hflush
  exact { hflush with }

theorem attachSealedSegments (h : db.Sound) (segments : List Segment) :
    (db.attachSealedSegments segments).Sound := h

theorem clearLiveIndex (h : db.Sound) : db.clearLiveIndex.Sound :=
  ⟨{ h with }, h.catalog, [], .empty⟩

/-- The new log of a reclaim and the tables of its scan. -/
theorem compactLog_adopt {order : List UInt64} {file : File} {scan : Scan}
    (h : db.compactLog order = .ok (file, scan)) (db' : Database) :
    (db'.adopt file scan).Sound := by
  simp only [compactLog, bind_eq_ok] at h
  obtain ⟨index, -, frames, -, h⟩ := h
  split at h
  · cases h
  split at h
  · cases h
  next scan' file' hscan =>
  obtain ⟨rfl, rfl⟩ := Prod.mk.inj (Except.ok.inj h)
  obtain ⟨fs, t, -, hreplay, htables, hbytes⟩ := scanAndRecover_eq_ok hscan
  have hlength : (logBytes fs).length < 2 ^ 63 := hbytes ▸ file'.small
  have hsound := Tables.Sound.replay hlength hreplay
  rw [← htables] at hsound
  have hmarked := hsound.toBacked.of_forgetDurable_eq
    (Tables.forgetDurable_markReceiptsDurable scan'.toTables).symm
  rw [← hbytes] at hmarked
  exact ⟨{ hmarked with }, hsound.catalog, hsound.index⟩

theorem reclaimLiveLog (h : db.Sound) (order : List UInt64) (io : ReclaimIo) :
    (db.reclaimLiveLog order io).2.Sound :=
  reclaimLiveLog_preserves h (h.flush io.flush) (fun _ hflush => hflush)
    fun _ hcompact => compactLog_adopt hcompact _

end Sound

/-! ## Reachable handles -/

/-- The handles that any history of calls leads to, from a successful open of any
bytes on: every call, with every outcome of its writes. -/
inductive Reachable [Jiff] : Database → Prop
  | opened {config : Config} {readOnly : Bool} {published : List UInt64} {file file' : File}
      {io : OpenIo} {db : Database} :
      openMode config readOnly published file io = (.ok db, file') → Reachable db
  | append {db : Database} (points : List Point) (io : Io) :
      Reachable db → Reachable (db.append points io).2
  | commit {db : Database} (t : Transaction) (io : Io) :
      Reachable db → Reachable (db.commit t io).2
  | flush {db : Database} (io : Io) : Reachable db → Reachable (db.flush io).2
  | writeSealCheckpoint {db : Database} (generation points : UInt64) (io flushIo : Io) :
      Reachable db → Reachable (db.writeSealCheckpoint generation points io flushIo).2
  | attachSealedSegments {db : Database} (segments : List Segment) :
      Reachable db → Reachable (db.attachSealedSegments segments)
  | clearLiveIndex {db : Database} : Reachable db → Reachable db.clearLiveIndex
  | reclaimLiveLog {db : Database} (order : List UInt64) (io : ReclaimIo) :
      Reachable db → Reachable (db.reclaimLiveLog order io).2

theorem Reachable.sound [Jiff] {db : Database} (h : Reachable db) : db.Sound := by
  induction h with
  | opened h => exact openMode_sound h
  | append points io _ ih => exact ih.append points io
  | commit t io _ ih => exact ih.commit t io
  | flush io _ ih => exact ih.flush io
  | writeSealCheckpoint generation points io flushIo _ ih =>
    exact ih.writeSealCheckpoint generation points io flushIo
  | attachSealedSegments segments _ ih => exact ih.attachSealedSegments segments
  | clearLiveIndex _ ih => exact ih.clearLiveIndex
  | reclaimLiveLog order io _ ih => exact ih.reclaimLiveLog order io

/-! ## The configuration of a handle -/

section Config

variable {db : Database}

theorem Acted.config_eq {decision : Decision} {io : Io} {receipt : Frame → Bool → Commit}
    {tables : Frame → Option Catalog → Commit → Tables} {outcome : Outcome Commit}
    (h : Acted db decision io receipt tables outcome) : outcome.2.config = db.config := by
  cases h with
  | answered _ => rfl
  | refused _ => rfl
  | broke _ hbroke => exact hbroke.config
  | accepted _ haccepted _ => exact haccepted.config

theorem flush_config (io : Io) : (db.flush io).2.config = db.config := by
  rcases flush_cases db io with ⟨e, poison, heq, -⟩ | ⟨-, -, heq⟩ <;> rw [heq]

theorem writeFrame_config (frame : Frame) (io : Io) :
    (db.writeFrame frame io).2.config = db.config := by
  cases hwrite : db.writeFrame frame io with
  | mk result db' =>
    cases result with
    | error e => exact (writeFrame_eq_error hwrite).2.config
    | ok durable => exact (writeFrame_eq_ok hwrite).1.config

theorem writeSealCheckpoint_config (generation points : UInt64) (io flushIo : Io) :
    (db.writeSealCheckpoint generation points io flushIo).2.config = db.config :=
  writeSealCheckpoint_preserves (P := (·.config = db.config)) rfl (db.writeFrame_config _ io)
    (fun db' h => (db'.flush_config flushIo).trans h) fun _ h => h

theorem reclaimLiveLog_config [Jiff] (order : List UInt64) (io : ReclaimIo) :
    (db.reclaimLiveLog order io).2.config = db.config :=
  reclaimLiveLog_preserves (P := (·.config = db.config)) rfl (db.flush_config io.flush)
    (fun _ h => h) fun h _ => h

/-- A handle keeps the configuration that its open has checked. -/
theorem Reachable.validate [Jiff] (h : Reachable db) : db.config.validate = .ok () := by
  induction h with
  | opened h =>
    rw [(openMode_eq_ok h).1]
    exact (openMode_cases h).1
  | append points io _ ih => rwa [(append_acted _ points io).config_eq]
  | commit t io _ ih => rwa [(commit_acted _ t io).config_eq]
  | flush io _ ih => rwa [flush_config]
  | writeSealCheckpoint generation points io flushIo _ ih => rwa [writeSealCheckpoint_config]
  | attachSealedSegments segments _ ih => exact ih
  | clearLiveIndex _ ih => exact ih
  | reclaimLiveLog order io _ ih => rwa [reclaimLiveLog_config]

end Config

end Database

end Ftwdb
