import Ftwdb.Model.CatalogIntegrity
import Ftwdb.Storage.FailStop

/-!
# The catalog over a history

Whatever calls a handle sees, with reclaims and reopens between them: its catalog
is integral, it evolves from each moment to each later one, a call that fails
leaves it alone, and the points of an accepted transaction have their series
and run from then on.  A catalog only changes when a transaction is entered
(`Database.later_evolves`); a reclaim and a reopen rebuild it from the log.
-/

namespace Ftwdb

open ByteCodec Check List

/-! ## The catalog in a scan -/

section Scan

variable [Jiff] {limits : Limits} {published : List UInt64}

theorem Catalog.Valid.evolves_applyRecovered {c c' : Catalog} {records : List Record} {offset : Nat}
    (hc : c.Valid) (h : c.applyRecovered records offset = .ok c') : c.Evolves c' := by
  rw [Catalog.applyRecovered] at h
  split at h
  · cases h
    exact hc.evolves_self
  · next hok =>
    cases h
    exact hc.evolves hok
  · cases h

/-- A frame leaves the catalog alone or enters a transaction in it. -/
theorem Tables.applyFrame_catalog {t t' : Tables} {offset : Nat} {f : Frame}
    (h : t.applyFrame limits published offset f = .ok t') :
    t'.catalog = t.catalog ∨
      ∃ records, t.catalog.applyRecovered records offset = .ok t'.catalog := by
  obtain ⟨t₁, htakes, rfl⟩ := exists_takes h
  change t₁.catalog = t.catalog ∨
    ∃ records, t.catalog.applyRecovered records offset = .ok t₁.catalog
  cases htakes with
  | points | reclaims | checkpoint => exact .inl rfl
  | identities hpayload => exact .inl (applyIdentityIndex_rest hpayload).1
  | transaction hpayload =>
    obtain ⟨records, catalog, -, -, happlied, -, rfl⟩ := applyTransaction_eq_ok.mp hpayload
    refine .inr ⟨records, ?_⟩
    rw [recordTransaction]
    cases frameIdentity f <;> exact happlied

theorem Tables.evolves_applyFrame {t t' : Tables} {offset : Nat} {f : Frame}
    (hvalid : t.catalog.Valid) (h : t.applyFrame limits published offset f = .ok t') :
    t'.catalog.Valid ∧ t.catalog.Evolves t'.catalog := by
  rcases applyFrame_catalog h with hsame | ⟨records, happlied⟩
  · rw [hsame]
    exact ⟨hvalid, hvalid.evolves_self⟩
  · exact ⟨hvalid.applyRecovered happlied, hvalid.evolves_applyRecovered happlied⟩

/-- The frames of a log lead the catalog on. -/
theorem evolves_replay {offset : Nat} {t t' : Tables} {fs : List Frame} (hvalid : t.catalog.Valid)
    (h : replay limits published offset t fs = .ok t') :
    t'.catalog.Valid ∧ t.catalog.Evolves t'.catalog := by
  induction fs generalizing offset t with
  | nil =>
    cases h
    exact ⟨hvalid, hvalid.evolves_self⟩
  | cons f fs ih =>
    obtain ⟨t₁, hf, h⟩ := replay_cons.mp h
    obtain ⟨hvalid₁, hevolves₁⟩ := Tables.evolves_applyFrame hvalid hf
    obtain ⟨hvalid', hevolves'⟩ := ih hvalid₁ h
    exact ⟨hvalid', hevolves₁.trans hevolves'⟩

/-- Whatever bytes follow the frames of a log: a scan that takes them in has gone
on from the catalog of the frames. -/
theorem evolves_scanLog {fs : List Frame} {rest : Bytes} {simulate : Bool} {scan : Scan}
    (h : scanLog limits (.recover simulate) published (logBytes fs ++ rest) = .ok scan) :
    ∃ t, replay limits published databaseHeaderBytes {} fs = .ok t ∧
      t.catalog.Evolves scan.catalog := by
  obtain ⟨hfits, t, hreplay⟩ := replay_of_scanLog h
  refine ⟨t, hreplay, ?_⟩
  rw [scanLog_append simulate hfits hreplay] at h
  obtain ⟨t', offset, ending, hscan⟩ : ∃ t' offset ending, scanFrames limits published rest.length
      (logBytes fs).length rest t = (t', offset, ending) := ⟨_, _, _, rfl⟩
  obtain ⟨gs, torn, t₁, -, -, hmore, -, hends⟩ := scanFrames_spec (Nat.le_refl _) hscan
  simp only [hscan] at h
  have hgoes := recoverScan_isOk.mp ⟨scan, h⟩
  rw [recoverScan_ok hgoes] at h
  cases h
  have hsame : t' = t₁ := by
    cases hends with
    | cleanEof => rfl
    | incompleteHeader => rfl
    | incompletePayload => rfl
    | bad => exact absurd rfl (hgoes _)
    | refused => exact absurd rfl (hgoes _)
  obtain ⟨hvalid, -⟩ := evolves_replay Catalog.Valid.empty hreplay
  rw [hsame]
  exact (evolves_replay hvalid hmore).2

end Scan

namespace Database

/-! ## Calls that leave the catalog alone -/

theorem append_catalog (db : Database) (points : List Point) (io : Io) :
    (db.append points io).2.catalog = db.catalog := by
  have hacted := db.append_acted points io
  generalize db.append points io = outcome at hacted
  cases hacted with
  | answered => rfl
  | refused => rfl
  | broke _ hbroke => rw [hbroke.tables]
  | accepted _ _ htables =>
    rw [htables]
    rfl

theorem flush_same (db : Database) (io : Io) :
    (db.flush io).2.file.bytes = db.file.bytes ∧ (db.flush io).2.catalog = db.catalog := by
  rcases db.flush_cases io with ⟨e, poison, hflush, -⟩ | ⟨-, -, hflush⟩
  · rw [hflush]
    exact ⟨rfl, rfl⟩
  · rw [hflush]
    exact ⟨rfl, rfl⟩

theorem writeSealCheckpoint_same (db : Database) (generation points : UInt64) (io flushIo : Io) :
    ∃ part, (db.writeSealCheckpoint generation points io flushIo).2.file.bytes =
        db.file.bytes ++ part ∧
      (db.writeSealCheckpoint generation points io flushIo).2.catalog = db.catalog := by
  rw [writeSealCheckpoint]
  split
  · exact ⟨[], (append_nil _).symm, rfl⟩
  split
  · exact ⟨[], (append_nil _).symm, rfl⟩
  split
  · next hwrite =>
    obtain ⟨-, hbroke⟩ := writeFrame_eq_error hwrite
    obtain ⟨n, hbytes⟩ := hbroke.bytes
    exact ⟨_, hbytes, by rw [hbroke.tables]⟩
  next db₁ hwrite =>
  obtain ⟨haccepted, htables⟩ := writeFrame_eq_ok hwrite
  have hsame := db₁.flush_same flushIo
  rw [haccepted.bytes, htables] at hsame
  split <;>
  · next hflush =>
    rw [hflush] at hsame
    exact ⟨_, hsame⟩

/-! ## Transactions -/

theorem catalog_acceptTransaction (t : Tables) (transaction : Transaction) (payload : Bytes)
    (catalog : Option Catalog) (offset : Nat) (commit : Commit) :
    (acceptTransaction t transaction payload catalog offset commit).catalog =
      catalog.getD t.catalog := by
  rw [acceptTransaction]
  cases transactionIdentity transaction <;> rfl

variable [Jiff] {db db' : Database}

/-- What a commit does to the catalog. -/
inductive Entered (db : Database) (t : Transaction) : Outcome Commit → Prop
  /-- Nothing, unless it repeats a transaction or has no records. -/
  | nothing {commit : Commit} {db' : Database} : db'.catalog = db.catalog →
      (commit.deduplicated = false → t.records = []) → Entered db t (.ok commit, db')
  | failed {e : Error} {db' : Database} : db'.catalog = db.catalog → Entered db t (.error e, db')
  | entered {commit : Commit} {db' : Database} {catalog : Option Catalog} :
      db.catalog.applyRecords t.records = .ok catalog →
      db'.catalog = catalog.getD db.catalog → Entered db t (.ok commit, db')

theorem commit_entered (db : Database) (t : Transaction) (io : Io) :
    Entered db t (db.commit t io) := by
  have hacted := db.commit_acted t io
  generalize db.commit t io = outcome at hacted
  cases hacted with
  | answered hdecision =>
    obtain ⟨-, -, hanswered⟩ := decide_eq_answer hdecision
    refine .nothing rfl fun hnew => ?_
    cases hanswered with
    | empty hempty => exact List.isEmpty_iff.mp hempty
    | identified => cases hnew
    | ingress => cases hnew
  | refused => exact .failed rfl
  | broke _ hbroke => exact .failed (by rw [hbroke.tables])
  | accepted hdecision _ htables =>
    obtain ⟨-, -, payload, hsmall, -, hadmits, -⟩ := decide_eq_write hdecision
    refine .entered hadmits.applied ?_
    rw [htables]
    exact catalog_acceptTransaction ..

/-! ## Reopening -/

/-- The file starts with frames that lead to the catalog of the handle. -/
def Logged (db : Database) : Prop :=
  ∃ fs rest, db.file.bytes = logBytes fs ++ rest ∧
    ∀ {limits : Limits} {published : List UInt64} {t : Tables},
      replay limits published databaseHeaderBytes {} fs = .ok t → t.catalog = db.catalog

namespace Logged

/-- More bytes do not matter, and neither does anything else in the handle. -/
theorem of_append (h : db.Logged) {part : Bytes} (hbytes : db'.file.bytes = db.file.bytes ++ part)
    (hcatalog : db'.catalog = db.catalog) : db'.Logged := by
  obtain ⟨fs, rest, hlog, hreplay⟩ := h
  refine ⟨fs, rest ++ part, ?_, fun ht => (hreplay ht).trans hcatalog.symm⟩
  rw [hbytes, hlog, append_assoc]

theorem of_same (h : db.Logged) (hbytes : db'.file.bytes = db.file.bytes)
    (hcatalog : db'.catalog = db.catalog) : db'.Logged :=
  h.of_append (hbytes.trans (append_nil _).symm) hcatalog

theorem of_healthy (h : db.Healthy) (hreadOnly : db.readOnly = false)
    (hpoisoned : db.poisoned = false) : db.Logged := by
  obtain ⟨fs, -, hframed⟩ := h hreadOnly hpoisoned
  refine ⟨fs, [], hframed.bytes.trans (append_nil _).symm, fun ht => ?_⟩
  exact (congrArg Tables.catalog (hframed.ledger ht)).symm

theorem opened {config : Config} {readOnly : Bool} {published : List UInt64} {file file' : File}
    {io : OpenIo} (h : openMode config readOnly published file io = (.ok db, file')) :
    db.Logged := by
  obtain ⟨-, -, -, fs, torn, t, -, hreplay, hmatch, hbytes, -⟩ := openMode_eq_ok h
  refine ⟨fs, torn, hbytes, fun {limits published' t'} hreplay' => ?_⟩
  rw [hmatch.catalog]
  exact (congrArg Tables.catalog (Tables.replay_ledger rfl hreplay hreplay')).symm

/-- Any open of the file goes on from the catalog of the handle. -/
theorem evolves (h : db.Logged) {config : Config} {readOnly : Bool} {published : List UInt64}
    {io : OpenIo} {file : File}
    (hopen : openMode config readOnly published db.file io = (.ok db', file)) :
    db.catalog.Evolves db'.catalog := by
  obtain ⟨fs, rest, hbytes, hcatalog⟩ := h
  have hne : db.file.bytes ≠ [] := by
    rw [hbytes]
    exact logBytes_append_ne_nil fs rest
  obtain ⟨scan, hscan, hsame⟩ := scanLog_of_openMode hne hopen
  rw [hbytes] at hscan
  obtain ⟨t, hreplay, hevolves⟩ := evolves_scanLog hscan
  rw [hsame, ← hcatalog hreplay]
  exact hevolves

end Logged

/-! ## One step -/

theorem commit_catalog (db : Database) (t : Transaction) (io : Io) :
    (db.commit t io).2.catalog = db.catalog ∨ ∃ catalog,
      db.catalog.applyRecords t.records = .ok catalog ∧
        (db.commit t io).2.catalog = catalog.getD db.catalog := by
  have hentered := db.commit_entered t io
  generalize db.commit t io = outcome at hentered
  cases hentered with
  | nothing hsame => exact .inl hsame
  | failed hsame => exact .inl hsame
  | entered happlied hcatalog => exact .inr ⟨_, happlied, hcatalog⟩

theorem compactLog_catalog (hsound : db.Sound) {order : List UInt64} {file : File} {scan : Scan}
    (h : db.compactLog order = .ok (file, scan)) : (db.adopt file scan).catalog = db.catalog :=
  (congrArg Logical.catalog (logical_adopt hsound h) :)

theorem reclaimLiveLog_catalog (hsound : db.Sound) (order : List UInt64) (io : ReclaimIo) :
    (db.reclaimLiveLog order io).2.catalog = db.catalog := by
  refine (reclaimLiveLog_preserves (P := fun db' => db'.catalog = db.catalog ∧ db'.Sound)
    ⟨rfl, hsound⟩ ⟨(db.flush_same io.flush).2, hsound.flush io.flush⟩ (fun _ h => h) ?_).1
  intro db' file scan hflushed hcompact
  exact ⟨(compactLog_catalog hflushed.2 hcompact).trans hflushed.1,
    Sound.compactLog_adopt hcompact _⟩

/-- A step leaves a handle that can write, or adds bytes that nothing in memory
answers to. -/
theorem later_bytes (db : Database) (l : Later) :
    (db.later l).2.readOnly = false ∧ (db.later l).2.poisoned = false ∨
      ∃ part, (db.later l).2.file.bytes = db.file.bytes ++ part ∧
        (db.later l).2.catalog = db.catalog := by
  have hsame : ∀ {db' : Database}, db'.file.bytes = db.file.bytes ∧ db'.catalog = db.catalog →
      ∃ part, db'.file.bytes = db.file.bytes ++ part ∧ db'.catalog = db.catalog :=
    fun h => ⟨[], h.1.trans (append_nil _).symm, h.2⟩
  cases l with
  | call c io =>
    by_cases hc : c = .flush
    · subst hc
      exact .inr (hsame (db.flush_same io))
    · obtain ⟨r, hcall, hacted⟩ := db.call_enters io hc
      simp only [later, hcall]
      cases hacted with
      | answered => exact .inr (hsame ⟨rfl, rfl⟩)
      | refused => exact .inr (hsame ⟨rfl, rfl⟩)
      | broke _ hbroke =>
        obtain ⟨n, hbytes⟩ := hbroke.bytes
        exact .inr ⟨_, hbytes, by rw [hbroke.tables]⟩
      | accepted hdecision haccepted =>
        obtain ⟨hreadOnly, hpoisoned⟩ := decideCall_writable hdecision
        exact .inl ⟨haccepted.readOnly.trans hreadOnly, haccepted.poisoned.trans hpoisoned⟩
  | writeSealCheckpoint generation points io flushIo =>
    exact .inr (db.writeSealCheckpoint_same generation points io flushIo)
  | reclaimLiveLog order io =>
    have hflushed := db.flush_same io.flush
    rw [later, reclaimLiveLog]
    split
    · exact .inr (hsame ⟨rfl, rfl⟩)
    next hreadOnly =>
    split
    · exact .inr (hsame ⟨rfl, rfl⟩)
    split
    · next hflush =>
      rw [hflush] at hflushed
      exact .inr (hsame hflushed)
    next hflush =>
    rw [hflush] at hflushed
    split
    · exact .inr (hsame hflushed)
    split
    · exact .inr (hsame hflushed)
    split
    · exact .inr (hsame hflushed)
    · obtain ⟨e, poison, herror, -⟩ | ⟨hreadOnly, hpoisoned, hok⟩ := db.flush_cases io.flush
      · cases (Prod.mk.inj (hflush.symm.trans herror)).1
      · obtain rfl := (Prod.mk.inj (hflush.symm.trans hok)).2
        exact .inl ⟨hreadOnly, hpoisoned⟩

theorem Logged.later (h : db.Logged) (hhealthy : (db.later l).2.Healthy) :
    (db.later l).2.Logged := by
  rcases db.later_bytes l with ⟨hreadOnly, hpoisoned⟩ | ⟨part, hbytes, hcatalog⟩
  · exact .of_healthy hhealthy hreadOnly hpoisoned
  · exact h.of_append hbytes hcatalog

/-- The log of every run leads to the catalog of its handle. -/
theorem Reachable.logged (h : Reachable db) : db.Logged := by
  induction h with
  | opened h => exact .opened h
  | append points io h ih =>
    exact ih.later (l := .call (.append points) io) (h.append points io).healthy
  | commit t io h ih => exact ih.later (l := .call (.commit t) io) (h.commit t io).healthy
  | flush io h ih => exact ih.later (l := .call .flush io) (h.flush io).healthy
  | writeSealCheckpoint generation points io flushIo h ih =>
    exact ih.later (l := .writeSealCheckpoint generation points io flushIo)
      (h.writeSealCheckpoint generation points io flushIo).healthy
  | attachSealedSegments segments _ ih => exact ih.of_same rfl rfl
  | clearLiveIndex _ ih => exact ih.of_same rfl rfl
  | reclaimLiveLog order io h ih =>
    exact ih.later (l := .reclaimLiveLog order io) (h.reclaimLiveLog order io).healthy

theorem Logged.adopt (hsound : db.Sound) {order : List UInt64} {file : File} {scan : Scan}
    (h : db.compactLog order = .ok (file, scan)) : (db.adopt file scan).Logged := by
  obtain ⟨frames, t, hcompacted, hbytes, -⟩ := compactLog_eq_ok hsound h
  refine ⟨frames, [], hbytes.trans (append_nil _).symm, fun hreplay => ?_⟩
  rw [compactLog_catalog hsound h]
  exact (replay_compactLog hsound.catalog hcompacted.written hreplay).catalog

/-! ## Histories -/

/-- What can become of a handle: calls, and opens of its log at any point, also
when it is poisoned or when a reclaim has put a new log in place and failed then. -/
inductive History (db : Database) : Database → Prop
  | refl : History db db
  | later {db' : Database} (l : Later) : History db db' → History db (db'.later l).2
  | attachSealedSegments {db' : Database} (segments : List Segment) :
      History db db' → History db (db'.attachSealedSegments segments)
  | clearLiveIndex {db' : Database} : History db db' → History db db'.clearLiveIndex
  | reopen {db' db'' : Database} {config : Config} {readOnly : Bool} {published : List UInt64}
      {io : OpenIo} {file : File} : History db db' →
      openMode config readOnly published db'.file io = (.ok db'', file) → History db db''
  | reopenCompacted {db' db'' : Database} {order : List UInt64} {compacted : File} {scan : Scan}
      {config : Config} {readOnly : Bool} {published : List UInt64} {io : OpenIo} {file : File} :
      History db db' → db'.compactLog order = .ok (compacted, scan) →
      openMode config readOnly published compacted io = (.ok db'', file) → History db db''

/-- Every later call leads the catalog on. -/
theorem later_evolves (hsound : db.Sound) (l : Later) :
    db.catalog.Evolves (db.later l).2.catalog := by
  have hself := hsound.catalog.evolves_self
  have hcommit : ∀ t io, db.catalog.Evolves (db.commit t io).2.catalog := by
    intro t io
    rcases db.commit_catalog t io with hsame | ⟨catalog, happlied, hcatalog⟩
    · rw [hsame]
      exact hself
    · rw [hcatalog]
      exact hsound.catalog.evolves happlied
  cases l with
  | call c io =>
    cases c with
    | append points =>
      show db.catalog.Evolves (db.append points io).2.catalog
      rw [append_catalog]
      exact hself
    | commit t => exact hcommit t io
    | commitIngress identity t => exact hcommit (t.withIngressIdentity identity) io
    | flush =>
      show db.catalog.Evolves (db.flush io).2.catalog
      rw [(db.flush_same io).2]
      exact hself
  | writeSealCheckpoint generation points io flushIo =>
    obtain ⟨_, -, hsame⟩ := db.writeSealCheckpoint_same generation points io flushIo
    rw [later, hsame]
    exact hself
  | reclaimLiveLog order io =>
    rw [later, reclaimLiveLog_catalog hsound]
    exact hself

theorem History.reachable (h : History db db') (hreachable : Reachable db) : Reachable db' := by
  induction h with
  | refl => exact hreachable
  | later l _ ih => exact ih.later l
  | attachSealedSegments segments _ ih => exact ih.attachSealedSegments segments
  | clearLiveIndex _ ih => exact ih.clearLiveIndex
  | reopen _ hopen _ => exact .opened hopen
  | reopenCompacted _ _ hopen _ => exact .opened hopen

/-- So does a whole history. -/
theorem History.evolves (h : History db db') (hreachable : Reachable db) :
    db.catalog.Evolves db'.catalog := by
  induction h with
  | refl => exact hreachable.sound.catalog.evolves_self
  | later l hbefore ih => exact ih.trans (later_evolves (hbefore.reachable hreachable).sound l)
  | attachSealedSegments _ _ ih => exact ih
  | clearLiveIndex _ ih => exact ih
  | reopen hbefore hopen ih => exact ih.trans ((hbefore.reachable hreachable).logged.evolves hopen)
  | reopenCompacted hbefore hcompact hopen ih =>
    have hsound := (hbefore.reachable hreachable).sound
    rw [← compactLog_catalog hsound hcompact] at ih
    exact ih.trans ((Logged.adopt hsound hcompact).evolves hopen)

/-- What holds of the catalog from a handle on. -/
structure KeepsCatalog (db : Database) : Prop where
  integral : ∀ db', History db db' → db'.catalog.Integral
  /-- Between any two moments. -/
  evolves : ∀ db' db'', History db db' → History db' db'' → db'.catalog.Evolves db''.catalog
  rejected : ∀ db' t io e, History db db' → (db'.commit t io).1 = .error e →
    (db'.commit t io).2.catalog = db'.catalog
  /-- The points of an accepted transaction resolve from then on. -/
  points : ∀ db' db'' t io commit, History db db' → (db'.commit t io).1 = .ok commit →
    commit.deduplicated = false → History (db'.commit t io).2 db'' →
    ∀ r ∈ t.records, ∀ p ∈ r.pointList,
      p.seriesId ∈ db''.catalog.series ∧ (p.runId ≠ 0 → p.runId ∈ db''.catalog.runs)

theorem Reachable.keepsCatalog (h : Reachable db) : db.KeepsCatalog where
  integral db' hhistory := (hhistory.reachable h).sound.catalog.integral
  evolves db' db'' hbefore hafter := hafter.evolves (hbefore.reachable h)
  rejected db' t io e _ herror := by
    have hentered := db'.commit_entered t io
    generalize db'.commit t io = outcome at hentered herror
    cases hentered with
    | nothing => cases herror
    | failed hsame => exact hsame
    | entered => cases herror
  points db' db'' t io commit hbefore hok hnew hafter := by
    have hevolves := hafter.evolves ((hbefore.reachable h).commit t io)
    have hentered := db'.commit_entered t io
    generalize db'.commit t io = outcome at hentered hok hevolves
    cases hentered with
    | nothing _ hempty =>
      cases hok
      rw [hempty hnew]
      exact fun r hr => nomatch hr
    | failed => cases hok
    | entered happlied hcatalog =>
      intro r hr p hp
      obtain ⟨hseries, hrun⟩ := Catalog.resolves_of_applyRecords happlied r hr p hp
      rw [← hcatalog] at hseries hrun
      exact ⟨hevolves.series _ hseries, fun hne => hevolves.mem_runs (hrun hne)⟩

end Database

set_option maxRecDepth 20000 in
/-- A log with one meter in it. -/
theorem keepsCatalog_meter :
    letI := Jiff.withoutZones
    ∃ db : Database, db.Reachable ∧ (1 : EntityId) ∈ db.catalog.entities ∧ db.KeepsCatalog := by
  let _ := Jiff.withoutZones
  let meter : Transaction :=
    { commitId := none
      records := [.entity
        { id := 1, kind := "meter", name := "main", parent := none, validFrom := 0, validTo := none,
          properties := ∅ }] }
  have hrun : (Database.openMode {} false [] .empty {}).1.map (fun db =>
      decide ((1 : EntityId) ∈ (db.commit meter {}).2.catalog.entities)) = .ok true := by
    decide +kernel
  obtain ⟨db, hopen, hrun⟩ := map_eq_ok.mp hrun
  have hreachable : (db.commit meter {}).2.Reachable := .commit _ _ (.opened (Prod.ext hopen rfl))
  exact ⟨_, hreachable, of_decide_eq_true hrun, hreachable.keepsCatalog⟩

end Ftwdb
