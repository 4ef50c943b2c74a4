import Ftwdb.Storage.WriterLog

/-!
# Recovery of a cut log

A run of calls on one handle, and the log it leaves, cut at any length: the
recovered tables are those that the writer had when the last frame within the
cut was written.  The induction is on the calls; `call_follows` is its step.
-/

namespace Ftwdb

open ByteCodec KeyedMap List

/-! ## Runs of calls -/

/-- The calls of a writer that add to the log. -/
inductive Call where
  | append (points : List Point)
  | commit (transaction : Transaction)
  | commitIngress (identity : IngressIdentity) (transaction : Transaction)
  | flush

namespace Database

variable [Jiff]

/-- One call; a flush has no receipt. -/
def call (db : Database) (io : Io) : Call → Outcome (Option Commit)
  | .append points => ((db.append points io).1.map some, (db.append points io).2)
  | .commit t => ((db.commit t io).1.map some, (db.commit t io).2)
  | .commitIngress identity t =>
    ((db.commitIngress identity t io).1.map some, (db.commitIngress identity t io).2)
  | .flush => ((db.flush io).1.map fun _ => none, (db.flush io).2)

/-- The handles along a run of calls whose writes and syncs succeed. -/
def trace (db : Database) : List Call → List Database
  | [] => [db]
  | c :: calls => db :: trace (db.call {} c).2 calls

/-- The handle at the end of such a run. -/
def finish (db : Database) (calls : List Call) : Database :=
  calls.foldl (fun db c => (db.call {} c).2) db

/-- A handle with the same tables over the same file, or one frame further. -/
def Follows (db db' : Database) (published : List UInt64) (fs : List Frame) (t : Tables) : Prop :=
  db'.config = db.config ∧
    ((db'.Rebuilt published fs t ∧ db'.file.bytes = db.file.bytes) ∨
      ∃ frame t', frame.Fits db.config.limits ∧ db'.Rebuilt published (fs ++ [frame]) t' ∧
        db'.file.bytes = db.file.bytes ++ frame.encode)

variable {published : List UInt64}

theorem Acted.follows {db : Database} {decision : Decision} {receipt : Frame → Bool → Commit}
    {tables : Frame → Option Catalog → Commit → Tables} {r : Outcome Commit}
    (hacted : Acted db decision {} receipt tables r)
    (hwrites : ∀ frame catalog durable, decision = .write frame catalog →
      db.Writes published frame (tables frame catalog (receipt frame durable))) {fs : List Frame}
    {t : Tables} (h : db.Rebuilt published fs t) (hbytes : db.file.bytes = logBytes fs) :
    db.Follows r.2 published fs t := by
  cases hacted with
  | answered => exact ⟨rfl, .inl ⟨h, rfl⟩⟩
  | refused => exact ⟨rfl, .inl ⟨⟨h.fits, h.replay, h.tables⟩, rfl⟩⟩
  | broke _ hbroke =>
    refine ⟨hbroke.config, .inl ⟨⟨?_, ?_, ?_⟩, congrArg File.bytes (hbroke.clean rfl)⟩⟩
    · rw [hbroke.config]
      exact h.fits
    · rw [hbroke.config]
      exact h.replay
    · rw [hbroke.tables]
      exact h.tables
  | @accepted frame catalog durable db' hdecision haccepted htables =>
    have hw := hwrites frame catalog durable hdecision
    rw [← htables] at hw
    obtain ⟨t', hrebuilt, -⟩ := h.accepted hbytes hw haccepted
    exact ⟨haccepted.config, .inr ⟨frame, t', hw.fits, hrebuilt, haccepted.bytes⟩⟩

/-- What a call does to the log: nothing, or one more frame. -/
theorem call_follows {db : Database} {fs : List Frame} {t : Tables}
    (h : db.Rebuilt published fs t) (hbytes : db.file.bytes = logBytes fs) (c : Call) :
    db.Follows (db.call {} c).2 published fs t := by
  cases c with
  | append points =>
    exact (db.append_acted points {}).follows
      (fun _ _ _ hdecision => writes_append hdecision published) h hbytes
  | commit transaction =>
    exact (db.commit_acted transaction {}).follows
      (fun _ _ durable hdecision => writes_commit hdecision published durable) h hbytes
  | commitIngress identity transaction =>
    exact (db.commit_acted (transaction.withIngressIdentity identity) {}).follows
      (fun _ _ durable hdecision => writes_commit hdecision published durable) h hbytes
  | flush =>
    rw [call]
    rcases db.flush_cases {} with ⟨e, poison, hflush, -⟩ | ⟨-, -, hflush⟩
    · rw [hflush]
      exact ⟨rfl, .inl ⟨⟨h.fits, h.replay, h.tables⟩, rfl⟩⟩
    · rw [hflush]
      exact ⟨rfl, .inl ⟨⟨h.fits, h.replay, h.tables⟩, rfl⟩⟩

end Database

/-! ## Cuts -/

namespace Database

/-- The last handle of a run whose log lies within `k` bytes. -/
def lastWithin (k : Nat) : List Database → Option Database
  | [] => none
  | db :: dbs => (lastWithin k dbs).or (if db.file.length ≤ k then some db else none)

theorem lastWithin_eq_none {k : Nat} {dbs : List Database} (h : ∀ d ∈ dbs, k < d.file.length) :
    lastWithin k dbs = none := by
  induction dbs with
  | nil => rfl
  | cons db dbs ih =>
    rw [lastWithin, ih fun d hd => h d (mem_cons_of_mem db hd),
      if_neg (Nat.not_le.mpr (h db mem_cons_self))]
    rfl

variable [Jiff]

variable {db : Database} {published : List UInt64} {fs : List Frame}

theorem Follows.logged {db' : Database} {t : Tables} (h : db.Follows db' published fs t)
    (hbytes : db.file.bytes = logBytes fs) :
    db.file.bytes <+: db'.file.bytes ∧
      ∃ fs' t', db'.Rebuilt published fs' t' ∧ db'.file.bytes = logBytes fs' := by
  obtain ⟨-, ⟨hrebuilt, hsame⟩ | ⟨frame, t', -, hrebuilt, hmore⟩⟩ := h
  · exact ⟨hsame ▸ prefix_refl _, fs, t, hrebuilt, hsame.trans hbytes⟩
  · refine ⟨⟨frame.encode, hmore.symm⟩, fs ++ [frame], t', hrebuilt, ?_⟩
    rw [hmore, hbytes, logBytes_append]
    simp [frameBytes_cons]

/-- The log of the first handle of a run is a beginning of all later ones. -/
theorem bytes_trace {t : Tables} (h : db.Rebuilt published fs t)
    (hbytes : db.file.bytes = logBytes fs) (calls : List Call) :
    db.file.bytes <+: (db.finish calls).file.bytes ∧
      ∀ d ∈ db.trace calls, db.file.bytes <+: d.file.bytes := by
  induction calls generalizing db fs t with
  | nil =>
    refine ⟨prefix_refl _, fun d hd => ?_⟩
    obtain rfl := mem_singleton.mp hd
    exact prefix_refl _
  | cons c calls ih =>
    obtain ⟨hfirst, fs', t', h', hbytes'⟩ := (call_follows h hbytes c).logged hbytes
    obtain ⟨hfinish, htrace⟩ := ih h' hbytes'
    refine ⟨hfirst.trans hfinish, fun d hd => ?_⟩
    rcases mem_cons.mp hd with rfl | hd
    · exact prefix_refl _
    · exact hfirst.trans (htrace d hd)

/-- The log of a run cut at `k`: the log of the last handle within the cut, and
a part of the frame that the next one wrote. -/
theorem take_finish {t : Tables} (h : db.Rebuilt published fs t)
    (hbytes : db.file.bytes = logBytes fs) (calls : List Call) {k : Nat}
    (hlow : db.file.length ≤ k) (hhigh : k ≤ (db.finish calls).file.length) :
    ∃ d fs' t' torn, lastWithin k (db.trace calls) = some d ∧ d.config = db.config ∧
      d.Rebuilt published fs' t' ∧ d.file.bytes = logBytes fs' ∧
      (db.finish calls).file.bytes.take k = logBytes fs' ++ torn ∧
      TornFrame db.config.limits torn ∧
      (torn = [] ↔ ∃ s ∈ db.trace calls, s.file.length = k) := by
  induction calls generalizing db fs t with
  | nil =>
    have hk : k = db.file.length := Nat.le_antisymm hhigh hlow
    refine ⟨db, fs, t, [], ?_, rfl, h, hbytes, ?_, .inl rfl, ?_⟩
    · rw [trace, lastWithin, if_pos hlow]
      rfl
    · rw [append_nil, ← hbytes]
      exact take_of_length_le hlow
    · simp [trace, hk]
  | cons c calls ih =>
    have hfollows := call_follows h hbytes c
    obtain ⟨hfirst, fs₁, t₁, h₁, hbytes₁⟩ := hfollows.logged hbytes
    obtain ⟨hfinish, htrace⟩ := bytes_trace h₁ hbytes₁ calls
    by_cases hle : (db.call {} c).2.file.length ≤ k
    · obtain ⟨d, fs', t', torn, hlast, hconfig, hd, hdbytes, htake, htorn, hboundary⟩ :=
        ih h₁ hbytes₁ hle hhigh
      rw [hfollows.1] at hconfig htorn
      refine ⟨d, fs', t', torn, ?_, hconfig, hd, hdbytes, htake, htorn, ?_⟩
      · rw [trace, lastWithin, hlast]
        rfl
      · rw [hboundary, trace]
        constructor
        · rintro ⟨s, hs, hk⟩
          exact ⟨s, mem_cons_of_mem db hs, hk⟩
        · rintro ⟨s, hs, hk⟩
          rcases mem_cons.mp hs with rfl | hs
          · -- the next handle is within the cut, so it wrote nothing
            have : s.file.length ≤ (s.call {} c).2.file.length := hfirst.length_le
            exact ⟨(s.call {} c).2, by cases calls <;> simp [trace], by omega⟩
          · exact ⟨s, hs, hk⟩
    · obtain ⟨frame, hfits, hmore⟩ : ∃ frame : Frame, frame.Fits db.config.limits ∧
          (db.call {} c).2.file.bytes = db.file.bytes ++ frame.encode := by
        obtain ⟨-, ⟨-, hsame⟩ | ⟨frame, -, hfits, -, hmore⟩⟩ := hfollows
        · rw [File.length, hsame] at hle
          exact absurd hlow hle
        · exact ⟨frame, hfits, hmore⟩
      obtain ⟨rest, hrest⟩ := hfinish
      have hlate : ∀ s ∈ trace (db.call {} c).2 calls, k < s.file.length := fun s hs =>
        Nat.lt_of_lt_of_le (Nat.not_le.mp hle) (htrace s hs).length_le
      have hcut : k - db.file.length < frame.encode.length := by
        rw [File.length, hmore, length_append] at hle
        rw [File.length] at hlow ⊢
        omega
      refine ⟨db, fs, t, frame.encode.take (k - db.file.length), ?_, rfl, h, hbytes, ?_,
        .inr ⟨frame, _, hfits, hcut, rfl⟩, ?_⟩
      · rw [trace, lastWithin, lastWithin_eq_none hlate, if_pos hlow]
        rfl
      · change (finish (db.call {} c).2 calls).file.bytes.take k = _
        rw [← hrest, hmore, ← hbytes, append_assoc, take_append,
          take_of_length_le hlow]
        exact congrArg _ (take_append_of_le_length (Nat.le_of_lt hcut))
      · rw [take_eq_nil_iff, trace]
        constructor
        · rintro (hzero | hnil)
          · exact ⟨db, mem_cons_self, by omega⟩
          · rw [hnil] at hcut
            exact absurd hcut (Nat.not_lt_zero _)
        · rintro ⟨s, hs, hk⟩
          rcases mem_cons.mp hs with rfl | hs
          · exact .inl (by omega)
          · exact absurd (hlate s hs) (by omega)

/-! ## Opening a cut log -/

/-- Recovery is exact and atomic.  Cut the log of any run of calls anywhere
behind its header: both opens rebuild, durability flags apart, the tables that
the writer had when the last complete frame was in the log.  The writable one
cuts the file back to that frame, and reports a torn tail unless the cut is at
the end of a frame; the read-only one leaves the bytes alone. -/
theorem openMode_take_finish (config : Config) (hconfig : config.validate = .ok ())
    (calls : List Call) :
    ∃ db₀, openMode config false [] File.empty {} = (.ok db₀, db₀.file) ∧
      ∀ (k : Nat) (file : File), databaseHeaderBytes ≤ k → k ≤ (db₀.finish calls).file.length →
        file.bytes = (db₀.finish calls).file.bytes.take k →
        ∃ d, lastWithin k (db₀.trace calls) = some d ∧
          (∃ db, openMode config false [] file {} = (.ok db, db.file) ∧
            db.toTables.forgetDurable = d.toTables.forgetDurable ∧
            db.file.bytes = d.file.bytes ∧
            (db.recoveredTail = .none ↔ ∃ s ∈ db₀.trace calls, s.file.length = k)) ∧
          (∃ db, openMode config true [] file {} = (.ok db, file) ∧
            db.toTables.forgetDurable = d.toTables.forgetDurable ∧ db.file = file) := by
  obtain ⟨db₀, hopen, hopened, -, hbytes₀, -⟩ := openExclusive_empty config []
  refine ⟨db₀, ?_, ?_⟩
  · simpa [openMode, hconfig] using hopen
  intro k file hlow hhigh hfile
  have hlength : db₀.file.length ≤ k := by
    rw [File.length, hbytes₀]
    exact hlow
  obtain ⟨d, fs, t, torn, hlast, hdconfig, hd, hdbytes, htake, htorn, hboundary⟩ :=
    take_finish hopened.toRebuilt hbytes₀ calls hlength hhigh
  rw [hopened.config] at hdconfig htorn
  have hfits := hd.fits
  have hreplay := hd.replay
  rw [hdconfig] at hfits hreplay
  have hcut : file.bytes = logBytes fs ++ torn := hfile.trans htake
  refine ⟨d, hlast, ?_, ?_⟩
  · rcases openExclusive_logged hcut hfits hreplay htorn {} with
      ⟨db, hok, hdb, -, hbytes, -⟩ | ⟨_, _, hio, _⟩
    · refine ⟨db, by simpa [openMode, hconfig] using hok, hdb.tables.trans hd.tables.symm,
        hbytes.trans hdbytes.symm, ?_⟩
      rw [hdb.tail, tailOf_eq_none, hboundary]
    · exact absurd rfl hio
  · obtain ⟨db, hok, hdb, hsame⟩ := openShared_logged hcut hfits hreplay htorn
    exact ⟨db, by simp [openMode, hconfig, hok], hdb.tables.trans hd.tables.symm, hsame⟩

end Database

namespace Database

/-- A site, and a meter in it. -/
def siteThenMeter : List Call :=
  [.commit { records := [.entity ⟨1, "site", "home", none, 0, none, ∅⟩] },
    .commit { records := [.entity ⟨2, "meter", "main", some 1, 0, none, ∅⟩] }]

set_option maxRecDepth 20000 in
/-- A cut in the frame of the meter brings back the site. -/
theorem openMode_take_finish_siteThenMeter :
    letI := Jiff.withoutZones
    ∃ db₀ : Database, openMode {} false [] .empty {} = (.ok db₀, db₀.file) ∧
      (db₀.finish siteThenMeter).file.length = 136 ∧
      ∀ file : File, file.bytes = (db₀.finish siteThenMeter).file.bytes.take 100 →
        ∃ db, openMode {} false [] file {} = (.ok db, db.file) ∧
          db.catalog.entities.keys = [1] ∧ db.file.length = 75 ∧ db.recoveredTail ≠ .none := by
  let _ := Jiff.withoutZones
  have hcomputed : (openMode {} false [] .empty {}).1.map (fun db₀ =>
      ((db₀.finish siteThenMeter).file.length, (lastWithin 100 (db₀.trace siteThenMeter)).map
        (fun d => (d.catalog.entities.keys, d.file.length)),
        (db₀.trace siteThenMeter).map fun d => d.file.length)) =
      .ok (136, some ([1], 75), [16, 75, 136]) := by
    decide +kernel
  obtain ⟨db₀, hopen, hcut⟩ := openMode_take_finish {} (by decide) siteThenMeter
  obtain ⟨db₁, hopened, hfacts⟩ := Check.map_eq_ok.mp hcomputed
  obtain rfl : db₀ = db₁ := Except.ok.inj ((congrArg Prod.fst hopen).symm.trans hopened)
  simp only [Prod.mk.injEq] at hfacts
  obtain ⟨hlength, hwithin, hlengths⟩ := hfacts
  refine ⟨db₀, hopen, hlength, fun file hfile => ?_⟩
  obtain ⟨d, hlast, ⟨db, hdb, htables, hbytes, htail⟩, -⟩ := hcut 100 file (by decide)
    (by rw [hlength]; decide) hfile
  rw [hlast] at hwithin
  obtain ⟨hkeys, hcutLength⟩ := Prod.mk.inj (Option.some.inj hwithin)
  refine ⟨db, hdb, ?_, ?_, fun hnone => ?_⟩
  · show db.toTables.forgetDurable.catalog.entities.keys = [1]
    rw [htables]
    exact hkeys
  · rw [File.length, hbytes]
    exact hcutLength
  · obtain ⟨s, hs, hk⟩ := htail.mp hnone
    have hmem : s.file.length ∈ [16, 75, 136] := hlengths ▸ mem_map_of_mem hs
    rw [hk] at hmem
    exact absurd hmem (by decide)

end Database

end Ftwdb
