import Ftwdb.Lib.KeyedMap
import Ftwdb.Store.Manifest

/-!
# Laws of manifest directories

A published file is read back as the manifest it was written for
(`Manifest.read_encodeFile`).  `Manifests.load_eq_ok` says which manifest
`load` gives: that of the highest generation that can be read.  Everything else
about publishing and pruning is read off from it.
-/

namespace Ftwdb

open ByteCodec Check List

namespace Manifest

/-- A file that `load` passes over. -/
def Unreadable (bytes : Bytes) (generation : UInt64) : Prop :=
  ∃ e, read bytes generation = .error e ∧ ∀ reason, e ≠ .invalidConfig reason

theorem generation_of_read {bytes : Bytes} {generation : UInt64} {m : Manifest}
    (h : read bytes generation = .ok m) : m.generation = generation := by
  simp only [read, bind_eq_ok, failIf_eq_ok, mapError_eq_ok, not_not, Except.ok.injEq] at h
  obtain ⟨_, -, _, -, _, -, _, -, _, -, _, -, _, -, m', -, _, hgeneration, _, -, rfl⟩ := h
  exact hgeneration

@[simp] theorem length_headerFields (payload : Bytes) : (headerFields payload).length = 20 := by
  simp [headerFields, magic]

theorem slice_fileBytes (payload : Bytes) :
    slice (fileBytes payload) 0 20 = headerFields payload ∧
      slice (fileBytes payload) 20 24 = leU32 (Crc32.hash (headerFields payload)) ∧
      (fileBytes payload).drop headerBytes = payload := by
  have hlength := length_headerFields payload
  refine ⟨slice_left hlength, ?_, ?_⟩
  · rw [fileBytes, slice_skip hlength.le, hlength, slice_left (by simp)]
  · rw [fileBytes, headerBytes, ← append_assoc, drop_left' (by simp)]

theorem slice_headerFields (payload more : Bytes) :
    slice (headerFields payload ++ more) 0 8 = magic ∧
      slice (headerFields payload ++ more) 8 10 = leU16 version ∧
      slice (headerFields payload ++ more) 10 12 = [0, 0] ∧
      slice (headerFields payload ++ more) 12 16 = leU32 (UInt32.ofNat payload.length) ∧
      slice (headerFields payload ++ more) 16 20 = leU32 (Crc32.hash payload) := by
  -- the first twelve bytes are literals
  have hrest : ∀ lo hi, slice (headerFields payload ++ more) (12 + lo) (12 + hi) =
      slice (leU32 (UInt32.ofNat payload.length) ++ (leU32 (Crc32.hash payload) ++ more))
        lo hi := by
    intro lo hi
    have hsplit : headerFields payload ++ more =
        (magic ++ (leU16 version ++ [0, 0])) ++
          (leU32 (UInt32.ofNat payload.length) ++ (leU32 (Crc32.hash payload) ++ more)) := by
      simp [headerFields]
    have hlength : (magic ++ (leU16 version ++ [0, 0])).length = 12 := rfl
    rw [hsplit, slice_skip (by omega), hlength, Nat.add_sub_cancel_left, Nat.add_sub_cancel_left]
  refine ⟨rfl, rfl, rfl, ?_, ?_⟩
  · rw [show 12 = 12 + 0 from rfl, show 16 = 12 + 4 from rfl, hrest, slice_left (by simp)]
  · rw [show 16 = 12 + 4 from rfl, show 20 = 12 + 8 from rfl, hrest, slice_skip (by simp),
      length_leU32, slice_left (by simp)]

theorem length_fileBytes (payload : Bytes) :
    (fileBytes payload).length = headerBytes + payload.length := by
  simp [fileBytes, headerBytes]
  omega

/-- A manifest is written if it is valid and not too large. -/
theorem encodeFile_eq_ok {m : Manifest} {bytes : Bytes} : m.encodeFile = .ok bytes ↔
    m.validate = .ok () ∧ (Postcard.manifest.encode m).length ≤ maxPayloadBytes ∧
      bytes = fileBytes (Postcard.manifest.encode m) := by
  simp only [encodeFile, bind_eq_ok, failIf_eq_ok, mapError_eq_ok, not_lt, not_le, Except.ok.injEq]
  constructor
  · rintro ⟨_, hvalid, _, hsmall, _, -, rfl⟩
    exact ⟨hvalid, hsmall, rfl⟩
  · rintro ⟨hvalid, hsmall, rfl⟩
    have hmax : maxPayloadBytes < 2 ^ 32 := by decide
    exact ⟨(), hvalid, (), hsmall, (), Nat.lt_of_le_of_lt hsmall hmax, rfl⟩

/-- A published file is read as what was published. -/
theorem read_encodeFile {m : Manifest} {bytes : Bytes} (h : m.encodeFile = .ok bytes) :
    read bytes m.generation = .ok m := by
  obtain ⟨hvalid, hsmall, rfl⟩ := encodeFile_eq_ok.mp h
  have hmax : maxPayloadBytes < 2 ^ 32 := by decide
  have hdecode : Postcard.manifest.fromBytes (Postcard.manifest.encode m) = some m :=
    Postcard.manifest.fromBytes_encode m (by omega)
  generalize Postcard.manifest.encode m = payload at *
  obtain ⟨hfields, hsum, hpayload⟩ := slice_fileBytes payload
  obtain ⟨hmagic, hversion, hflags, hlength, hcrc⟩ :=
    slice_headerFields payload (leU32 (Crc32.hash (headerFields payload)) ++ payload)
  rw [← fileBytes] at hmagic hversion hflags hlength hcrc
  have htoNat : (UInt32.ofNat payload.length).toNat = payload.length :=
    UInt32.toNat_ofNat_of_lt' (Nat.lt_of_le_of_lt hsmall hmax)
  have hversion' : version ≠ versionV1 ∧ version ≠ versionV2 := by decide
  simp only [read, bind_eq_ok, failIf_eq_ok, mapError_eq_ok, hmagic, hversion, hflags, hlength,
    hcrc, hfields, hsum, hpayload, length_fileBytes, readU16_leU16, readU32_leU32, htoNat]
  refine ⟨(), by omega, (), by simp, (), by simp, (), by simp, (), by simp, (), by omega,
    (), by simp, m, ?_, (), by simp, (), hvalid, rfl⟩
  rw [decodePayload, if_neg hversion'.1, if_neg hversion'.2, hdecode]

end Manifest

namespace Manifests

open Manifest

variable {dir : Manifests}

variable {generation : UInt64} {bytes : Bytes} {files : List (UInt64 × Bytes)} {m : Manifest}
  {next : Manifest}

theorem mem_candidates :
    (generation, bytes) ∈ dir.candidates ↔ dir[generation]? = some bytes := by
  rw [candidates, mem_reverse, Std.ExtTreeMap.mem_toList_iff_getElem?_eq_some]

/-- The newest generation comes first. -/
theorem descending_candidates (dir : Manifests) :
    dir.candidates.Pairwise fun a b => b.1 < a.1 := by
  rw [candidates, pairwise_reverse]
  refine Std.ExtTreeMap.ordered_keys_toList.imp fun {a b} hab => ?_
  exact Std.compare_eq_lt.mp hab

/-- The first readable file, past unreadable ones. -/
theorem loadFirst_eq_ok {last : Option Error} :
    loadFirst last files = .ok m ↔ ∃ before bytes after,
      files = before ++ (m.generation, bytes) :: after ∧ read bytes m.generation = .ok m ∧
        ∀ c ∈ before, Unreadable c.2 c.1 := by
  induction files generalizing last with
  | nil => simp [loadFirst]
  | cons c files ih =>
    obtain ⟨generation, bytes⟩ := c
    rw [loadFirst]
    constructor
    · intro h
      cases hread : read bytes generation with
      | ok m' =>
        simp only [hread] at h
        cases h
        have hgeneration := generation_of_read hread
        subst hgeneration
        exact ⟨[], bytes, files, rfl, hread, nofun⟩
      | error e =>
        simp only [hread] at h
        cases e with
        | invalidConfig reason => cases h
        | _ =>
          obtain ⟨before, bytes', after, rfl, hm, hbefore⟩ := ih.mp h
          refine ⟨(generation, bytes) :: before, bytes', after, rfl, hm, ?_⟩
          rw [forall_mem_cons]
          exact ⟨⟨_, hread, nofun⟩, hbefore⟩
    · rintro ⟨before, bytes', after, heq, hm, hbefore⟩
      cases before with
      | nil =>
        obtain ⟨hfirst, rfl⟩ := List.cons.inj heq
        cases hfirst
        simp only [hm]
      | cons c before =>
        obtain ⟨rfl, rfl⟩ := List.cons.inj heq
        obtain ⟨⟨e, hread, hskip⟩, hrest⟩ := forall_mem_cons.mp hbefore
        simp only at hread
        simp only [hread]
        cases e with
        | invalidConfig reason => exact absurd rfl (hskip reason)
        | _ => exact ih.mpr ⟨before, bytes', after, rfl, hm, hrest⟩

/-- The manifest of the highest generation that can be read. -/
structure Newest (dir : Manifests) (m : Manifest) : Prop where
  stored : ∃ bytes, dir[m.generation]? = some bytes ∧ read bytes m.generation = .ok m
  above : ∀ {generation : UInt64} {bytes : Bytes}, dir[generation]? = some bytes →
    m.generation < generation → Unreadable bytes generation

theorem Newest.of_candidates {before after : List (UInt64 × Bytes)}
    (heq : dir.candidates = before ++ (m.generation, bytes) :: after)
    (hread : read bytes m.generation = .ok m) (hbefore : ∀ c ∈ before, Unreadable c.2 c.1) :
    dir.Newest m where
  stored := ⟨bytes, mem_candidates.mp (by simp [heq]), hread⟩
  above := by
    intro generation bytes' hget hlt
    have hmem := mem_candidates.mpr hget
    rw [heq] at hmem
    rcases mem_append.mp hmem with hmem | hmem
    · exact hbefore _ hmem
    -- what comes later is older
    have hdescending := descending_candidates dir
    rw [heq, pairwise_append, pairwise_cons] at hdescending
    rcases mem_cons.mp hmem with hmem | hmem
    · rw [(Prod.mk.inj hmem).1] at hlt
      exact absurd hlt (Std.lt_irrefl)
    · exact absurd hlt (Std.not_lt.mpr (Std.le_of_lt (hdescending.2.1.1 _ hmem)))

theorem Newest.candidates (h : dir.Newest m) :
    ∃ before bytes after, dir.candidates = before ++ (m.generation, bytes) :: after ∧
      read bytes m.generation = .ok m ∧ ∀ c ∈ before, Unreadable c.2 c.1 := by
  obtain ⟨bytes, hget, hread⟩ := h.stored
  obtain ⟨before, after, heq⟩ := append_of_mem (mem_candidates.mpr hget)
  refine ⟨before, bytes, after, heq, hread, fun c hc => ?_⟩
  have hdescending := descending_candidates dir
  rw [heq, pairwise_append] at hdescending
  refine h.above (mem_candidates.mp ?_) (hdescending.2.2 c hc _ mem_cons_self)
  rw [heq]
  exact mem_append_left _ hc

/-- An empty directory, or its newest readable generation. -/
theorem load_eq_ok :
    dir.load = .ok m ↔ (dir = ∅ ∧ m = {}) ∨ dir.Newest m := by
  rw [load]
  cases hcandidates : dir.candidates with
  | nil =>
    have hempty : dir = ∅ := by
      rwa [Manifests.candidates, reverse_eq_nil_iff, Std.ExtTreeMap.toList_eq_nil_iff]
        at hcandidates
    simp only [Except.ok.injEq]
    constructor
    · rintro rfl
      exact .inl ⟨hempty, rfl⟩
    · rintro (⟨-, rfl⟩ | hnewest)
      · rfl
      · obtain ⟨before, bytes, after, heq, -⟩ := hnewest.candidates
        simp [hcandidates] at heq
  | cons c cs =>
    simp only [loadFirst_eq_ok, ← hcandidates]
    constructor
    · rintro ⟨before, bytes, after, heq, hread, hbefore⟩
      exact .inr (.of_candidates heq hread hbefore)
    · rintro (⟨rfl, -⟩ | hnewest)
      · cases hcandidates
      · exact hnewest.candidates

/-! ## Publishing -/

/-- A generation is published under a number of its own. -/
theorem publish_eq_ok {io : PublishIo} {dir' : Manifests}
    (h : dir.publish next io = (.ok (), dir')) : ∃ bytes, next.encodeFile = .ok bytes ∧
      next.generation ∉ dir ∧ io = .done ∧ dir' = dir.insert next.generation bytes := by
  rw [publish] at h
  cases hencode : next.encodeFile with
  | error e =>
    rw [hencode] at h
    cases h
  | ok bytes =>
    simp only [hencode] at h
    split at h
    · cases h
    · next hfree =>
      cases io with
      | done => exact ⟨bytes, rfl, hfree, rfl, (Prod.mk.inj h).2.symm⟩
      | failsBeforeLink => cases h
      | failsAfterLink => cases h

/-- Without an error of the system a publication fails only if the manifest
cannot be encoded or its generation exists. -/
theorem publish_done_eq_error {e : Error} {dir' : Manifests}
    (h : dir.publish next .done = (.error e, dir')) : dir' = dir ∧
      (next.encodeFile = .error e ∨ e = .io ∧ next.generation ∈ dir) := by
  rw [publish] at h
  cases hencode : next.encodeFile with
  | error e' =>
    rw [hencode] at h
    cases h
    exact ⟨rfl, .inl rfl⟩
  | ok bytes =>
    simp only [hencode] at h
    split at h
    · next hmem =>
      cases h
      exact ⟨rfl, .inr ⟨rfl, hmem⟩⟩
    · cases h

theorem publish_of_free (hencode : next.encodeFile = .ok bytes)
    (hfree : next.generation ∉ dir) :
    dir.publish next .done = (.ok (), dir.insert next.generation bytes) := by
  rw [publish, hencode]
  simp only [if_neg hfree]

theorem publish_of_mem (hencode : next.encodeFile = .ok bytes)
    (hmem : next.generation ∈ dir) (io : PublishIo) : dir.publish next io = (.error .io, dir) := by
  rw [publish, hencode]
  simp only [if_pos hmem]

/-- A published generation is the newest. -/
theorem Newest.insert (hload : dir.load = .ok m)
    (hencode : next.encodeFile = .ok bytes) (hlt : m.generation < next.generation) :
    Newest (dir.insert next.generation bytes) next where
  stored := ⟨bytes, by rw [KeyedMap.getElem?_insert_eq, if_pos rfl], read_encodeFile hencode⟩
  above := by
    intro generation bytes' hget hgreater
    rw [KeyedMap.getElem?_insert_eq, if_neg (Std.ne_of_lt hgreater)] at hget
    rcases load_eq_ok.mp hload with ⟨rfl, -⟩ | hnewest
    · rw [Std.ExtTreeMap.getElem?_empty] at hget
      cases hget
    · exact hnewest.above hget (Std.lt_trans hlt hgreater)

/-! ## Pruning -/

theorem mem_retained {loaded generation : UInt64} :
    (generation, bytes) ∈ dir.retained loaded ↔ dir[generation]? = some bytes ∧
      ((generation, bytes) ∈ dir.candidates.take (1 + retainedFallbackGenerations) ∨
        generation = loaded) := by
  rw [retained, mem_append, mem_filter, decide_eq_true_eq, ← mem_candidates]
  constructor
  · rintro (hmem | ⟨hmem, hloaded⟩)
    · exact ⟨mem_of_mem_take hmem, .inl hmem⟩
    · exact ⟨mem_of_mem_drop hmem, .inr hloaded⟩
  · rintro ⟨hmem, hkeep⟩
    rw [← take_append_drop (1 + retainedFallbackGenerations) dir.candidates,
      mem_append] at hmem
    rcases hkeep with hkeep | hloaded
    · exact .inl hkeep
    · exact hmem.imp_right fun hmem => ⟨hmem, hloaded⟩

/-- What a prune leaves. -/
theorem getElem?_prune {loaded : UInt64} {stuck : List UInt64} :
    (dir.prune loaded stuck)[generation]? = some bytes ↔
      dir[generation]? = some bytes ∧
        ((generation, bytes) ∈ dir.retained loaded ∨ generation ∈ stuck) := by
  rw [prune, Std.ExtTreeMap.getElem?_filter', Option.filter_eq_some_iff, decide_eq_true_eq]
  refine and_congr_right fun hget => or_congr_left ?_
  rw [mem_map]
  constructor
  · rintro ⟨⟨generation', bytes'⟩, hmem, rfl⟩
    have hget' := (mem_retained.mp hmem).1
    rw [hget] at hget'
    rwa [Option.some.inj hget']
  · intro hmem
    exact ⟨_, hmem, rfl⟩

/-- Pruning keeps the generation that was loaded. -/
theorem load_prune (h : dir.load = .ok m) (stuck : List UInt64) :
    (dir.prune m.generation stuck).load = .ok m := by
  rcases load_eq_ok.mp h with ⟨rfl, rfl⟩ | hnewest
  · exact h
  · refine load_eq_ok.mpr (.inr ⟨?_, fun hget hlt => ?_⟩)
    · obtain ⟨bytes, hget, hread⟩ := hnewest.stored
      exact ⟨bytes, getElem?_prune.mpr ⟨hget, .inl (mem_retained.mpr ⟨hget, .inr rfl⟩)⟩, hread⟩
    · exact hnewest.above (getElem?_prune.mp hget).1 hlt

theorem readAll_eq_ok {manifests : List Manifest}
    (h : readAll files = .ok manifests)
    (hmem : (generation, bytes) ∈ files) (hread : read bytes generation = .ok m) :
    m ∈ manifests := by
  obtain ⟨m', hm', hread'⟩ := exists_mem_of_mapM h hmem
  obtain rfl : m = m' := Except.ok.inj (hread.symm.trans hread')
  exact hm'

/-- A retained file that cannot be read stops the collection. -/
theorem readAll_unreadable
    (hmem : (generation, bytes) ∈ files) {e : Error} (hread : read bytes generation = .error e) :
    ∃ e', readAll files = .error e' := by
  cases h : readAll files with
  | error e' => exact ⟨e', rfl⟩
  | ok manifests =>
    obtain ⟨m, -, hm⟩ := exists_mem_of_mapM h hmem
    cases hread.symm.trans hm

end Manifests

end Ftwdb
