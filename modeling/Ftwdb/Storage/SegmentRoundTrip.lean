import Ftwdb.Storage.Query
import Ftwdb.Storage.SegmentFile

/-!
# Reading a segment file back

Every file that is written can be opened, and its blocks are the ones that were
written (`create_opens`).  So an open file answers like the decoded segment it
backs, and this one holds the points in the order of their history.
-/

namespace Ftwdb

open ByteCodec Check StableSort
open List hiding lex

namespace StoredSegment

/-! ## Headers and entries -/

@[simp] theorem length_fields (h : BlockHeader) : h.fields.length = 48 := by
  simp [BlockHeader.fields]

@[simp] theorem length_encodeBlockHeader (h : BlockHeader) :
    (encodeBlockHeader h).length = blockHeaderBytes := by
  simp [encodeBlockHeader, blockHeaderBytes]

theorem decodeBlockHeader_encode (h : BlockHeader) (offset : Nat) :
    decodeBlockHeader (encodeBlockHeader h) offset = .ok h := by
  have hfields : ∀ {lo hi : Nat}, hi ≤ 48 →
      slice (encodeBlockHeader h) lo hi = slice h.fields lo hi := fun hhi =>
    slice_append_left (by simpa using hhi)
  have hcovered : slice (encodeBlockHeader h) 0 48 = h.fields := by
    rw [hfields (Nat.le_refl _)]
    exact slice_whole (length_fields h)
  have hcrc : slice (encodeBlockHeader h) 48 52 = leU32 (Crc32.hash h.fields) := by
    simp (disch := simp) [encodeBlockHeader, slice_skip, slice_left]
  have hreserved : slice (encodeBlockHeader h) 52 56 = [0, 0, 0, 0] := by
    simp (disch := simp) [encodeBlockHeader, slice_skip, slice_whole]
    decide
  simp only [decodeBlockHeader, hcovered, hcrc, hreserved]
  simp (disch := simp) only [hfields]
  simp (disch := simp) [BlockHeader.fields, slice_skip, slice_left, slice_whole, slice_cons_skip,
    slice_cons_one, failIf, bind, Except.bind]

@[simp] theorem length_encodeIndex (e : IndexEntry) :
    (encodeIndex e).length = indexEntryBytes := by
  simp [encodeIndex, indexEntryBytes]

@[simp] theorem decodeIndex_encodeIndex (e : IndexEntry) : decodeIndex (encodeIndex e) = e := by
  simp (disch := simp) [decodeIndex, encodeIndex, slice_skip, slice_left, slice_whole]

theorem decodeIndex_entries (index : List IndexEntry) :
    (chunksExact indexEntryBytes (index.flatMap encodeIndex)).map decodeIndex = index := by
  rw [chunksExact_flatMap (by decide) encodeIndex length_encodeIndex, map_map]
  simp [Function.comp_def]

theorem length_entries (index : List IndexEntry) :
    (index.flatMap encodeIndex).length = index.length * indexEntryBytes := by
  rw [length_flatMap]
  simp

theorem readExactAt_append {first bytes rest : Bytes} {offset n : Nat}
    (hoffset : first.length = offset)
    (hn : bytes.length = n) : readExactAt (first ++ (bytes ++ rest)) offset n = .ok bytes := by
  have hfits : offset + n ≤ (first ++ (bytes ++ rest)).length := by
    simp only [length_append]
    omega
  rw [readExactAt, if_pos hfits, slice_skip (Nat.le_of_eq hoffset), hoffset, Nat.sub_self,
    Nat.add_sub_cancel_left, slice_left hn]

/-! ## Blocks -/

/-- The blocks a writer cuts. -/
structure Sound (b : Block) : Prop where
  sorted : Sorted byValidTime b.points
  series : ∀ p ∈ b.points, p.seriesId = b.seriesId
  points : ∀ p ∈ b.points, p.validTime ≤ p.validTimeEnd ∧ p.value.isFinite = true
  few : b.points.length ≤ maxBlockPoints

/-- A block that ends before another one starts. -/
def Precedes (b b' : Block) : Prop :=
  b.seriesId < b'.seriesId ∨ (b.seriesId = b'.seriesId ∧ b.maxTime ≤ b'.minTime)

theorem Sound.minTime_le {b : Block} (h : Sound b) : b.minTime ≤ b.maxTime :=
  (Segment.time_bounds h.sorted (head_mem b.nonempty)).2

theorem Sound.wellFormed {b : Block} (h : Sound b) :
    wellFormed b.points b.minTime b.maxTime = true := by
  have hhead : b.points.head? = some (b.points.head b.nonempty) := head?_eq_some_head _
  have hlast : b.points.getLast? = some (b.points.getLast b.nonempty) :=
    getLast?_eq_some_getLast _
  have hchain : b.points.IsChain fun p q => p.validTime ≤ q.validTime :=
    (h.sorted.imp fun hpq => of_decide_eq_true hpq).isChain
  rw [StoredSegment.wellFormed, hhead, hlast]
  simp only [Option.any_some, Block.minTime, Block.maxTime, decide_true, Bool.true_and,
    decide_eq_true hchain, all_eq_true, Bool.and_eq_true, decide_eq_true_eq]
  exact h.points

theorem columns_bounds {b : Block} (hb : Sound b) {encoded : Bytes}
    (h : encodeColumns b.points = .ok encoded) :
    minimumEncodedBytes b.points.length ≤ encoded.length ∧
      encoded.length ≤ maximumEncodedBytes b.points.length ∧ encoded.length < 2 ^ 25 := by
  obtain ⟨p, ps, hpoints⟩ := exists_cons_of_ne_nil b.nonempty
  rw [hpoints] at h
  have hlength := encodeColumns_length h
  rw [← hpoints] at hlength
  have hfew := hb.few
  refine ⟨hlength.1, hlength.2, Nat.lt_of_le_of_lt hlength.2 ?_⟩
  rw [maxBlockPoints] at hfew
  rw [maximumEncodedBytes, columnCount]
  omega

/-- Entries of neighbours pass the order test. -/
theorem entryOf_ordered {b b' : Block} (hb : Sound b) (h : Precedes b b')
    (offset length offset' length' : Nat) :
    ¬ ((entryOf b' offset' length').before (entryOf b offset length) ∨
      ((entryOf b' offset' length').seriesId = (entryOf b offset length).seriesId ∧
        (entryOf b' offset' length').minTime < (entryOf b offset length).maxTime)) := by
  simp only [IndexEntry.before, entryOf]
  rcases h with hlt | ⟨hsame, hle⟩
  · rintro ((hback | ⟨heq, -⟩) | ⟨heq, -⟩)
    · exact Std.lt_irrefl (Std.lt_trans hlt hback)
    · exact Std.lt_irrefl (heq ▸ hlt)
    · exact Std.lt_irrefl (heq ▸ hlt)
  · rintro ((hback | ⟨-, hback⟩) | ⟨-, hback⟩)
    · exact Std.lt_irrefl (hsame ▸ hback)
    · exact Std.not_lt.mpr (Std.le_trans hb.minTime_le hle) hback
    · exact Std.not_lt.mpr hle hback

section Write

variable [Lz4]

theorem unpackBlock_packed {encoded payload : Bytes} {header : BlockHeader}
    (hpacked : Packed encoded header.compression payload)
    (hlength : header.uncompressedLen.toNat = encoded.length) (hsmall : encoded.length < 2 ^ 32)
    (offset : Nat) : unpackBlock header payload offset = .ok encoded := by
  generalize hc : header.compression = compression at hpacked
  cases hpacked with
  | raw => simp [unpackBlock, hc]
  | lz4 hshort =>
    have hratio : ¬ ((compressPrependSize encoded).length - 4) * maxLz4Ratio < encoded.length := by
      rw [length_compressPrependSize, Nat.add_sub_cancel_left]
      exact Nat.not_lt.mpr (Lz4.length_le encoded)
    rw [unpackBlock, hc, if_neg (by decide), if_pos rfl]
    simp only [hlength, size_compressPrependSize hsmall, drop_compressPrependSize,
      Lz4.decompress_compress, failIf, if_neg not_short_compressPrependSize, if_neg hratio, ne_eq,
      not_true_eq_false, if_false]
    rfl

variable {b : Block}

/-- What a written block is. -/
structure Stored (b : Block) (bytes : Bytes) (header : BlockHeader) (encoded payload : Bytes) :
    Prop where
  whole : bytes = encodeBlockHeader header ++ payload
  columns : encodeColumns b.points = .ok encoded
  packed : Packed encoded header.compression payload
  describes : header = blockHeaderOf b header.compression payload
  uncompressedLen : header.uncompressedLen.toNat = encoded.length

theorem uncompressedLen_packed {tag : UInt8} {encoded payload : Bytes}
    (h : Packed encoded tag payload) (hsmall : encoded.length < 2 ^ 32) :
    (blockHeaderOf b tag payload).uncompressedLen.toNat = encoded.length := by
  cases h with
  | raw => simp [blockHeaderOf, UInt32.toNat_ofNat_of_lt' hsmall]
  | lz4 _ =>
    rw [blockHeaderOf, if_neg (by decide), size_compressPrependSize hsmall]

theorem exists_stored (hb : Sound b) {encoded : Bytes}
    (h : encodeColumns b.points = .ok encoded) :
    ∃ bytes header payload, encodeBlock b = .ok bytes ∧ Stored b bytes header encoded payload := by
  obtain ⟨-, -, hsmall⟩ := columns_bounds hb h
  have hpacked := packed_packBlock encoded
  have hpayload := hpacked.length_le
  have hfew := hb.few
  rw [maxBlockPoints] at hfew
  have hlarge : ¬ 2 ^ 32 ≤ (packBlock encoded).2.length := by omega
  have hmany : ¬ 2 ^ 32 ≤ b.points.length := by omega
  have hlength : ¬ 2 ^ 32 ≤ blockHeaderBytes + (packBlock encoded).2.length := by
    rw [blockHeaderBytes]
    omega
  refine ⟨_, blockHeaderOf b (packBlock encoded).1 (packBlock encoded).2, _, ?_,
    ⟨rfl, h, hpacked, rfl, uncompressedLen_packed hpacked (by omega)⟩⟩
  simp only [encodeBlock, h, bind, Except.bind, failIf, if_neg hlarge, if_neg hmany, if_neg hlength]

theorem encodeBlock_eq_ok (hb : Sound b) {bytes : Bytes} (h : encodeBlock b = .ok bytes) :
    ∃ header encoded payload, Stored b bytes header encoded payload := by
  have hcolumns := h
  rw [encodeBlock, bind_eq_ok] at hcolumns
  obtain ⟨encoded, hcolumns, -⟩ := hcolumns
  obtain ⟨bytes', header, payload, h', hstored⟩ := exists_stored hb hcolumns
  obtain rfl := Except.ok.inj (h.symm.trans h')
  exact ⟨header, encoded, payload, hstored⟩

section Stored
variable {b : Block} {bytes encoded payload : Bytes} {header : BlockHeader}

theorem Stored.length (h : Stored b bytes header encoded payload) :
    bytes.length = blockHeaderBytes + payload.length := by
  rw [h.whole, length_append, length_encodeBlockHeader]

/-- A written block takes less than `2 ^ 26` bytes, and enough for its points. -/
theorem Stored.bounds (h : Stored b bytes header encoded payload) (hb : Sound b) :
    bytes.length < 2 ^ 26 ∧
      minimumEncodedBytes b.points.length ≤ (bytes.length - blockHeaderBytes) * maxLz4Ratio := by
  obtain ⟨hlow, -, hsmall⟩ := columns_bounds hb h.columns
  have hpayload := h.packed.length_le
  have hcapacity := h.packed.capacity
  rw [h.length]
  constructor
  · rw [blockHeaderBytes]
    omega
  · rw [Nat.add_sub_cancel_left]
    exact Nat.le_trans hlow hcapacity

/-- The numbers of the index entry of a written block. -/
theorem Stored.entry (h : Stored b bytes header encoded payload) (hb : Sound b) {offset : Nat}
    (hoffset : offset < 2 ^ 64) :
    (entryOf b offset bytes.length).offset.toNat = offset ∧
      (entryOf b offset bytes.length).length.toNat = bytes.length ∧
      (entryOf b offset bytes.length).points.toNat = b.points.length :=
  ⟨UInt64.toNat_ofNat_of_lt' hoffset,
    UInt32.toNat_ofNat_of_lt' (Nat.lt_trans (h.bounds hb).1 (by decide)),
    UInt32.toNat_ofNat_of_lt' (Nat.lt_of_le_of_lt hb.few (by decide))⟩

/-- A written block is read back. -/
theorem readBlock_stored (h : Stored b bytes header encoded payload) (hb : Sound b)
    {first rest : Bytes} (hoffset : first.length < 2 ^ 64) :
    readBlock (first ++ (bytes ++ rest)) (entryOf b first.length bytes.length) = .ok b.points := by
  obtain ⟨hlow, hhigh, hsmall⟩ := columns_bounds hb h.columns
  have hpayload : payload.length < 2 ^ 32 := by
    have := h.packed.length_le
    omega
  obtain ⟨hentry, hentryLen, hfew⟩ := h.entry hb hoffset
  rw [h.length] at hentryLen
  have hfile : first ++ (bytes ++ rest) =
      (first ++ encodeBlockHeader header) ++ (payload ++ rest) := by
    rw [h.whole]
    simp
  have hheader : readExactAt (first ++ (bytes ++ rest)) first.length blockHeaderBytes =
      .ok (encodeBlockHeader header) := by
    rw [h.whole, append_assoc]
    exact readExactAt_append rfl (length_encodeBlockHeader header)
  have hbody : readExactAt (first ++ (bytes ++ rest)) (first.length + blockHeaderBytes)
      payload.length = .ok payload := by
    rw [hfile]
    exact readExactAt_append (by simp) rfl
  have hpoints : header.points.toNat = b.points.length := by
    rw [h.describes]
    exact hfew
  have hpayloadLen : header.payloadLen.toNat = payload.length := by
    rw [h.describes]
    exact UInt32.toNat_ofNat_of_lt' hpayload
  have hdecoded := decodeColumns_encodeColumns first.length b.nonempty hb.series h.columns
  have hwell := hb.wellFormed
  simp only [readBlock, bind_eq_ok, failIf_eq_ok, hentry]
  refine ⟨_, hheader, header, decodeBlockHeader_encode header _, (), ?_, (), ?_, payload, ?_, (),
    ?_,
    encoded, unpackBlock_packed h.packed h.uncompressedLen (by omega) _, (), ?_, b.points, ?_, (),
    ?_, rfl⟩
  · rw [hpayloadLen, h.length, hentryLen, h.describes]
    simp [blockHeaderOf, entryOf]
  · rw [h.uncompressedLen, hpoints]
    omega
  · rw [hpayloadLen]
    exact hbody
  · rw [h.describes]
    simp [blockHeaderOf]
  · simp [h.uncompressedLen]
  · rw [hpoints, h.describes]
    exact hdecoded
  · rw [h.describes]
    simp [blockHeaderOf, hwell]

end Stored

/-! ## All blocks of a file -/

/-- An entry and the block it leads to. -/
structure Describes (file : Bytes) (e : IndexEntry) (b : Block) : Prop where
  seriesId : e.seriesId = b.seriesId
  minTime : e.minTime = b.minTime
  maxTime : e.maxTime = b.maxTime
  points : e.points.toNat = b.points.length
  read : readBlock file e = .ok b.points

variable {blocks : List Block} {index : List IndexEntry}

/-- The first of the written blocks and the others. -/
theorem writeBlocks_cons {offset : Nat} {b : Block} {body : Bytes}
    (hsound : ∀ c ∈ b :: blocks, Sound c)
    (h : writeBlocks offset (b :: blocks) = .ok (body, index)) :
    ∃ bytes header encoded payload rest index', Stored b bytes header encoded payload ∧
      writeBlocks (offset + bytes.length) blocks = .ok (rest, index') ∧
      body = bytes ++ rest ∧ index = entryOf b offset bytes.length :: index' ∧
      Sound b ∧ ∀ c ∈ blocks, Sound c := by
  obtain ⟨hb, hblocks⟩ := forall_mem_cons.mp hsound
  simp only [writeBlocks, bind_eq_ok] at h
  obtain ⟨bytes, hbytes, ⟨rest, index'⟩, hrest, h⟩ := h
  cases h
  obtain ⟨header, encoded, payload, hstored⟩ := encodeBlock_eq_ok hb hbytes
  exact ⟨bytes, header, encoded, payload, rest, index', hstored, hrest, rfl, rfl, hb, hblocks⟩

/-- Every entry leads to its block. -/
theorem writeBlocks_describes (hsound : ∀ b ∈ blocks, Sound b)
    {first body : Bytes}
    (h : writeBlocks first.length blocks = .ok (body, index))
    (hlength : first.length + body.length < 2 ^ 64) (rest : Bytes) :
    List.Forall₂ (Describes (first ++ (body ++ rest))) index blocks := by
  induction blocks generalizing first body index with
  | nil =>
    cases h
    exact .nil
  | cons b blocks ih =>
    obtain ⟨bytes, _, _, _, tail, index', hstored, htail, rfl, rfl, hb, hblocks⟩ :=
      writeBlocks_cons hsound h
    rw [length_append] at hlength
    have hoffset : first.length < 2 ^ 64 := by omega
    constructor
    · rw [append_assoc]
      exact ⟨rfl, rfl, rfl, (hstored.entry hb hoffset).2.2, readBlock_stored hstored hb hoffset⟩
    · have hfile : first ++ (bytes ++ tail ++ rest) = (first ++ bytes) ++ (tail ++ rest) := by simp
      rw [hfile]
      refine ih hblocks ?_ ?_
      · rwa [length_append]
      · rw [length_append]
        omega

/-- The index of written blocks passes all checks. -/
theorem validateEntries_writeBlocks (hsound : ∀ b ∈ blocks, Sound b)
    (hchain : blocks.IsChain Precedes) {offset indexOffset : Nat} {body : Bytes}
    (h : writeBlocks offset blocks = .ok (body, index))
    (hend : offset + body.length ≤ indexOffset) (hindex : indexOffset < 2 ^ 64) (points : Nat)
    (previous : Option IndexEntry) (hprevious : ∀ q ∈ previous, ∀ b ∈ blocks.head?,
      ∃ b' offset length, q = entryOf b' offset length ∧ Sound b' ∧ Precedes b' b) :
    validateEntries indexOffset previous points offset index =
      .ok (points + (blocks.map fun b => b.points.length).sum, offset + body.length) := by
  induction blocks generalizing offset body index points previous with
  | nil =>
    cases h
    rfl
  | cons b blocks ih =>
    obtain ⟨bytes, _, _, _, tail, index', hstored, htail, rfl, rfl, hb, hblocks⟩ :=
      writeBlocks_cons hsound h
    obtain ⟨hsmall, hcapacity⟩ := hstored.bounds hb
    rw [length_append] at hend
    have hfew := hb.few
    rw [maxBlockPoints] at hfew
    obtain ⟨hoffset, hlength, hpoints⟩ := hstored.entry hb (show offset < 2 ^ 64 by omega)
    have hpositive : 0 < b.points.length := length_pos_iff.mpr b.nonempty
    have hsome : (entryOf b offset bytes.length).points ≠ 0 := by
      intro hzero
      rw [hzero] at hpoints
      exact Nat.ne_of_gt hpositive hpoints.symm
    have hnext : ∀ q ∈ some (entryOf b offset bytes.length), ∀ b' ∈ blocks.head?,
        ∃ b'' offset length, q = entryOf b'' offset length ∧ Sound b'' ∧ Precedes b'' b' := by
      intro q hq b' hb'
      cases hq
      exact ⟨b, _, _, rfl, hb, List.IsChain.rel_head? hchain hb'⟩
    have hrest := ih hblocks hchain.tail htail (by omega) (points + b.points.length) _ hnext
    simp only [validateEntries, bind_eq_ok, failIf_eq_ok, ifSome_eq_ok, hpoints, hoffset, hlength]
    refine ⟨(), ?_, (), Nat.not_lt.mpr hcapacity, (), fun q hq => ?_, ?_⟩
    · rw [maxBlockPoints]
      rintro (hzero | hmany | htimes | hgap | hover | hbeyond)
      · exact hsome hzero
      · omega
      · exact Std.not_lt.mpr hb.minTime_le htimes
      · exact hgap rfl
      · omega
      · omega
    · obtain ⟨b', _, _, rfl, hb', hprecedes⟩ := hprevious q hq b rfl
      exact entryOf_ordered hb' hprecedes _ _ _ _
    · rw [hrest, map_cons, sum_cons, length_append, Nat.add_assoc, Nat.add_assoc]

theorem length_writeBlocks (hsound : ∀ b ∈ blocks, Sound b) {offset : Nat}
    {body : Bytes} (h : writeBlocks offset blocks = .ok (body, index)) :
    index.length = blocks.length ∧ body.length ≤ blocks.length * 2 ^ 26 := by
  induction blocks generalizing offset body index with
  | nil =>
    cases h
    exact ⟨rfl, Nat.le_refl _⟩
  | cons b blocks ih =>
    obtain ⟨bytes, _, _, _, tail, index', hstored, htail, rfl, rfl, hb, hblocks⟩ :=
      writeBlocks_cons hsound h
    have hsmall := (hstored.bounds hb).1
    obtain ⟨hindex, hbody⟩ := ih hblocks htail
    rw [length_cons, length_cons, length_append, hindex]
    omega

/-- Blocks are written unless a difference of times overflows. -/
theorem writeBlocks_ok_iff (hsound : ∀ b ∈ blocks, Sound b) (offset : Nat) :
    (∃ written, writeBlocks offset blocks = .ok written) ↔
      each (fun b => Ftwdb.encodeColumns b.points) blocks = .ok () := by
  induction blocks generalizing offset with
  | nil => exact ⟨fun _ => rfl, fun _ => ⟨_, rfl⟩⟩
  | cons b blocks ih =>
    obtain ⟨hb, hblocks⟩ := forall_mem_cons.mp hsound
    have hcolumns := encodeColumns_ok_iff b.nonempty hb.few
    constructor
    · rintro ⟨⟨body, index⟩, h⟩
      obtain ⟨bytes, _, encoded, _, tail, index', hstored, htail, -⟩ := writeBlocks_cons hsound h
      exact bind_eq_ok.mpr ⟨(), hcolumns.mp ⟨encoded, hstored.columns⟩,
        (ih hblocks _).mp ⟨_, htail⟩⟩
    · intro h
      obtain ⟨_, hfirst, hrest⟩ := bind_eq_ok.mp h
      obtain ⟨encoded, hencoded⟩ := hcolumns.mpr hfirst
      obtain ⟨bytes, _, _, hbytes, -⟩ := exists_stored hb hencoded
      obtain ⟨written, hwritten⟩ := (ih hblocks (offset + bytes.length)).mpr hrest
      exact ⟨_, bind_eq_ok.mpr ⟨bytes, hbytes, bind_eq_ok.mpr ⟨written, hwritten, rfl⟩⟩⟩

end Write

/-! ## Cutting -/

theorem length_le_of_mem_chunks {α : Type} {n fuel : Nat} {l part : List α}
    (h : part ∈ chunks n fuel l) : part.length ≤ n := by
  induction fuel generalizing l with
  | zero => cases h
  | succ fuel ih =>
    cases l with
    | nil => cases h
    | cons a l =>
      rcases mem_cons.mp h with rfl | h
      · exact length_take_le ..
      · exact ih h

theorem length_le_of_mem_cutBlocks {n : Nat} {l : List Point} {b : Block} (hb : b ∈ cutBlocks n l) :
    b.points.length ≤ n := by
  rw [cutBlocks, mem_flatMap] at hb
  obtain ⟨run, -, hb⟩ := hb
  obtain ⟨part, hpart, hb⟩ := mem_filterMap.mp hb
  split at hb
  · cases hb
  · cases hb
    exact length_le_of_mem_chunks hpart

section Cut
variable {points : List Point} {n : Nat}

theorem sound_of_mem_cutBlocks (hn : 0 < n) (hmost : n ≤ maxBlockPoints)
    (hpoints : validatePointIntervals points = .ok ()) (b : Block)
    (hb : b ∈ cutBlocks n (stableSort bySegment points)) : Sound b where
  sorted := (Segment.sorted_of_mem_cutBlocks hn hb).imp le_of_lex
  series := (Segment.mem_cutBlocks hn hb).2
  points := by
    intro p hp
    have hp := mem_stableSort.mp ((Segment.mem_cutBlocks hn hb).1.subset hp)
    have hvalid := each_eq_ok.mp hpoints p hp
    simp only [bind_eq_ok, failIf_eq_ok] at hvalid
    obtain ⟨_, hend, hfinite⟩ := hvalid
    exact ⟨Std.not_lt.mp hend, by simpa using hfinite⟩
  few := Nat.le_trans (length_le_of_mem_cutBlocks hb) hmost

/-- The blocks follow each other in the order of the segment. -/
theorem precedes_cutBlocks (hn : 0 < n) :
    (cutBlocks n (stableSort bySegment points)).Pairwise Precedes := by
  have hsorted := sorted_stableSort bySegment_preorder points
  rw [← Segment.flatMap_cutBlocks hn (stableSort bySegment points), Sorted,
    pairwise_flatMap] at hsorted
  refine hsorted.2.imp_of_mem fun {b b'} hb hb' hbefore => ?_
  have hlast := getLast_mem b.nonempty
  have hhead := head_mem b'.nonempty
  have hpq := hbefore _ hlast _ hhead
  rw [bySegment, lex, Bool.and_eq_true, Bool.or_eq_true, Bool.not_eq_true'] at hpq
  have hseries := (Segment.mem_cutBlocks hn hb).2 _ hlast
  have hseries' := (Segment.mem_cutBlocks hn hb').2 _ hhead
  obtain ⟨hle, hrest⟩ := hpq
  rw [bySeriesId, decide_eq_true_eq, hseries, hseries'] at hle
  by_cases hsame : b.seriesId = b'.seriesId
  · right
    refine ⟨hsame, ?_⟩
    rcases hrest with hno | hhistory
    · rw [bySeriesId, hseries, hseries', hsame] at hno
      exact absurd (Std.le_refl _) (of_decide_eq_false hno)
    · exact of_decide_eq_true (le_of_lex hhistory)
  · exact .inl (Std.lt_of_le_of_ne hle hsame)

end Cut

/-! ## Opening -/

@[simp] theorem length_segmentFields (blocks : UInt32) (points indexOffset : UInt64)
    (indexBytes : UInt32) : (segmentFields blocks points indexOffset indexBytes).length = 36 := by
  simp [segmentFields]

@[simp] theorem length_segmentHeaderOf (blocks : UInt32) (points indexOffset : UInt64)
    (indexBytes : UInt32) :
    (segmentHeaderOf blocks points indexOffset indexBytes).length = segmentHeaderBytes := by
  simp [segmentHeaderOf, segmentHeaderBytes]

@[simp] theorem length_indexHeaderOf (index : List IndexEntry) :
    (indexHeaderOf index).length = indexHeaderBytes := by
  simp [indexHeaderOf, indexHeaderBytes]

/-- What a reader finds in the header of a segment. -/
theorem segmentHeaderOf_fields (blocks : UInt32) (points indexOffset : UInt64)
    (indexBytes : UInt32) :
    let header := segmentHeaderOf blocks points indexOffset indexBytes
    slice header 0 8 = segmentMagic ∧ readU16 (slice header 8 10) = segmentVersion ∧
      slice header 10 12 = [0, 0] ∧ readU32 (slice header 12 16) = blocks ∧
      readU64 (slice header 16 24) = points ∧ readU64 (slice header 24 32) = indexOffset ∧
      readU32 (slice header 32 36) = indexBytes ∧
      Crc32.hash (slice header 0 36) = readU32 (slice header 36 40) := by
  intro header
  have hcovered : slice header 0 36 = segmentFields blocks points indexOffset indexBytes :=
    slice_left (length_segmentFields ..)
  rw [hcovered]
  simp (disch := simp) [header, segmentHeaderOf, segmentFields, slice_skip, slice_left, slice_whole]
  decide

/-- What a reader finds in the header of an index. -/
theorem indexHeaderOf_fields (index : List IndexEntry) :
    slice (indexHeaderOf index) 0 4 = indexMagic ∧
      readU16 (slice (indexHeaderOf index) 4 6) = indexVersion ∧
      (readU16 (slice (indexHeaderOf index) 6 8)).toNat = indexEntryBytes ∧
      readU32 (slice (indexHeaderOf index) 8 12) = UInt32.ofNat index.length ∧
      readU32 (slice (indexHeaderOf index) 12 16) = Crc32.hash (index.flatMap encodeIndex) := by
  simp (disch := simp) [indexHeaderOf, slice_skip, slice_left, slice_whole]
  decide

/-- A file whose index is valid is opened. -/
theorem openFile_layout {body : Bytes} {index : List IndexEntry} {points : Nat}
    (hpoints : points < 2 ^ 64)
    (hindex : indexHeaderBytes + index.length * indexEntryBytes < 2 ^ 32)
    (hbody : body.length < 2 ^ 63)
    (hvalid : validateIndex index (segmentHeaderBytes + body.length) points = .ok ()) :
    let header := segmentHeaderOf (UInt32.ofNat index.length) (UInt64.ofNat points)
      (UInt64.ofNat (segmentHeaderBytes + body.length))
      (UInt32.ofNat (indexHeaderBytes + (index.flatMap encodeIndex).length))
    let file := header ++ (body ++ (indexHeaderOf index ++ index.flatMap encodeIndex))
    openFile file = .ok ⟨file, index,
      statsOf (UInt32.ofNat index.length) (UInt64.ofNat points) file.length⟩ := by
  intro header file
  have hentries := length_entries index
  have hlength : file.length = segmentHeaderBytes + body.length +
      (indexHeaderBytes + index.length * indexEntryBytes) := by
    simp only [file, header, length_append, length_segmentHeaderOf, length_indexHeaderOf,
      hentries, Nat.add_assoc]
  have hcount : (UInt32.ofNat index.length).toNat = index.length := by
    rw [indexHeaderBytes, indexEntryBytes] at hindex
    exact UInt32.toNat_ofNat_of_lt' (by rw [UInt32.size]; omega)
  have hoffset : (UInt64.ofNat (segmentHeaderBytes + body.length)).toNat =
      segmentHeaderBytes + body.length :=
    UInt64.toNat_ofNat_of_lt' (by rw [segmentHeaderBytes, UInt64.size]; omega)
  have hbytes : (UInt32.ofNat (indexHeaderBytes + (index.flatMap encodeIndex).length)).toNat =
      indexHeaderBytes + index.length * indexEntryBytes := by
    rw [hentries]
    exact UInt32.toNat_ofNat_of_lt' hindex
  -- the three parts of the file that are read
  have hheader : slice file 0 40 = header := slice_left (length_segmentHeaderOf ..)
  have hindexHeader : readExactAt file (segmentHeaderBytes + body.length) 16 =
      .ok (indexHeaderOf index) := by
    have hsplit :
        file = (header ++ body) ++ (indexHeaderOf index ++ index.flatMap encodeIndex) := by
      simp [file]
    rw [hsplit]
    exact readExactAt_append (by simp [header]) (length_indexHeaderOf index)
  have hread : readExactAt file (segmentHeaderBytes + body.length + 16)
      (index.length * indexEntryBytes) = .ok (index.flatMap encodeIndex) := by
    have hsplit : file = (header ++ (body ++ indexHeaderOf index)) ++
        (index.flatMap encodeIndex ++ []) := by
      simp [file]
    rw [hsplit]
    exact readExactAt_append (by simp [header, indexHeaderBytes]; omega) hentries
  obtain ⟨hmagic, hversion, hreserved, hblocks, hpointCount, hindexOffset, hindexBytes, hcrc⟩ :=
    segmentHeaderOf_fields (UInt32.ofNat index.length) (UInt64.ofNat points)
      (UInt64.ofNat (segmentHeaderBytes + body.length))
      (UInt32.ofNat (indexHeaderBytes + (index.flatMap encodeIndex).length))
  obtain ⟨himagic, hiversion, hisize, hicount, hicrc⟩ := indexHeaderOf_fields index
  have hpointCount' : (UInt64.ofNat points).toNat = points := UInt64.toNat_ofNat_of_lt' hpoints
  simp only [openFile, bind_eq_ok, failIf_eq_ok, hheader]
  simp only [header, hmagic, hversion, hreserved, hblocks, hpointCount, hindexOffset, hindexBytes,
    hcrc, hoffset, hbytes]
  refine ⟨(), ?_, (), by simp, (), by simp, (), by simp, (), ?_, _, hindexHeader, ?_⟩
  · rw [hlength]
    omega
  · rw [hlength]
    rw [segmentHeaderBytes] at *
    omega
  · simp only [himagic, hiversion, hisize, hicount, hicrc, hcount]
    refine ⟨(), by simp, (), by simp, (), by simp, _, hread, (), by simp, (), ?_, ?_⟩
    · rw [decodeIndex_entries, hpointCount']
      exact hvalid
    · rw [decodeIndex_entries]

section Create
variable [Lz4]

/-- An open file and the segment it stores. -/
structure Backs (s : StoredSegment) (t : Segment) : Prop where
  index : List.Forall₂ (Describes s.bytes) s.index t.blocks
  points : s.stats.points.toNat = t.pointCount

theorem create_ok_iff (points : List Point) (n : Nat) :
    (∃ written, create points n = .ok written) ↔ ∃ t, Segment.create points n = .ok t := by
  simp only [create, Segment.create, bind_eq_ok, failIf_eq_ok, not_or, not_lt, not_le]
  constructor
  · rintro ⟨_, _, ⟨hn, hmost⟩, _, hvalid, ⟨body, index⟩, hwritten, _, hcount, _, hindex, -⟩
    have hsound := sound_of_mem_cutBlocks (Nat.pos_of_ne_zero hn) hmost hvalid
    obtain ⟨hlength, -⟩ := length_writeBlocks hsound hwritten
    have hcolumns := (writeBlocks_ok_iff hsound _).mp ⟨_, hwritten⟩
    rw [length_entries, hlength, indexHeaderBytes, indexEntryBytes, Nat.mul_comm] at hindex
    exact ⟨_, (), ⟨hn, hmost⟩, (), hvalid, (), hcolumns, (), by rwa [← hlength], (), hindex, rfl⟩
  · rintro ⟨_, _, ⟨hn, hmost⟩, _, hvalid, _, hcolumns, _, hcount, _, hindex, -⟩
    have hsound := sound_of_mem_cutBlocks (Nat.pos_of_ne_zero hn) hmost hvalid
    obtain ⟨⟨body, index⟩, hwritten⟩ := (writeBlocks_ok_iff hsound segmentHeaderBytes).mpr hcolumns
    obtain ⟨hlength, -⟩ := length_writeBlocks hsound hwritten
    refine ⟨_, (), ⟨hn, hmost⟩, (), hvalid, _, hwritten, (), by rwa [hlength], (), ?_, rfl⟩
    rw [length_entries, hlength, indexHeaderBytes, indexEntryBytes, Nat.mul_comm]
    exact hindex

/-- A written file is opened, and stores the segment of its points. -/
theorem create_opens {points : List Point} {n : Nat} {stats : SegmentStats} {file : Bytes}
    (h : create points n = .ok (stats, file)) : ∃ t s, Segment.create points n = .ok t ∧
      (∀ b ∈ t.blocks, Sound b) ∧ openFile file = .ok s ∧ s.stats = stats ∧ s.Backs t := by
  obtain ⟨t, ht⟩ := (create_ok_iff points n).mp ⟨_, h⟩
  simp only [create, bind_eq_ok, failIf_eq_ok, not_or, not_lt, not_le] at h
  obtain ⟨_, ⟨hn, hmost⟩, _, hvalid, ⟨body, index⟩, hwritten, _, hcount, _, hindex, h⟩ := h
  cases h
  have hblocks : t.blocks = cutBlocks n (stableSort bySegment points) ∧
      t.pointCount = points.length := by
    simp only [Segment.create, bind_eq_ok] at ht
    obtain ⟨_, -, _, -, _, -, _, -, _, -, ht⟩ := ht
    cases ht
    exact ⟨rfl, rfl⟩
  have hn' : 0 < n := Nat.pos_of_ne_zero hn
  have hsound := sound_of_mem_cutBlocks hn' hmost hvalid
  obtain ⟨hlength, hbody⟩ := length_writeBlocks hsound hwritten
  have hsum : ((cutBlocks n (stableSort bySegment points)).map fun b => b.points.length).sum =
      points.length := by
    rw [← length_flatMap, Segment.flatMap_cutBlocks hn', length_stableSort]
  dsimp only at hindex
  rw [length_entries, indexHeaderBytes, indexEntryBytes] at hindex
  have hblockCount : (cutBlocks n (stableSort bySegment points)).length < 2 ^ 27 := by omega
  have hpoints : points.length < 2 ^ 64 := by
    have hmany : points.length ≤
        (cutBlocks n (stableSort bySegment points)).length * maxBlockPoints := by
      have hall := sum_le_card_nsmul
        ((cutBlocks n (stableSort bySegment points)).map fun b => b.points.length) maxBlockPoints
        (by simpa using fun b hb => (hsound b hb).few)
      rwa [hsum, length_map] at hall
    rw [maxBlockPoints] at hmany
    omega
  have hentries :
      validateIndex index (segmentHeaderBytes + body.length) points.length = .ok () := by
    have hloop := validateEntries_writeBlocks hsound
      (precedes_cutBlocks hn').isChain hwritten (Nat.le_refl _)
      (by rw [segmentHeaderBytes]; omega) 0 none (fun _ h => by cases h)
    rw [validateIndex, hloop, hsum]
    simp [bind, Except.bind, failIf]
  have hopen := openFile_layout hpoints (by rw [indexHeaderBytes, indexEntryBytes]; omega)
    (by omega) hentries
  refine ⟨t, _, ht, by rwa [hblocks.1], hopen, rfl, ?_, ?_⟩
  · rw [hblocks.1]
    refine writeBlocks_describes hsound ?_ ?_ _
    · rw [length_segmentHeaderOf]
      exact hwritten
    · rw [length_segmentHeaderOf, segmentHeaderBytes]
      omega
  · rw [hblocks.2]
    exact UInt64.toNat_ofNat_of_lt' hpoints

end Create

end StoredSegment

namespace Segment

theorem Ordered.seriesPointCount_eq {s : Segment} (h : s.Ordered) (seriesId : UInt64) :
    s.seriesPointCount seriesId = (s.points.filter (ofSeries seriesId)).length := by
  rw [seriesPointCount, ← length_flatMap, h.flatMap_series]

end Segment

/-! ## What an open file answers -/

namespace StoredSegment

section Answers
variable [Lz4] {s : StoredSegment} {t : Segment}

theorem Backs.verifyBlocks (h : s.Backs t) : s.verifyBlocks = .ok () := by
  have hall : ∀ {index : List IndexEntry} {blocks : List Block},
      List.Forall₂ (Describes s.bytes) index blocks →
      each (fun entry => (readBlock s.bytes entry).map fun _ => ()) index = .ok () := by
    intro index blocks hall
    induction hall with
    | nil => rfl
    | cons hb _ ih =>
      rw [each, hb.read]
      exact ih
  exact hall h.index

theorem Describes.overlaps {file : Bytes} {e : IndexEntry} {b : Block} (h : Describes file e b)
    (seriesId : UInt64) (start stop : Int64) :
    e.overlaps seriesId start stop = b.overlaps seriesId start stop := by
  rw [IndexEntry.overlaps, Block.overlaps, h.seriesId, h.minTime, h.maxTime]

/-- A query reads the blocks it needs. -/
theorem Backs.query_eq (h : s.Backs t) (seriesId : UInt64) (start stop : Int64) :
    s.query seriesId start stop = .ok (t.query seriesId start stop) := by
  have hparts : ∀ {index : List IndexEntry} {blocks : List Block},
      List.Forall₂ (Describes s.bytes) index blocks →
      ((index.filter fun e => e.overlaps seriesId start stop).mapM fun entry =>
        (readBlock s.bytes entry).map fun points => points.filter fun p =>
          decide (start ≤ p.validTime ∧ p.validTime < stop)) =
      .ok ((blocks.filter fun b => b.overlaps seriesId start stop).map fun b =>
        b.points.filter fun p => decide (start ≤ p.validTime ∧ p.validTime < stop)) := by
    intro index blocks hall
    induction hall with
    | nil => rfl
    | @cons e b index blocks hb _ ih =>
      rw [filter_cons, filter_cons, hb.overlaps]
      split
      · rw [mapM_cons, hb.read, ih]
        rfl
      · exact ih
  rw [query, hparts h.index, Segment.query, flatMap_def]
  rfl

theorem Backs.seriesPointCount_eq (h : s.Backs t) (seriesId : UInt64) :
    s.seriesPointCount seriesId = t.seriesPointCount seriesId := by
  have hkept : List.Forall₂ (Describes s.bytes)
      (s.index.filter fun e => decide (e.seriesId = seriesId))
      (t.blocks.filter fun b => decide (b.seriesId = seriesId)) :=
    rel_filter (fun e b hb => by simp [hb.seriesId]) h.index
  have hcounts := rel_map (P := Eq) (fun e b hb => hb.points) hkept
  rw [forall₂_eq_eq_eq] at hcounts
  rw [seriesPointCount, Segment.seriesPointCount, hcounts]

theorem Backs.validBounds_eq (h : s.Backs t) : s.validBounds = t.validBounds := by
  have hindex := h.index
  rw [StoredSegment.validBounds, Segment.validBounds, Segment.bounds, filter_true]
  cases hentries : s.index with
  | nil =>
    rw [hentries, forall₂_nil_left_iff] at hindex
    rw [hindex]
  | cons e index =>
    rw [hentries] at hindex
    obtain ⟨b, blocks, hb, hrest, hblocks⟩ := forall₂_cons_left_iff.mp hindex
    have hleast : index.foldl (fun t e => if e.minTime < t then e.minTime else t) e.minTime =
        blocks.foldl (fun t b => if b.minTime < t then b.minTime else t) b.minTime :=
      rel_foldl (fun t _ ht e b hb => by rw [ht, hb.minTime]) hb.minTime hrest
    have hgreatest : index.foldl (fun t e => if t < e.maxTime then e.maxTime else t) e.maxTime =
        blocks.foldl (fun t b => if t < b.maxTime then b.maxTime else t) b.maxTime :=
      rel_foldl (fun t _ ht e b hb => by rw [ht, hb.maxTime]) hb.maxTime hrest
    simp only [hblocks, hleast, hgreatest]

/-- The loop of `series_bounds` goes over the blocks of the series. -/
theorem foldl_seriesBounds {file : Bytes} {index : List IndexEntry} {blocks : List Block}
    (h : List.Forall₂ (Describes file) index blocks) (seriesId : UInt64) (bounds : Int64 × Int64) :
    index.foldl (fun bounds e =>
      if e.seriesId = seriesId then
        (if e.minTime < bounds.1 then e.minTime else bounds.1,
          if bounds.2 < e.maxTime then e.maxTime else bounds.2)
      else bounds) bounds =
      ((blocks.filter fun b => decide (b.seriesId = seriesId)).foldl
          (fun t b => if b.minTime < t then b.minTime else t) bounds.1,
        (blocks.filter fun b => decide (b.seriesId = seriesId)).foldl
          (fun t b => if t < b.maxTime then b.maxTime else t) bounds.2) := by
  induction h generalizing bounds with
  | nil => rfl
  | @cons e b _ _ hb _ ih =>
    rw [foldl_cons, ih, filter_cons, hb.seriesId, hb.minTime, hb.maxTime]
    by_cases hid : b.seriesId = seriesId
    · simp [hid]
    · simp [hid]

theorem Backs.seriesBounds_eq (h : s.Backs t) (hsound : ∀ b ∈ t.blocks, Sound b)
    (seriesId : UInt64) : s.seriesBounds seriesId = t.seriesBounds seriesId := by
  rw [seriesBounds, foldl_seriesBounds h.index, Segment.seriesBounds, Segment.bounds]
  cases hblocks : t.blocks.filter fun b => decide (b.seriesId = seriesId) with
  | nil => decide
  | cons b blocks =>
    have hb : b ∈ t.blocks :=
      mem_of_mem_filter (hblocks ▸ mem_cons_self : b ∈ t.blocks.filter _)
    have hmin : (if b.minTime < Int64.maxValue then b.minTime else Int64.maxValue) = b.minTime := by
      split
      · rfl
      · next hge => exact Std.le_antisymm (Std.not_lt.mp hge) (Int64.le_maxValue _)
    have hmax : (if Int64.minValue < b.maxTime then b.maxTime else Int64.minValue) = b.maxTime := by
      split
      · rfl
      · next hge => exact Std.le_antisymm (Int64.minValue_le _) (Std.not_lt.mp hge)
    have hlow := (Signed.foldl_least Block.minTime blocks b.minTime).1 _ mem_cons_self
    have hhigh := (Signed.foldl_greatest Block.maxTime blocks b.maxTime).1 _ mem_cons_self
    simp only [foldl_cons, hmin, hmax]
    rw [if_pos (Std.le_trans hlow (Std.le_trans (hsound b hb).minTime_le hhigh))]

/-- An open file that stores some points: every block is intact, every query answers
with the points it asks for in the order of their history, and the index knows how many
there are and from when to when. -/
structure Holds (s : StoredSegment) (points : List Point) : Prop where
  verifies : s.verifyBlocks = .ok ()
  query : ∀ seriesId start stop, s.query seriesId start stop =
    .ok (stableSort byHistory (points.filter fun p => ofSeries seriesId p && inRange start stop p))
  seriesBounds : ∀ seriesId, IsBounds (points.filter (ofSeries seriesId)) (s.seriesBounds seriesId)
  validBounds : IsBounds points s.validBounds
  seriesPointCount : ∀ seriesId,
    s.seriesPointCount seriesId = (points.filter (ofSeries seriesId)).length
  points : s.stats.points.toNat = points.length

theorem Backs.holds (h : s.Backs t) (hsound : ∀ b ∈ t.blocks, Sound b) (hordered : t.Ordered)
    {points : List Point} (hpoints : t.points = stableSort bySegment points)
    (hcount : t.pointCount = points.length) : s.Holds points where
  verifies := h.verifyBlocks
  query := by
    intro seriesId start stop
    rw [h.query_eq, hordered.query_eq, hpoints]
    simp only [Bool.and_comm (ofSeries seriesId _)]
    rw [← filter_filter, Segment.filter_sort_bySegment,
      ← stableSort_filter byHistory_preorder, filter_filter]
  seriesBounds := by
    intro seriesId
    have hbounds := hordered.seriesBounds seriesId
    rw [hpoints] at hbounds
    rw [h.seriesBounds_eq hsound]
    exact hbounds.congr fun p => by simp
  validBounds := by
    have hbounds := hordered.isBounds fun _ => true
    rw [filter_true] at hbounds
    rw [h.validBounds_eq]
    refine hbounds.congr fun p => ?_
    rw [show t.blocks.flatMap Block.points = t.points from rfl, hpoints, mem_stableSort]
  seriesPointCount := by
    intro seriesId
    rw [h.seriesPointCount_eq, hordered.seriesPointCount_eq, hpoints,
      Segment.filter_sort_bySegment, length_stableSort]
  points := h.points.trans hcount

end Answers

/-- Whatever points a segment was created from: the file can be opened, and holds them. -/
theorem segment_round_trip [Lz4] {points : List Point} {n : Nat} {stats : SegmentStats}
    {file : Bytes} (h : create points n = .ok (stats, file)) :
    ∃ s, openFile file = .ok s ∧ s.stats = stats ∧ s.Holds points := by
  obtain ⟨t, s, ht, hsound, hopen, hstats, hbacks⟩ := create_opens h
  obtain ⟨hordered, hpoints, hcount⟩ := Segment.create_eq_ok ht
  exact ⟨s, hopen, hstats, hbacks.holds hsound hordered hpoints hcount⟩

set_option maxRecDepth 20000 in
/-- Three points of two series in blocks of one point, each of them compressed. -/
theorem segment_round_trip_blocks :
    letI := Lz4.runs
    let points : List Point := [.actual 7 100 ⟨1⟩, .actual 3 5 ⟨2⟩, .actual 7 (-4) ⟨3⟩]
    ∃ stats file s, create points 1 = .ok (stats, file) ∧ stats.blocks = 3 ∧
      openFile file = .ok s ∧ s.Holds points ∧
      s.index.map (fun e => slice s.bytes (e.offset.toNat + 6) (e.offset.toNat + 7)) =
        List.replicate 3 [compressionLz4] := by
  let _ := Lz4.runs
  intro points
  have hcreated : ((create points 1).bind fun written => (openFile written.2).map fun s =>
      (written.1.blocks, s.index.map fun e =>
        slice s.bytes (e.offset.toNat + 6) (e.offset.toNat + 7))) =
      .ok (3, List.replicate 3 [compressionLz4]) := by
    decide +kernel
  obtain ⟨⟨stats, file⟩, hcreate, hopened⟩ := bind_eq_ok.mp hcreated
  obtain ⟨s, hopen, hfacts⟩ := map_eq_ok.mp hopened
  obtain ⟨s', hopen', -, hholds⟩ := segment_round_trip hcreate
  obtain rfl : s = s' := Except.ok.inj (hopen.symm.trans hopen')
  obtain ⟨hblocks, htags⟩ := Prod.mk.inj hfacts
  exact ⟨stats, file, s, hcreate, hblocks, hopen, hholds, htags⟩

end StoredSegment

end Ftwdb
