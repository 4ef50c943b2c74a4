import Ftwdb.Store.RollupFile

/-!
# Reading a rollup file back

The file of every list of valid buckets can be opened and holds these buckets
(`openFile_fileOf`), every file that can be opened holds valid buckets
(`openFile_valid`), and valid buckets stand in the order that the two binary
searches of a query need (`InOrder`).
-/

namespace Ftwdb

open BinarySearch ByteCodec Check List Signed

namespace RollupSegment

/-! ## Records -/

@[simp] theorem length_encodeBucket (b : StoredBucket) : (encodeBucket b).length = bucketBytes := by
  simp [encodeBucket, bucketBytes]

theorem present_presenceByte {α : Type} (min max first last : Bool) (a : α) :
    (present (presenceByte min max first last) 1 a = if min then some a else none) ∧
    (present (presenceByte min max first last) 2 a = if max then some a else none) ∧
    (present (presenceByte min max first last) 4 a = if first then some a else none) ∧
    (present (presenceByte min max first last) 8 a = if last then some a else none) := by
  cases min <;> cases max <;> cases first <;> cases last <;> exact ⟨rfl, rfl, rfl, rfl⟩

theorem presenceByte_reserved (min max first last : Bool) :
    presenceByte min max first last &&& ~~~0x0f = 0 := by
  cases min <;> cases max <;> cases first <;> cases last <;> rfl

theorem byteAt_presence (b : StoredBucket) : byteAt (encodeBucket b) 96 =
    presenceByte b.min.isSome b.max.isSome b.first.isSome b.last.isSome := by
  simp (disch := simp) [byteAt, encodeBucket, slice_skip, slice_cons_one]

theorem slice_reserved (b : StoredBucket) : slice (encodeBucket b) 97 104 = List.replicate 7 0 := by
  simp (disch := simp) [encodeBucket, slice_skip, slice_cons_skip, slice_whole]

theorem decodeBucket_encodeBucket (b : StoredBucket) : decodeBucket (encodeBucket b) = b := by
  have hsample : ∀ o : Option StoredSample, (if o.isSome = true then
      some (⟨o.elim 0 StoredSample.timestamp,
        ⟨(o.elim ⟨0⟩ StoredSample.value).bits⟩⟩ : StoredSample)
      else none) = o := fun o => by cases o <;> rfl
  have hvalue : ∀ o : Option F64, (if o.isSome = true then some (⟨(o.getD ⟨0⟩).bits⟩ : F64)
      else none) = o := fun o => by cases o <;> rfl
  rw [decodeBucket, byteAt_presence]
  simp only [present_presenceByte]
  simp (disch := simp) only [readF64, encodeBucket, slice_skip, slice_left, length_leI64,
    length_leU64, readI64_leI64, readU64_leU64, Nat.reduceSub, hsample, hvalue]

theorem decodeBuckets_encode (offset : Nat) (buckets : List StoredBucket) :
    decodeBuckets offset (buckets.map encodeBucket) = .ok buckets := by
  induction buckets generalizing offset with
  | nil => rfl
  | cons b buckets ih =>
    rw [map_cons, decodeBuckets, byteAt_presence, presenceByte_reserved, slice_reserved, ih,
      decodeBucket_encodeBucket]
    simp [failIf, bind, Except.bind]

/-! ## Headers -/

@[simp] theorem length_rollupMagic : rollupMagic.length = 8 := by decide

@[simp] theorem length_fields (h : Header) : h.fields.length = 44 := by
  simp [Header.fields]

@[simp] theorem length_encodeHeader (h : Header) : (encodeHeader h).length = headerBytes := by
  simp [encodeHeader, headerBytes]

theorem decodeHeader_encodeHeader (h : Header) : decodeHeader (encodeHeader h) = .ok h := by
  have hfields : ∀ {lo hi : Nat}, hi ≤ 44 →
      slice (encodeHeader h) lo hi = slice h.fields lo hi := fun hhi =>
    slice_append_left (by simpa using hhi)
  have hcovered : slice (encodeHeader h) 0 44 = h.fields := by
    rw [hfields (Nat.le_refl _)]
    exact slice_whole (length_fields h)
  have hcrc : slice (encodeHeader h) 44 48 = leU32 (Crc32.hash h.fields) := by
    simp (disch := simp) [encodeHeader, slice_skip, slice_whole]
  simp only [decodeHeader, byteAt, hcovered, hcrc]
  simp (disch := simp) only [hfields]
  simp (disch := simp) [Header.fields, slice_skip, slice_left, slice_whole, slice_cons_skip,
    slice_cons_one, failIf, bind, Except.bind]

/-! ## What is asked of a bucket -/

theorem StoredSample.eq_iff {s t : StoredSample} (hs : s.value.isFinite = true)
    (ht : t.value.isFinite = true) : s.eq t = true ↔ s.toSample = t.toSample := by
  simp [StoredSample.eq, StoredSample.toSample, F64.eq_iff hs ht]

variable {b : StoredBucket} {previous : Option StoredBucket}

/-- A bucket that passes the tests passes them with exact numbers. -/
theorem validateBucket_toGauge {offset : Nat} (h : validateBucket previous b offset = .ok ()) :
    Ftwdb.validateBucket (previous.map StoredBucket.toGauge) b.toGauge offset = .ok () := by
  obtain ⟨start, stop, count, sum, min, max, first, last, integral, covered⟩ := b
  simp only [validateBucket, Ftwdb.validateBucket, bind_eq_ok, failIf_eq_ok] at h ⊢
  simp only [StoredBucket.toGauge, Option.isSome_map, Option.any_map]
  obtain ⟨_, hbounds, _, hprevious, d, hd, _, hpresence, _, hcovered, _, hfinite, hvalues⟩ := h
  simp only [StoredBucket.isFinite, Bool.not_eq_false, Bool.and_eq_true,
    Option.all_eq_true] at hfinite
  obtain ⟨⟨⟨⟨-, hmin⟩, hmax⟩, hfirst⟩, hlast⟩ := hfinite
  refine ⟨(), hbounds, (), hprevious, d, hd, (), hpresence, (), hcovered, ?_⟩
  revert hvalues
  cases min with
  | none => exact id
  | some least =>
    cases max with
    | none => exact id
    | some greatest =>
      have hleast := hmin least rfl
      have hgreatest := hmax greatest rfl
      simp only [Option.map_some, bind_eq_ok, failIf_eq_ok, F64.lt_iff hgreatest hleast]
      rintro ⟨_, hordered, hsamples⟩
      refine ⟨(), hordered, ?_⟩
      revert hsamples
      cases first with
      | none => exact id
      | some first =>
        cases last with
        | none => exact id
        | some last =>
          have hfirst := hfirst first rfl
          have hlast := hlast last rfl
          simp only [Option.map_some, failIf_eq_ok, F64.lt_iff hfirst hleast,
            F64.lt_iff hgreatest hfirst, F64.lt_iff hlast hleast,
            F64.lt_iff hgreatest hlast, ← Bool.not_eq_true, StoredSample.eq_iff hfirst hlast]
          exact failIf_eq_ok.mpr

/-- What the order of the buckets needs of the tests. -/
theorem bounds_of_validateBucket {offset : Nat}
    (h : validateBucket previous b offset = .ok ()) :
    b.start < b.stop ∧ ∀ a ∈ previous, a.stop ≤ b.start := by
  simp only [validateBucket, bind_eq_ok, failIf_eq_ok, not_or, Std.not_le] at h
  obtain ⟨_, ⟨hbounds, -⟩, _, hprevious, -⟩ := h
  refine ⟨hbounds, fun a ha => ?_⟩
  obtain rfl : previous = some a := ha
  simpa using hprevious

/-- Where the tests report is not what they test. -/
theorem validateBucket_offset {offset : Nat}
    (h : validateBucket previous b offset = .ok ()) (offset' : Nat) :
    validateBucket previous b offset' = .ok () := by
  have helim : ∀ {o : Option Int64} {e : Error} {d : Int64},
      o.elim (Except.error e) .ok = .ok d ↔ o = some d := by
    intro o e d
    cases o <;> simp
  simp only [validateBucket, bind_eq_ok, failIf_eq_ok, helim] at h ⊢
  obtain ⟨_, hbounds, _, hprevious, d, hd, _, hpresence, _, hcovered, _, hfinite, hvalues⟩ := h
  refine ⟨(), hbounds, (), hprevious, d, hd, (), hpresence, (), hcovered, (), hfinite, ?_⟩
  revert hvalues
  cases b.min with
  | none => exact id
  | some least =>
    cases b.max with
    | none => exact id
    | some greatest =>
      simp only [bind_eq_ok, failIf_eq_ok]
      rintro ⟨_, hleast, hsamples⟩
      refine ⟨(), hleast, ?_⟩
      revert hsamples
      cases b.first with
      | none => exact id
      | some first =>
        cases b.last with
        | none => exact id
        | some last =>
          simp only [failIf_eq_ok]
          exact id

/-! ## What is asked of a list of buckets -/

/-- How two buckets of a valid list stand to each other. -/
structure InOrder (a b : StoredBucket) : Prop where
  first : a.start < a.stop
  second : b.start < b.stop
  apart : a.stop ≤ b.start

theorem InOrder.trans {a b c : StoredBucket} (h : InOrder a b) (h' : InOrder b c) :
    InOrder a c where
  first := h.first
  second := h'.second
  apart := Std.le_trans h.apart (Std.le_trans (Std.le_of_lt h.second) h'.apart)

section Lists
variable {previous : Option StoredBucket} {buckets : List StoredBucket} {offset : Nat}

theorem validateBuckets_offset (h : validateBuckets previous buckets offset = .ok ())
    (offset' : Nat) : validateBuckets previous buckets offset' = .ok () := by
  induction buckets generalizing previous offset offset' with
  | nil => rfl
  | cons b buckets ih =>
    obtain ⟨_, hb, hrest⟩ := bind_eq_ok.mp h
    exact bind_eq_ok.mpr ⟨(), validateBucket_offset hb _, ih hrest _⟩

theorem validateBuckets_inOrder (h : validateBuckets previous buckets offset = .ok ())
    (hprevious : ∀ a ∈ previous, a.start < a.stop) :
    (previous.toList ++ buckets).IsChain InOrder := by
  induction buckets generalizing previous offset with
  | nil => cases previous <;> simp
  | cons b buckets ih =>
    obtain ⟨_, hb, hrest⟩ := bind_eq_ok.mp h
    obtain ⟨hbounds, hapart⟩ := bounds_of_validateBucket hb
    have hchain := ih hrest (by simpa using hbounds)
    cases previous with
    | none => exact hchain
    | some a =>
      exact isChain_cons_cons.mpr ⟨⟨hprevious a rfl, hbounds, hapart a rfl⟩, hchain⟩

theorem pairwise_of_valid (h : validateBuckets none buckets offset = .ok ()) :
    buckets.Pairwise InOrder := by
  have : IsTrans StoredBucket InOrder := ⟨fun _ _ _ => InOrder.trans⟩
  exact isChain_iff_pairwise.mp (validateBuckets_inOrder h nofun)

/-- Valid buckets are valid with exact numbers. -/
theorem validateBuckets_toGauge (h : validateBuckets previous buckets offset = .ok ()) :
    Ftwdb.validateBuckets (previous.map StoredBucket.toGauge) (buckets.map StoredBucket.toGauge)
      offset = .ok () := by
  induction buckets generalizing previous offset with
  | nil => rfl
  | cons b buckets ih =>
    obtain ⟨_, hb, hrest⟩ := bind_eq_ok.mp h
    exact bind_eq_ok.mpr ⟨(), validateBucket_toGauge hb, ih hrest⟩

end Lists

/-! ## Queries -/

section Query
variable {s : RollupSegment} (h : s.buckets.Pairwise InOrder) (start stop : Int64)
include h

theorem partitioned_stop :
    Partitioned (fun b : StoredBucket => decide (b.stop ≤ start)) s.buckets := by
  refine h.imp fun {a b} hab hb => ?_
  rw [decide_eq_true_eq] at hb ⊢
  exact Std.le_trans hab.apart (Std.le_trans (Std.le_of_lt hab.second) hb)

theorem partitioned_start :
    Partitioned (fun b : StoredBucket => decide (b.start < stop)) s.buckets := by
  refine h.imp fun {a b} hab hb => ?_
  rw [decide_eq_true_eq] at hb ⊢
  exact Std.lt_trans (Std.lt_of_lt_of_le hab.first hab.apart) hb

/-- The two searches find the buckets that overlap the range. -/
theorem query_eq : s.query start stop =
    s.buckets.filter fun b => decide (start < b.stop ∧ b.start < stop) := by
  have hrest := (partitioned_stop h start).drop_partitionPoint
  have htaken := ((partitioned_start h stop).sublist
    (drop_sublist (partitionPoint (fun b => decide (b.stop ≤ start)) s.buckets)
      s.buckets)).take_partitionPoint
  rw [query, htaken, hrest, filter_filter]
  refine filter_congr fun b _ => ?_
  rw [Bool.eq_iff_iff]
  simp only [Bool.and_eq_true, Bool.not_eq_true', decide_eq_true_eq, decide_eq_false_iff_not,
    Std.not_le]
  exact And.comm

/-- A query of the file is a query of the exact buckets. -/
theorem map_query : (s.query start stop).map StoredBucket.toGauge =
    queryRollup (s.buckets.map StoredBucket.toGauge) start stop := by
  have hrest := partitioned_stop h start
  have hsuffix := (partitioned_start h stop).sublist
    (dropWhile_sublist fun b => decide (b.stop ≤ start))
  rw [query, queryRollup, dropWhile_map, takeWhile_map, hrest.drop_partitionPoint,
    ← hrest.takeWhile_eq_filter.2]
  exact congrArg _ (hsuffix.take_partitionPoint.trans hsuffix.takeWhile_eq_filter.1.symm)

end Query

/-! ## Files -/

section Files

theorem length_encoded (buckets : List StoredBucket) :
    (buckets.flatMap encodeBucket).length = buckets.length * bucketBytes := by
  rw [length_flatMap]
  simp

theorem length_decodeBuckets {offset : Nat} {raws : List Bytes}
    {buckets : List StoredBucket}
    (h : decodeBuckets offset raws = .ok buckets) : buckets.length = raws.length := by
  induction raws generalizing offset buckets with
  | nil =>
    cases h
    rfl
  | cons raw raws ih =>
    simp only [decodeBuckets, bind_eq_ok] at h
    obtain ⟨_, -, rest, hrest, h⟩ := h
    cases h
    rw [length_cons, length_cons, ih hrest]

variable [Lz4]

theorem unpackPayload_packed {encoded payload : Bytes} {h : Header}
    (hpacked : Packed encoded h.compression payload)
    (hlength : h.uncompressedLen.toNat = encoded.length)
    (hstored : h.storedLen.toNat = payload.length) (hsmall : encoded.length < 2 ^ 32) :
    unpackPayload h payload = .ok encoded := by
  have hcapacity := hpacked.capacity
  generalize hc : h.compression = compression at hpacked
  cases hpacked with
  | raw => simp [unpackPayload, hc]
  | lz4 hshort =>
    rw [unpackPayload, hc, if_neg (by decide), if_pos rfl]
    simp only [hlength, hstored, size_compressPrependSize hsmall, drop_compressPrependSize,
      Lz4.decompress_compress, failIf, if_neg not_short_compressPrependSize,
      if_neg (Nat.not_lt.mpr hcapacity), ne_eq, not_true_eq_false, if_false]
    rfl

/-- The header of the file of some buckets. -/
def fileHeader (buckets : List StoredBucket) : Header :=
  headerOf buckets (packBlock (buckets.flatMap encodeBucket)).1
    (packBlock (buckets.flatMap encodeBucket)).2

/-- The file of some buckets. -/
def fileOf (buckets : List StoredBucket) : Bytes :=
  encodeHeader (fileHeader buckets) ++ (packBlock (buckets.flatMap encodeBucket)).2

/-- The lengths in the header of few enough buckets are the real ones. -/
structure Fits (buckets : List StoredBucket) : Prop where
  count : (fileHeader buckets).bucketCount.toNat = buckets.length
  encoded : (fileHeader buckets).uncompressedLen.toNat = buckets.length * bucketBytes
  stored : (fileHeader buckets).storedLen.toNat =
    (packBlock (buckets.flatMap encodeBucket)).2.length
  small : buckets.length * bucketBytes < 2 ^ 32

variable {buckets : List StoredBucket}

theorem fits_of_few (hfew : buckets.length ≤ maxRollupBuckets) :
    Fits buckets := by
  rw [maxRollupBuckets] at hfew
  have hsmall : buckets.length * bucketBytes < 2 ^ 32 := by
    rw [bucketBytes]
    omega
  have hpayload := (packed_packBlock (buckets.flatMap encodeBucket)).length_le
  rw [length_encoded] at hpayload
  exact ⟨UInt32.toNat_ofNat_of_lt' (by rw [UInt32.size]; omega),
    UInt32.toNat_ofNat_of_lt' hsmall,
    UInt32.toNat_ofNat_of_lt' (Nat.lt_of_le_of_lt hpayload hsmall), hsmall⟩

theorem writeTemporary_eq (hfew : buckets.length ≤ maxRollupBuckets) :
    writeTemporary buckets =
      .ok ((fileHeader buckets).stats (fileOf buckets).length, fileOf buckets) := by
  have hfits := fits_of_few hfew
  have hpayload : ¬ 2 ^ 32 ≤ (packBlock (buckets.flatMap encodeBucket)).2.length := by
    rw [← hfits.stored]
    exact Nat.not_le.mpr (UInt32.toNat_lt _)
  have hcount : ¬ 2 ^ 32 ≤ buckets.length := by
    rw [← hfits.count]
    exact Nat.not_le.mpr (UInt32.toNat_lt _)
  simp only [writeTemporary, failIf, if_neg hpayload, if_neg hcount,
    if_neg (Nat.not_le.mpr hfits.small)]
  rfl

/-- The bounds in the header are the ones a reader compares them with. -/
theorem fileHeader_bounds (buckets : List StoredBucket) :
    ¬ ((buckets.head?.any fun b => decide (b.start ≠ (fileHeader buckets).minStart)) = true ∨
      (buckets.getLast?.any fun b => decide (b.stop ≠ (fileHeader buckets).maxEnd)) = true ∨
      (buckets = [] ∧ ((fileHeader buckets).minStart ≠ 0 ∨ (fileHeader buckets).maxEnd ≠ 0))) := by
  show ¬ ((buckets.head?.any fun b =>
        decide (b.start ≠ buckets.head?.elim 0 StoredBucket.start)) = true ∨
      (buckets.getLast?.any fun b =>
        decide (b.stop ≠ buckets.getLast?.elim 0 StoredBucket.stop)) = true ∨
      (buckets = [] ∧ (buckets.head?.elim 0 StoredBucket.start ≠ 0 ∨
        buckets.getLast?.elim 0 StoredBucket.stop ≠ 0)))
  cases hfirst : buckets.head? with
  | none =>
    obtain rfl := head?_eq_none_iff.mp hfirst
    simp
  | some first =>
    have hne : buckets ≠ [] := fun hnil => by simp [hnil] at hfirst
    cases hlast : buckets.getLast? with
    | none => exact absurd (getLast?_eq_none_iff.mp hlast) hne
    | some last => simp [hne]

/-- The file of valid buckets can be opened. -/
theorem openFile_fileOf (hfew : buckets.length ≤ maxRollupBuckets)
    (hvalid : validateBuckets none buckets 0 = .ok ()) :
    openFile (fileOf buckets) =
      .ok ⟨buckets, (fileHeader buckets).stats (fileOf buckets).length⟩ := by
  have hfits := fits_of_few hfew
  have hheader : slice (fileOf buckets) 0 48 = encodeHeader (fileHeader buckets) :=
    slice_left (length_encodeHeader _)
  have hpayload : (fileOf buckets).drop headerBytes =
      (packBlock (buckets.flatMap encodeBucket)).2 := drop_left' (length_encodeHeader _)
  have hlength : (fileOf buckets).length =
      headerBytes + (fileHeader buckets).storedLen.toNat := by
    rw [fileOf, length_append, length_encodeHeader, hfits.stored]
  have hunpacked : unpackPayload (fileHeader buckets) (packBlock (buckets.flatMap encodeBucket)).2 =
      .ok (buckets.flatMap encodeBucket) :=
    unpackPayload_packed (packed_packBlock _) (by rw [hfits.encoded, length_encoded]) hfits.stored
      (by rw [length_encoded]; exact hfits.small)
  have hdecoded :
      decodeBuckets headerBytes (chunksExact bucketBytes (buckets.flatMap encodeBucket)) =
        .ok buckets := by
    rw [chunksExact_flatMap (by decide) encodeBucket length_encodeBucket]
    exact decodeBuckets_encode _ _
  simp only [openFile, bind_eq_ok, failIf_eq_ok, hheader, decodeHeader_encodeHeader, hpayload]
  refine ⟨(), by omega, _, rfl, (), ?_, (), ?_, (), ?_, _, hunpacked, (), ?_, _, hdecoded, (),
    validateBuckets_offset hvalid _, (), fileHeader_bounds buckets, rfl⟩
  · rw [hfits.count]
    exact Nat.not_lt.mpr hfew
  · rw [hfits.count, hfits.encoded]
    exact not_or.mpr ⟨fun h => h rfl, fun h => h hlength⟩
  · exact fun h => h rfl
  · rw [length_encoded, hfits.encoded]
    exact fun h => h rfl

/-- A file that can be opened holds few enough buckets, and these are valid. -/
theorem openFile_valid {file : Bytes} {s : RollupSegment} (h : openFile file = .ok s) :
    s.buckets.length ≤ maxRollupBuckets ∧ validateBuckets none s.buckets 0 = .ok () := by
  simp only [openFile, bind_eq_ok, failIf_eq_ok] at h
  obtain ⟨_, -, header, -, _, hcount, _, hlengths, _, -, decoded, -, _, hdecoded, buckets, hbuckets,
    _, hvalid, _, -, h⟩ := h
  cases h
  refine ⟨?_, validateBuckets_offset hvalid 0⟩
  have hchunks : (chunksExact bucketBytes decoded).length = decoded.length / bucketBytes := by
    simp [chunksExact]
  show buckets.length ≤ maxRollupBuckets
  rw [length_decodeBuckets hbuckets, hchunks, not_not.mp hdecoded,
    not_not.mp (not_or.mp hlengths).1, Nat.mul_div_cancel _ (by decide)]
  exact Nat.not_lt.mp hcount

/-- The files that are written are those that can be opened. -/
theorem create_eq (hfew : buckets.length ≤ maxRollupBuckets)
    (hvalid : validateBuckets none buckets 0 = .ok ()) :
    create buckets = .ok ((fileHeader buckets).stats (fileOf buckets).length, fileOf buckets) := by
  rw [create, hvalid, writeTemporary_eq hfew, failIf, if_neg (Nat.not_lt.mpr hfew)]
  rfl

end Files

/-! ## Round trip -/

/-- The statistics of a file with these buckets. -/
structure Stats.Describes (stats : Stats) (buckets : List StoredBucket) : Prop where
  count : stats.buckets.toNat = buckets.length
  logicalBytes : stats.logicalBytes = buckets.length * bucketBytes
  minStart : stats.minStart = buckets.head?.map StoredBucket.start
  maxEnd : stats.maxEnd = buckets.getLast?.map StoredBucket.stop
  least : ∀ t ∈ stats.minStart, ∀ b ∈ buckets, t ≤ b.start
  greatest : ∀ t ∈ stats.maxEnd, ∀ b ∈ buckets, b.stop ≤ t

variable {buckets : List StoredBucket}

theorem pairwise_head_le (h : buckets.Pairwise InOrder)
    {first : StoredBucket} (hfirst : buckets.head? = some first) {b : StoredBucket}
    (hb : b ∈ buckets) : first.start ≤ b.start := by
  obtain ⟨rest, rfl⟩ := head?_eq_some_iff.mp hfirst
  rcases mem_cons.mp hb with rfl | hb
  · exact Std.le_refl _
  · have hapart := (pairwise_cons.mp h).1 b hb
    exact Std.le_trans (Std.le_of_lt hapart.first) hapart.apart

theorem pairwise_le_getLast (h : buckets.Pairwise InOrder)
    {last : StoredBucket} (hlast : buckets.getLast? = some last) {b : StoredBucket}
    (hb : b ∈ buckets) : b.stop ≤ last.stop := by
  obtain ⟨rest, rfl⟩ := getLast?_eq_some_iff.mp hlast
  rcases mem_append.mp hb with hb | hb
  · have hapart := (pairwise_append.mp h).2.2 b hb last (mem_singleton.mpr rfl)
    exact Std.le_trans hapart.apart (Std.le_of_lt hapart.second)
  · obtain rfl := mem_singleton.mp hb
    exact Std.le_refl _

theorem describes_fileHeader [Lz4]
    (hfew : buckets.length ≤ maxRollupBuckets)
    (hvalid : validateBuckets none buckets 0 = .ok ()) (fileLen : Nat) :
    ((fileHeader buckets).stats fileLen).Describes buckets := by
  have hfits := fits_of_few hfew
  have hordered := pairwise_of_valid hvalid
  have hbounds : ((fileHeader buckets).stats fileLen).minStart =
        buckets.head?.map StoredBucket.start ∧
      ((fileHeader buckets).stats fileLen).maxEnd = buckets.getLast?.map StoredBucket.stop := by
    have hpos : 0 < (fileHeader buckets).bucketCount ↔ 0 < buckets.length := by
      rw [← hfits.count, UInt32.lt_iff_toNat_lt, UInt32.toNat_zero]
    rw [Header.stats]
    simp only [hpos]
    cases hfirst : buckets.head? with
    | none =>
      obtain rfl := head?_eq_none_iff.mp hfirst
      exact ⟨rfl, rfl⟩
    | some first =>
      have hne : buckets ≠ [] := fun hnil => by simp [hnil] at hfirst
      obtain ⟨last, hlast⟩ : ∃ last, buckets.getLast? = some last :=
        ⟨_, getLast?_eq_some_getLast hne⟩
      rw [if_pos (length_pos_iff.mpr hne), if_pos (length_pos_iff.mpr hne), hlast]
      simp [fileHeader, headerOf, hfirst, hlast]
  refine ⟨hfits.count, hfits.encoded, hbounds.1, hbounds.2, ?_, ?_⟩
  · intro t ht b hb
    rw [hbounds.1, Option.mem_def, Option.map_eq_some_iff] at ht
    obtain ⟨first, hfirst, rfl⟩ := ht
    exact pairwise_head_le hordered hfirst hb
  · intro t ht b hb
    rw [hbounds.2, Option.mem_def, Option.map_eq_some_iff] at ht
    obtain ⟨last, hlast, rfl⟩ := ht
    exact pairwise_le_getLast hordered hlast hb

/-- With exact numbers, an open file is one the store writes and queries. -/
theorem openFile_toGauge [Lz4] {file : Bytes} {s : RollupSegment} (h : openFile file = .ok s) :
    checkRollup (s.buckets.map StoredBucket.toGauge) = .ok () ∧
      ∀ start stop : Int64, (s.query start stop).map StoredBucket.toGauge =
        queryRollup (s.buckets.map StoredBucket.toGauge) start stop := by
  obtain ⟨hfew, hvalid⟩ := openFile_valid h
  refine ⟨?_, map_query (pairwise_of_valid hvalid)⟩
  rw [checkRollup, failIf, if_neg (by rw [length_map]; exact Nat.not_lt.mpr hfew)]
  exact validateBuckets_toGauge hvalid

/-- Three buckets with values, compressed in their file.  In the first a sample of minus
zero is not below the minimum zero, in the second the one sample is both zeros. -/
theorem openFile_toGauge_signedZero :
    letI := Lz4.runs
    let one : F64 := ⟨0x3ff0000000000000⟩
    let minusZero : F64 := ⟨0x8000000000000000⟩
    let mixed : StoredBucket :=
      ⟨0, 10, 2, one, some ⟨0⟩, some one, some ⟨2, minusZero⟩, some ⟨5, one⟩, minusZero, 3⟩
    let zeros : StoredBucket :=
      ⟨10, 20, 1, ⟨0⟩, some minusZero, some ⟨0⟩, some ⟨12, ⟨0⟩⟩, some ⟨12, minusZero⟩, ⟨0⟩, 0⟩
    let single : StoredBucket :=
      ⟨40, 50, 1, one, some one, some one, some ⟨44, one⟩, some ⟨44, one⟩, ⟨0⟩, 0⟩
    (packBlock ([mixed, zeros, single].flatMap encodeBucket)).1 = compressionLz4 ∧
    ∃ s, openFile (fileOf [mixed, zeros, single]) = .ok s ∧
      checkRollup (s.buckets.map StoredBucket.toGauge) = .ok () ∧
      queryRollup (s.buckets.map StoredBucket.toGauge) 15 45 = [zeros.toGauge, single.toGauge] := by
  let _ := Lz4.runs
  intro one minusZero mixed zeros single
  have hopen := openFile_fileOf (show [mixed, zeros, single].length ≤ maxRollupBuckets by decide)
    (by decide +kernel)
  refine ⟨by decide +kernel, _, hopen, (openFile_toGauge hopen).1, ?_⟩
  rw [← (openFile_toGauge hopen).2, show query _ 15 45 = [zeros, single] by decide +kernel]
  rfl

/-- Valid buckets are written, and the file reads back as the same buckets with their bounds.
A file that can be opened answers a query with the buckets that overlap the range, in order, and
holds valid buckets, few enough to be written again. -/
theorem rollup_round_trip [Lz4] :
    (∀ buckets : List StoredBucket, buckets.length ≤ maxRollupBuckets →
      validateBuckets none buckets 0 = .ok () →
      ∃ stats file, create buckets = .ok (stats, file) ∧ openFile file = .ok ⟨buckets, stats⟩ ∧
        stats.Describes buckets) ∧
    ∀ (file : Bytes) (s : RollupSegment), openFile file = .ok s →
      (∀ start stop : Int64, s.query start stop =
        s.buckets.filter fun b => decide (start < b.stop ∧ b.start < stop)) ∧
      s.buckets.length ≤ maxRollupBuckets ∧ validateBuckets none s.buckets 0 = .ok () := by
  constructor
  · intro buckets hfew hvalid
    exact ⟨_, _, create_eq hfew hvalid, openFile_fileOf hfew hvalid,
      describes_fileHeader hfew hvalid _⟩
  · intro file s hopen
    obtain ⟨hfew, hvalid⟩ := openFile_valid hopen
    exact ⟨query_eq (pairwise_of_valid hvalid), hfew, hvalid⟩

/-- A bucket with one sample of the value 1 and an empty one that does not touch it,
compressed. -/
theorem rollup_round_trip_buckets :
    letI := Lz4.runs
    let one : F64 := ⟨0x3ff0000000000000⟩
    let buckets : List StoredBucket :=
      [⟨0, 10, 1, one, some one, some one, some ⟨4, one⟩, some ⟨4, one⟩, ⟨0⟩, 0⟩,
        ⟨20, 30, 0, ⟨0⟩, none, none, none, none, ⟨0⟩, 0⟩]
    (packBlock (buckets.flatMap encodeBucket)).1 = compressionLz4 ∧
    ∃ stats file, create buckets = .ok (stats, file) ∧ openFile file = .ok ⟨buckets, stats⟩ ∧
      stats.Describes buckets := by
  let _ := Lz4.runs
  intro one buckets
  exact ⟨by decide +kernel, rollup_round_trip.1 buckets (by decide) (by decide +kernel)⟩

end RollupSegment

end Ftwdb
