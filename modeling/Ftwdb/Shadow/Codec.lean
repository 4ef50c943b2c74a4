import Ftwdb.Shadow.Protocol

/-!
# The shadow codec is a bijection

Each reader undoes its writer, from words to records to payloads: it takes back
what the writer has written and accepts nothing else, and it does not panic.  The
readers of records are composed field by field (`Undoes.field`); the writer's and
the reader's checks meet where a record is whole.
-/

namespace Ftwdb.Shadow

open ByteCodec Check List

/-! ## Words, texts and options -/

theorem u8_undoes : Undoes Get.u8 Put.u8 := by
  refine .fixed ProtocolError.truncated fun {bs a} => ?_
  constructor
  · rintro ⟨hlength, rfl⟩
    obtain ⟨b, rfl⟩ := length_eq_one_iff.mp hlength
    rfl
  · rintro rfl
    exact ⟨rfl, rfl⟩

theorem u16_undoes : Undoes Get.u16 Put.u16 := .fixed ProtocolError.truncated eq_readBeU16

theorem u32_undoes : Undoes Get.u32 Put.u32 := .fixed ProtocolError.truncated eq_readBeU32

theorem u64_undoes : Undoes Get.u64 Put.u64 := .fixed ProtocolError.truncated eq_readBeU64

theorem u128_undoes : Undoes Get.u128 Put.u128 := .fixed ProtocolError.truncated eq_readBeU128

theorem i64_undoes : Undoes Get.i64 Put.i64 := .fixed ProtocolError.truncated eq_readBeI64

variable {bs : Bytes} {α : Type}

theorem writes_u8_append {b : UInt8} {w : Put} {tag : UInt8} :
    (Put.u8 b ++ w).Writes (tag :: bs) ↔ b = tag ∧ w.Writes bs := by
  rw [Put.u8, Writer.writes_put_append]
  constructor
  · rintro ⟨second, hsecond, h⟩
    obtain ⟨rfl, rfl⟩ := List.cons.inj h
    exact ⟨rfl, hsecond⟩
  · rintro ⟨rfl, hbs⟩
    exact ⟨bs, hbs, rfl⟩

theorem writes_u8 {b tag : UInt8} :
    (Put.u8 b).Writes (tag :: bs) ↔ b = tag ∧ bs = [] := by
  rw [Put.u8, Writer.writes_put, List.cons.injEq]
  exact and_congr_left' eq_comm

theorem boolean_undoes (field : String) : Undoes (Get.boolean field) Put.boolean := by
  refine Undoes.tagged u8_undoes ?_ fun tag => ?_
  · intro a h
    cases Writer.writes_put.mp h
  · split
    · refine (Accepts.pure false).congr fun a bs _ => ?_
      cases a <;> simp [Put.boolean, writes_u8]
    · refine (Accepts.pure true).congr fun a bs _ => ?_
      cases a <;> simp [Put.boolean, writes_u8]
    · next h0 h1 =>
      refine Accepts.refuse fun a bs _ h => ?_
      obtain ⟨rfl, -⟩ := writes_u8.mp h
      cases a
      · exact h0 rfl
      · exact h1 rfl

theorem f64_undoes (field : String) : Undoes (Get.f64 field) (Put.f64 field) := by
  refine (Accepts.checkedMap u64_undoes _ fun bits => (⟨bits⟩ : F64)).congr fun a bs _ => ?_
  rw [Put.f64, Writer.writes_check_append]
  constructor
  · rintro ⟨bits, hfinite, rfl, hbs⟩
    exact ⟨hfinite, hbs⟩
  · rintro ⟨hfinite, hbs⟩
    exact ⟨a.bits, hfinite, rfl, hbs⟩

/-- A tag and then one field. -/
theorem constructor_accepts {β : Type} {get : Get α} {put : α → Put} (h : Undoes get put)
    {mk : α → β} {w : β → Put} {tag : UInt8} (hmk : ∀ a, w (mk a) = Put.u8 tag ++ put a)
    (honly : ∀ b bs, (w b).Writes (tag :: bs) → ∃ a, b = mk a) :
    Accepts (do return mk (← get)) fun b bs _ => (w b).Writes (tag :: bs) := by
  refine (Accepts.map h mk).congr fun b bs rest => ?_
  constructor
  · rintro ⟨a, rfl, hbs⟩
    rw [hmk]
    exact writes_u8_append.mpr ⟨rfl, hbs⟩
  · intro hbs
    obtain ⟨a, rfl⟩ := honly b bs hbs
    rw [hmk] at hbs
    exact ⟨a, rfl, (writes_u8_append.mp hbs).2⟩

/-- A tag byte tells whether there is a value. -/
theorem option_undoes {get : Get α} {put : α → Put} (h : Undoes get put)
    (field : String) : Undoes (Get.option get field) (Put.option put) := by
  refine Undoes.tagged u8_undoes ?_ fun tag => ?_
  · intro a ha
    cases a with
    | none => cases Writer.writes_put.mp ha
    | some a =>
      obtain ⟨_, -, hnil⟩ := Writer.writes_put_append.mp ha
      cases hnil
  · split
    · refine (Accepts.pure none).congr fun a bs _ => ?_
      cases a with
      | none => simp [Put.option, writes_u8]
      | some a => simp [Put.option, writes_u8_append]
    · refine constructor_accepts h (fun _ => rfl) fun o bs hbs => ?_
      cases o with
      | none => cases (writes_u8.mp hbs).1
      | some a => exact ⟨a, rfl⟩
    · next h0 h1 =>
      refine Accepts.refuse fun o bs _ hbs => ?_
      cases o with
      | none => exact h0 (writes_u8.mp hbs).1.symm
      | some a => exact h1 (writes_u8_append.mp hbs).1.symm

/-- Only UTF-8 bytes are taken for a text. -/
theorem textBytes_accepts (n : Nat) (field : String) :
    Accepts (Get.textBytes n field) fun s bs _ =>
      s.toUTF8.data.toList = bs ∧ s.utf8ByteSize = n := by
  refine ((Accepts.takeBytes _ n).bind fun raw _ => Accepts.ensure _).congr fun s bs rest => ?_
  have hread : ∀ raw : Bytes, (Codec.readString raw).elim
      (Except.error (ProtocolError.invalidField field)) Except.ok = .ok s ↔
        s.toUTF8.data.toList = raw := by
    intro raw
    rw [← Codec.readString_eq_some]
    cases Codec.readString raw <;> simp
  constructor
  · rintro ⟨raw, _, _, rfl, ⟨hlength, rfl⟩, hs, rfl⟩
    rw [hread] at hs
    rw [append_nil]
    subst hs
    exact ⟨rfl, hlength⟩
  · rintro ⟨rfl, hsize⟩
    exact ⟨_, _, [], (append_nil _).symm, ⟨hsize, rfl⟩, (hread _).mpr rfl, rfl⟩

/-- A text behind its length, if the length passes a test. -/
theorem sizedText_accepts (p : Nat → Prop) [DecidablePred p] (field : String) :
    Accepts (do
      let n ← Get.u16
      ensure (failIf (p n.toNat) (.invalidField field))
      Get.textBytes n.toNat field) fun s bs _ =>
        (¬ p s.utf8ByteSize ∧ ¬ 65535 < s.utf8ByteSize) ∧
          (Put.u16 (UInt16.ofNat s.utf8ByteSize) ++ .put s.toUTF8.data.toList).Writes bs := by
  refine (Accepts.checkedBind u16_undoes _ fun n =>
    textBytes_accepts n.toNat field).congr fun s bs rest => ?_
  rw [Put.u16, Writer.writes_put_append]
  constructor
  · rintro ⟨n, first, _, rfl, ⟨hp, hfirst⟩, rfl, hsize⟩
    rw [failIf_eq_ok] at hp
    have hlt := n.toNat_lt
    rw [hsize, UInt16.ofNat_toNat]
    refine ⟨⟨hp, by omega⟩, _, Writer.writes_put.mpr rfl, ?_⟩
    rw [Writer.writes_put.mp hfirst]
  · rintro ⟨⟨hp, hsmall⟩, _, hutf8, rfl⟩
    have hsize : (UInt16.ofNat s.utf8ByteSize).toNat = s.utf8ByteSize := by
      rw [UInt16.toNat_ofNat']
      exact Nat.mod_eq_of_lt (by omega)
    refine ⟨_, _, _, rfl, ⟨?_, Writer.writes_put.mpr rfl⟩, ?_, hsize.symm⟩
    · rwa [failIf_eq_ok, hsize]
    · exact (Writer.writes_put.mp hutf8).symm

/-- The length of a text is checked against its maximum on both sides. -/
theorem text_undoes (max : Nat) (field : String) :
    Undoes (Get.text max field) (Put.text max field) := by
  refine (sizedText_accepts (max < ·) field).congr fun s bs _ => ?_
  rw [Put.text, Writer.writes_check_append, failIf_eq_ok, not_or]

theorem string_undoes (max : Nat) (field : String) :
    Undoes (Get.string max field) (Put.string max field) := by
  refine (sizedText_accepts (fun n => n = 0 ∨ max < n) field).congr fun s bs _ => ?_
  rw [Put.string, Put.text, Writer.writes_check_append, Writer.writes_check_append, failIf_eq_ok,
    failIf_eq_ok, String.utf8ByteSize_eq_zero_iff]
  tauto

theorem count_accepts (maximum : Nat) (hmaximum : maximum < 2 ^ 32) (field : String) :
    Accepts (Get.count maximum field) fun n bs _ =>
      n ≤ maximum ∧ (Put.u32 (UInt32.ofNat n)).Writes bs := by
  refine (Accepts.checkedMap u32_undoes _ UInt32.toNat).congr fun n bs rest => ?_
  simp only [failIf_eq_ok, not_lt]
  constructor
  · rintro ⟨n, hle, rfl, hbs⟩
    rw [UInt32.ofNat_toNat]
    exact ⟨hle, hbs⟩
  · rintro ⟨hle, hbs⟩
    have hn : (UInt32.ofNat n).toNat = n :=
      UInt32.toNat_ofNat_of_lt' (Nat.lt_of_le_of_lt hle hmaximum)
    exact ⟨_, by rwa [hn], hn.symm, hbs⟩

theorem finish_accepts : Accepts Get.finish fun _ bs rest => bs = [] ∧ rest = [] := by
  refine (Accepts.remaining.bind fun left _ => Accepts.ensure _).congr fun _ bs rest => ?_
  constructor
  · rintro ⟨_, _, _, rfl, ⟨rfl, rfl⟩, hend, rfl⟩
    rw [failIf_eq_ok, not_not] at hend
    exact ⟨rfl, length_eq_zero_iff.mp hend⟩
  · rintro ⟨rfl, rfl⟩
    exact ⟨0, [], [], rfl, ⟨rfl, rfl⟩, by simp, rfl⟩

/-! ## Enumerations -/

/-- An enumeration whose tags are converted back. -/
theorem enum_undoes {convert : UInt8 → Except ProtocolError α} {byte : α → UInt8}
    (hbyte : ∀ a, convert (byte a) = .ok a) (honly : ∀ v a, convert v = .ok a → v = byte a) :
    Undoes (Get.enum convert) fun a => Put.u8 (byte a) := by
  refine (Accepts.bind u8_undoes fun v _ => Accepts.ensure _).congr fun a bs rest => ?_
  constructor
  · rintro ⟨v, first, _, rfl, hfirst, ha, rfl⟩
    obtain rfl := honly v a ha
    rw [append_nil]
    exact hfirst
  · intro hbs
    exact ⟨byte a, bs, [], (append_nil _).symm, hbs, hbyte a, rfl⟩

theorem seriesSemantics_undoes :
    Undoes (Get.enum seriesSemanticsFrom) fun a => Put.u8 (seriesSemanticsByte a) := by
  refine enum_undoes (fun a => by cases a <;> rfl) fun v a h => ?_
  unfold seriesSemanticsFrom at h
  split at h <;> cases h <;> rfl

theorem calendarUnit_undoes :
    Undoes (Get.enum calendarUnitFrom) fun a => Put.u8 (calendarUnitByte a) := by
  refine enum_undoes (fun a => by cases a <;> rfl) fun v a h => ?_
  unfold calendarUnitFrom at h
  split at h <;> cases h <;> rfl

theorem runKind_undoes : Undoes (Get.enum runKindFrom) fun a => Put.u8 (runKindByte a) := by
  refine enum_undoes (fun a => by cases a <;> rfl) fun v a h => ?_
  unfold runKindFrom at h
  split at h <;> cases h <;> rfl

theorem runStatus_undoes : Undoes (Get.enum runStatusFrom) fun a => Put.u8 (runStatusByte a) := by
  refine enum_undoes (fun a => by cases a <;> rfl) fun v a h => ?_
  unfold runStatusFrom at h
  split at h <;> cases h <;> rfl

theorem planStatus_undoes :
    Undoes (Get.enum planStatusFrom) fun a => Put.u8 (planStatusByte a) := by
  refine enum_undoes (fun a => by cases a <;> rfl) fun v a h => ?_
  unfold planStatusFrom at h
  split at h <;> cases h <;> rfl

theorem ackKind_undoes : Undoes (Get.enum ackKindFrom) fun a => Put.u8 (ackKindByte a) := by
  refine enum_undoes (fun a => by cases a <;> rfl) fun v a h => ?_
  unfold ackKindFrom at h
  split at h <;> cases h <;> rfl

theorem status_undoes : Undoes (Get.enum statusFrom) fun a => Put.u8 (statusByte a) := by
  refine enum_undoes (fun a => by cases a <;> rfl) fun v a h => ?_
  unfold statusFrom at h
  split at h <;> cases h <;> rfl

theorem error_undoes : Undoes (Get.enum errorFrom) fun a => Put.u8 (errorByte a) := by
  refine enum_undoes (fun a => by cases a <;> rfl) fun v a h => ?_
  unfold errorFrom at h
  split at h <;> cases h <;> rfl

/-! ## Records -/

/-- The first byte of a value. -/
def PropertyValue.tag : PropertyValue → UInt8
  | .null => 0
  | .bool _ => 1
  | .integer _ => 2
  | .float _ => 3
  | .text _ => 4

theorem head_encodePropertyValue {v : PropertyValue}
    (h : (encodePropertyValue v).Writes bs) : ∃ more, bs = PropertyValue.tag v :: more := by
  cases v with
  | null => exact ⟨[], Writer.writes_put.mp h⟩
  | _ =>
    obtain ⟨more, -, rfl⟩ := Writer.writes_put_append.mp h
    exact ⟨more, rfl⟩

/-- A tagged value; the tag selects the reader. -/
theorem propertyValue_undoes : Undoes decodePropertyValue encodePropertyValue := by
  have hhead : ∀ {v : PropertyValue} {tag : UInt8} {bs : Bytes},
      (encodePropertyValue v).Writes (tag :: bs) → PropertyValue.tag v = tag := by
    intro v tag bs h
    obtain ⟨more, hmore⟩ := head_encodePropertyValue h
    exact (List.cons.inj hmore).1.symm
  refine Undoes.tagged u8_undoes ?_ fun tag => ?_
  · intro v h
    obtain ⟨more, hmore⟩ := head_encodePropertyValue h
    cases hmore
  split
  · refine (Accepts.pure PropertyValue.null).congr fun v bs _ => ⟨?_, ?_⟩
    · rintro ⟨rfl, rfl⟩
      exact Writer.writes_put.mpr rfl
    · intro h
      cases v with
      | null => exact ⟨rfl, (List.cons.inj (Writer.writes_put.mp h)).2⟩
      | _ => cases hhead h
  · refine constructor_accepts (boolean_undoes _) (fun _ => rfl) fun v bs h => ?_
    cases v with
    | bool v => exact ⟨v, rfl⟩
    | _ => cases hhead h
  · refine constructor_accepts i64_undoes (fun _ => rfl) fun v bs h => ?_
    cases v with
    | integer v => exact ⟨v, rfl⟩
    | _ => cases hhead h
  · refine constructor_accepts (f64_undoes _) (fun _ => rfl) fun v bs h => ?_
    cases v with
    | float v => exact ⟨v, rfl⟩
    | _ => cases hhead h
  · refine constructor_accepts (text_undoes _ _) (fun _ => rfl) fun v bs h => ?_
    cases v with
    | text v => exact ⟨v, rfl⟩
    | _ => cases hhead h
  · next h0 h1 h2 h3 h4 =>
    refine Accepts.refuse fun v bs _ h => ?_
    cases v with
    | null => exact h0 (hhead h).symm
    | bool v => exact h1 (hhead h).symm
    | integer v => exact h2 (hhead h).symm
    | float v => exact h3 (hhead h).symm
    | text v => exact h4 (hhead h).symm

/-- A map behind the number of its entries. -/
theorem map_undoes {value : Get α} {put : α → Put} (hvalue : Undoes value put)
    (field countField : String) (disorder tooMany : ProtocolError) :
    Undoes (do
      let count ← Get.count maxProperties countField
      entries (Get.string maxKeyBytes field) value disorder count none ∅)
      fun values : Std.ExtTreeMap String α =>
        .check (failIf (maxProperties < values.size) tooMany) ++
          (Put.u32 (UInt32.ofNat values.size) ++
            .each (fun p => Put.string maxKeyBytes field p.1 ++ put p.2) values.toList) := by
  refine ((count_accepts maxProperties (by decide) countField).bind fun n _ =>
    Undoes.entries (string_undoes maxKeyBytes field) hvalue disorder n).congr fun m bs rest => ?_
  rw [Writer.writes_check_append, failIf_eq_ok, not_lt, Writer.writes_append]
  constructor
  · rintro ⟨_, first, second, rfl, ⟨hle, hfirst⟩, rfl, hsecond⟩
    exact ⟨hle, first, second, hfirst, hsecond, rfl⟩
  · rintro ⟨hle, first, second, hfirst, hsecond, rfl⟩
    exact ⟨_, first, second, rfl, ⟨hle, hfirst⟩, rfl, hsecond⟩

theorem properties_undoes : Undoes decodeProperties encodeProperties :=
  map_undoes propertyValue_undoes ..

theorem objectiveTerms_undoes : Undoes decodeObjectiveTerms encodeObjectiveTerms :=
  map_undoes (f64_undoes _) ..

theorem entity_undoes : Undoes decodeEntity encodeEntity := by
  refine .of_fields (
    u128_undoes.field Entity.id fun _ => (string_undoes _ _).field Entity.kind fun _ =>
    (string_undoes _ _).field Entity.name fun _ =>
    (option_undoes u128_undoes _).field Entity.parent fun _ =>
    i64_undoes.field Entity.validFrom fun _ =>
    (option_undoes i64_undoes _).field Entity.validTo fun _ =>
    properties_undoes.last Entity.properties ?_) fun v => ?_
  · rintro properties ⟨⟩
    simp only [Entity.mk.injEq]
    tauto
  · simp only [encodeEntity, Writer.append_assoc]

theorem relation_undoes : Undoes decodeRelation encodeRelation := by
  refine .of_fields (
    u128_undoes.field Relation.id fun _ => (string_undoes _ _).field Relation.kind fun _ =>
    u128_undoes.field Relation.source fun _ => u128_undoes.field Relation.target fun _ =>
    i64_undoes.field Relation.validFrom fun _ =>
    (option_undoes i64_undoes _).field Relation.validTo fun _ =>
    properties_undoes.last Relation.properties ?_) fun v => ?_
  · rintro properties ⟨⟩
    simp only [Relation.mk.injEq]
    tauto
  · simp only [encodeRelation, Writer.append_assoc]

/-- The first byte of a resolution. -/
def RollupResolution.tag : RollupResolution → UInt8
  | .fixedMicros _ => 1
  | .calendar _ _ => 2

theorem rollupResolution_undoes : Undoes decodeRollupResolution encodeRollupResolution := by
  have hhead : ∀ {v : RollupResolution} {bs : Bytes}, (encodeRollupResolution v).Writes bs →
      ∃ more, bs = RollupResolution.tag v :: more := by
    intro v bs h
    cases v with
    | _ =>
      obtain ⟨more, -, rfl⟩ := Writer.writes_put_append.mp h
      exact ⟨more, rfl⟩
  refine Undoes.tagged u8_undoes ?_ fun tag => ?_
  · intro v h
    obtain ⟨more, hmore⟩ := hhead h
    cases hmore
  split
  · refine constructor_accepts i64_undoes (fun _ => rfl) fun v bs h => ?_
    cases v with
    | fixedMicros v => exact ⟨v, rfl⟩
    | calendar unit zone =>
      obtain ⟨more, hmore⟩ := hhead h
      cases hmore
  · refine (Accepts.bind calendarUnit_undoes fun unit _ =>
      Accepts.bind (string_undoes _ _) fun zone _ =>
        .pure (RollupResolution.calendar unit zone)).congr fun v bs rest => ?_
    constructor
    · rintro ⟨unit, first, _, rfl, hfirst, zone, second, _, rfl, hsecond, rfl, rfl⟩
      rw [append_nil]
      exact writes_u8_append.mpr
        ⟨rfl, Writer.writes_append.mpr ⟨first, second, hfirst, hsecond, rfl⟩⟩
    · intro h
      cases v with
      | fixedMicros v =>
        obtain ⟨more, hmore⟩ := hhead h
        cases hmore
      | calendar unit zone =>
        obtain ⟨first, second, hfirst, hsecond, rfl⟩ :=
          Writer.writes_append.mp (writes_u8_append.mp h).2
        exact ⟨unit, first, second, rfl, hfirst, zone, second, [], (append_nil _).symm, hsecond,
          rfl, rfl⟩
  · next h1 h2 =>
    refine Accepts.refuse fun v bs _ h => ?_
    obtain ⟨more, hmore⟩ := hhead h
    obtain ⟨htag, -⟩ := List.cons.inj hmore
    cases v with
    | fixedMicros v => exact h1 htag
    | calendar unit zone => exact h2 htag

theorem rollupTier_undoes : Undoes decodeRollupTier encodeRollupTier := by
  refine .of_fields (rollupResolution_undoes.field RollupTier.resolution fun _ =>
    (option_undoes i64_undoes _).last RollupTier.retainForMicros ?_) fun _ => rfl
  rintro retain ⟨⟩
  simp only [RollupTier.mk.injEq]
  tauto

/-- A counted list is checked before its items are read. -/
theorem counted_accepts {get : Get α} {put : α → Put} (h : Undoes get put)
    {maximum : Nat} (hmaximum : maximum < 2 ^ 32) (field : String) :
    Accepts (Get.counted maximum field get) fun values bs _ =>
      values.length ≤ maximum ∧ (Put.counted put values).Writes bs := by
  refine ((count_accepts maximum hmaximum field).bind fun n _ => h.times n).congr
    fun values bs rest => ?_
  rw [Put.counted, Writer.writes_append]
  constructor
  · rintro ⟨_, first, second, rfl, ⟨hle, hfirst⟩, rfl, hsecond⟩
    exact ⟨hle, first, second, hfirst, hsecond, rfl⟩
  · rintro ⟨hle, first, second, hfirst, hsecond, rfl⟩
    exact ⟨_, first, second, rfl, ⟨hle, hfirst⟩, rfl, hsecond⟩

theorem rollupPolicy_undoes : Undoes decodeRollupPolicy encodeRollupPolicy := by
  have htiers := counted_accepts rollupTier_undoes (show maxRollupTiers < 2 ^ 32 by decide)
    "rollup tier count"
  refine (Accepts.bind (option_undoes i64_undoes "raw retention") fun raw _ =>
    htiers.bind fun tiers _ => .pure (RollupPolicy.mk raw tiers)).congr fun v bs rest => ?_
  rw [encodeRollupPolicy, Writer.writes_check_append, failIf_eq_ok, not_lt, Writer.writes_append]
  constructor
  · rintro ⟨raw, first, _, rfl, hfirst, tiers, second, _, rfl, ⟨hle, hsecond⟩, rfl, rfl⟩
    exact ⟨hle, first, second, hfirst, hsecond, by rw [append_nil]⟩
  · rintro ⟨hle, first, second, hfirst, hsecond, rfl⟩
    exact ⟨v.rawRetainForMicros, first, second, rfl, hfirst, v.tiers, second, [],
      (append_nil _).symm, ⟨hle, hsecond⟩, rfl, rfl⟩

/-- A record that is checked when it is whole. -/
theorem checked_undoes {get : Get α} {put : α → Put} (h : Undoes get put)
    (check : α → Except ProtocolError Unit) :
    Undoes (do
      let v ← get
      ensure (check v)
      return v) fun v => .check (check v) ++ put v :=
  (Accepts.checked h check).congr fun _ _ _ => Writer.writes_check_append.symm

/-- A series is read back with its policy, and checked. -/
theorem series_undoes [Jiff] : Undoes decodeSeries encodeSeries := by
  refine checked_undoes (.of_fields (
    u64_undoes.field SeriesDefinition.id fun _ =>
    (option_undoes u128_undoes _).field SeriesDefinition.ownerEntity fun _ =>
    (option_undoes u128_undoes _).field SeriesDefinition.ownerRelation fun _ =>
    (string_undoes _ _).field SeriesDefinition.name fun _ =>
    (string_undoes _ _).field SeriesDefinition.physicalQuantity fun _ =>
    (string_undoes _ _).field SeriesDefinition.canonicalUnit fun _ =>
    seriesSemantics_undoes.field SeriesDefinition.semantics fun _ =>
    (option_undoes i64_undoes _).field SeriesDefinition.maximumGapMicros fun _ =>
    rollupPolicy_undoes.last SeriesDefinition.rollupPolicy ?_) fun v => ?_) _
  · rintro rollupPolicy ⟨⟩
    simp only [SeriesDefinition.mk.injEq]
    tauto
  · simp only [Writer.append_assoc]

theorem run_undoes : Undoes decodeRun encodeRun := by
  refine .of_fields (
    u128_undoes.field Run.id fun _ => runKind_undoes.field Run.kind fun _ =>
    runStatus_undoes.field Run.status fun _ => i64_undoes.field Run.createdAt fun _ =>
    i64_undoes.field Run.knowledgeTime fun _ => (string_undoes _ _).field Run.workflow fun _ =>
    (text_undoes _ _).field Run.model fun _ => (text_undoes _ _).field Run.modelVersion fun _ =>
    (option_undoes u128_undoes _).field Run.parentRun fun _ =>
    (option_undoes u128_undoes _).field Run.inputSnapshot fun _ =>
    properties_undoes.last Run.attributes ?_) fun v => ?_
  · rintro attributes ⟨⟩
    simp only [Run.mk.injEq]
    tauto
  · simp only [encodeRun, Writer.append_assoc]

theorem plan_undoes : Undoes decodePlan encodePlan := by
  refine checked_undoes (.of_fields (
    u128_undoes.field Plan.id fun _ => u128_undoes.field Plan.runId fun _ =>
    planStatus_undoes.field Plan.status fun _ => i64_undoes.field Plan.horizonStart fun _ =>
    i64_undoes.field Plan.horizonEnd fun _ => i64_undoes.field Plan.resolutionMicros fun _ =>
    (string_undoes _ _).field Plan.scenario fun _ =>
    objectiveTerms_undoes.field Plan.objectiveTerms fun _ =>
    (option_undoes (f64_undoes _) _).field Plan.objectiveValue fun _ =>
    (option_undoes u128_undoes _).field Plan.supersedes fun _ =>
    properties_undoes.last Plan.attributes ?_) fun v => ?_) _
  · rintro attributes ⟨⟩
    simp only [Plan.mk.injEq]
    tauto
  · simp only [Writer.append_assoc]

theorem point_undoes : Undoes getPoint putPoint := by
  refine .of_fields (
    u64_undoes.field Point.seriesId fun _ => i64_undoes.field Point.validTime fun _ =>
    i64_undoes.field Point.validTimeEnd fun _ => i64_undoes.field Point.knowledgeTime fun _ =>
    i64_undoes.field Point.changeTime fun _ => u128_undoes.field Point.runId fun _ =>
    u64_undoes.field (fun p => p.value.bits) fun _ => u32_undoes.field Point.quality fun _ =>
    u32_undoes.last Point.flags ?_) fun v => ?_
  · rintro flags ⟨_, _, _, _, _, _, ⟨_⟩, _, _⟩
    simp only [Point.mk.injEq, F64.mk.injEq]
    tauto
  · simp only [putPoint, Writer.append_assoc]

theorem length_putPoint {p : Point} (h : (putPoint p).Writes bs) : bs.length = 72 := by
  simp only [putPoint, Put.u64, Put.i64, Put.u128, Put.u32, Writer.append_assoc,
    Writer.writes_put_append, Writer.writes_put] at h
  obtain ⟨_, ⟨_, ⟨_, ⟨_, ⟨_, ⟨_, ⟨_, ⟨_, rfl, rfl⟩, rfl⟩, rfl⟩, rfl⟩, rfl⟩, rfl⟩, rfl⟩, rfl⟩ := h
  simp

theorem length_putPoints {ps : List Point} (h : (Writer.each putPoint ps).Writes bs) :
    bs.length = ps.length * 72 := by
  induction ps generalizing bs with
  | nil =>
    obtain rfl := Writer.writes_put.mp h
    rfl
  | cons p ps ih =>
    obtain ⟨first, second, hfirst, hsecond, rfl⟩ := Writer.writes_append.mp h
    rw [length_append, length_putPoint hfirst, ih hsecond, length_cons]
    omega

/-- The points are the last field and use up the payload. -/
theorem points_accepts : Accepts Get.points fun ps bs rest =>
    ps.length ≤ maxBatchPoints ∧ rest = [] ∧ (Put.counted putPoint ps).Writes bs := by
  refine (Accepts.checkedBind u32_undoes _ fun n => Accepts.remaining.checkedBind _ fun left =>
    point_undoes.times n.toNat).congr fun ps bs rest => ?_
  rw [Put.counted, Writer.writes_append]
  constructor
  · rintro ⟨n, first, _, rfl, ⟨hle, hfirst⟩, _, _, second, rfl, ⟨hall, rfl, rfl⟩, hlength, hsecond⟩
    rw [failIf_eq_ok, not_lt] at hle
    rw [failIf_eq_ok, not_not, length_append, length_putPoints hsecond, hlength] at hall
    rw [hlength, UInt32.ofNat_toNat]
    exact ⟨hle, length_eq_zero_iff.mp (by omega), first, second, hfirst, hsecond, rfl⟩
  · rintro ⟨hle, rfl, first, second, hfirst, hsecond, rfl⟩
    have hn : (UInt32.ofNat ps.length).toNat = ps.length :=
      UInt32.toNat_ofNat_of_lt' (Nat.lt_of_le_of_lt hle (by decide))
    refine ⟨_, first, second, rfl, ⟨?_, hfirst⟩, second.length, [], second, rfl,
      ⟨?_, by simp, rfl⟩, hn.symm, hsecond⟩
    · rwa [failIf_eq_ok, hn, not_lt]
    · rw [failIf_eq_ok, hn, not_not, length_putPoints hsecond]

/-! ## Payloads -/

theorem hello_undoes : Undoes decodeHello putHello := by
  refine .of_fields (
    u128_undoes.field HelloRequest.sourceId fun _ =>
    (string_undoes _ _).field HelloRequest.nodeId fun _ =>
    (string_undoes _ _).field HelloRequest.clientVersion fun _ =>
    u64_undoes.last HelloRequest.capabilities ?_) fun v => ?_
  · rintro capabilities ⟨⟩
    simp only [HelloRequest.mk.injEq]
    tauto
  · simp only [putHello, Writer.append_assoc]

theorem flush_undoes : Undoes decodeFlush putFlush := by
  refine .of_fields (u128_undoes.field FlushRequest.sourceId fun _ =>
    u64_undoes.last FlushRequest.throughSequence ?_) fun _ => rfl
  rintro sequence ⟨⟩
  simp only [FlushRequest.mk.injEq]
  tauto

theorem healthRequest_undoes : Undoes decodeHealthRequest encodeHealthRequest := by
  refine .of_fields (u64_undoes.last HealthRequest.nonce ?_) fun _ => rfl
  rintro nonce ⟨⟩
  simp

theorem toSessionId_accepts {raw : Bytes} (h : raw.length = 16) :
    Accepts (toSessionId raw) fun v bs _ => v.bytes = raw ∧ bs = [] := by
  have hpure : toSessionId raw = pure ⟨raw, h⟩ := by
    funext c
    exact dif_pos h
  rw [hpure]
  exact (Accepts.pure _).congr fun v bs _ => and_congr_left' (by cases v; simp)

theorem sessionId_undoes : Undoes getSessionId fun v => .put v.bytes := by
  refine ((Accepts.takeBytes ProtocolError.truncated 16).bind fun raw ⟨_, _, hlength, hraw⟩ =>
    toSessionId_accepts (hraw ▸ hlength)).congr fun v bs rest => ?_
  rw [Writer.writes_put]
  constructor
  · rintro ⟨raw, _, _, rfl, ⟨-, rfl⟩, rfl, rfl⟩
    exact append_nil _
  · rintro rfl
    exact ⟨v.bytes, v.bytes, [], (append_nil _).symm, ⟨v.length, rfl⟩, rfl, rfl⟩

theorem helloResponse_undoes : Undoes decodeHelloResponse encodeHelloResponse := by
  refine (Accepts.checkedBind u16_undoes _ fun version =>
    Accepts.bind sessionId_undoes fun session _ => Accepts.bind i64_undoes fun time _ =>
      .pure (HelloResponse.mk version session time)).congr fun v bs rest => ?_
  rw [encodeHelloResponse, Writer.writes_check_append, Writer.append_assoc, Writer.writes_append]
  constructor
  · rintro ⟨version, first, _, rfl, ⟨hversion, hfirst⟩, session, second, _, rfl, hsecond, time,
      third, _, rfl, hthird, rfl, rfl⟩
    exact ⟨hversion, first, second ++ third, hfirst,
      Writer.writes_append.mpr ⟨second, third, hsecond, hthird, rfl⟩, by simp⟩
  · rintro ⟨hversion, first, _, hfirst, hmore, rfl⟩
    obtain ⟨second, third, hsecond, hthird, rfl⟩ := Writer.writes_append.mp hmore
    exact ⟨v.selectedVersion, first, second ++ third, rfl, ⟨hversion, hfirst⟩, v.sessionId, second,
      third, rfl, hsecond, v.serverTimeMicros, third, [], (append_nil _).symm, hthird, rfl, rfl⟩

theorem ack_undoes : Undoes decodeAck putAck := by
  refine .of_fields (
    ackKind_undoes.field Ack.kind fun _ => u128_undoes.field Ack.sourceId fun _ =>
    u64_undoes.field Ack.sequence fun _ => u128_undoes.field Ack.commitId fun _ =>
    (option_undoes u64_undoes _).field Ack.acceptedThroughSequence fun _ =>
    (option_undoes u64_undoes _).field Ack.durableThroughSequence fun _ =>
    (boolean_undoes _).field Ack.durable fun _ => (boolean_undoes _).field Ack.deduplicated fun _ =>
    u64_undoes.field Ack.frameOffset fun _ => u32_undoes.field Ack.records fun _ =>
    u32_undoes.field Ack.points fun _ => u64_undoes.last Ack.bytesWritten ?_) fun v => ?_
  · rintro bytesWritten ⟨⟩
    simp only [Ack.mk.injEq]
    tauto
  · simp only [putAck, Writer.append_assoc]

theorem errorResponse_undoes : Undoes decodeErrorResponse encodeErrorResponse := by
  refine .of_fields (
    error_undoes.field ErrorResponse.code fun _ => (boolean_undoes _).field ErrorResponse.retryable
    fun _ => (string_undoes _ _).last ErrorResponse.message ?_) fun v => ?_
  · rintro message ⟨⟩
    simp only [ErrorResponse.mk.injEq]
    tauto
  · simp only [encodeErrorResponse, Writer.append_assoc]

/-- A word behind the tag of a policy, if it passes a test. -/
theorem policyBytes_accepts (p : UInt64 → Prop) [DecidablePred p] (mk : UInt64 → SyncPolicy) :
    Accepts (do
      let bytes ← Get.u64
      ensure (failIf (p bytes) (.invalidField "sync every-bytes"))
      return mk bytes) fun v bs _ => ∃ bytes, ¬ p bytes ∧ v = mk bytes ∧ bs = beU64 bytes := by
  refine (Accepts.checkedMap u64_undoes _ mk).congr fun v bs rest => exists_congr fun bytes => ?_
  rw [failIf_eq_ok, Put.u64, Writer.writes_put]

theorem syncPolicy_undoes : Undoes syncPolicyFrom putSyncPolicy := by
  have hput : ∀ {tag b : UInt8} {bytes : UInt64} {bs : Bytes},
      (Put.u8 b ++ Put.u64 bytes).Writes (tag :: bs) ↔ b = tag ∧ bs = beU64 bytes := by
    intro tag b bytes bs
    rw [writes_u8_append, Put.u64, Writer.writes_put]
  refine Undoes.tagged u8_undoes ?_ fun tag => ?_
  · intro v h
    cases v with
    | everyBytes bytes =>
      obtain ⟨_, -, hnil⟩ := Writer.writes_put_append.mp (Writer.writes_check_append.mp h).2
      cases hnil
    | _ =>
      obtain ⟨_, -, hnil⟩ := Writer.writes_put_append.mp h
      cases hnil
  split
  · refine (policyBytes_accepts (· ≠ 0) fun _ => .always).congr fun v bs _ => ?_
    cases v <;> simp [putSyncPolicy, hput]
  · refine (policyBytes_accepts (· ≠ 0) fun _ => .manual).congr fun v bs _ => ?_
    cases v <;> simp [putSyncPolicy, hput]
  · refine (policyBytes_accepts (· = 0) .everyBytes).congr fun v bs _ => ?_
    cases v <;> simp [putSyncPolicy, hput]
  · next h1 h2 h3 =>
    refine Accepts.refuse fun v bs _ h => ?_
    cases v with
    | always => exact h1 (hput.mp h).1.symm
    | manual => exact h2 (hput.mp h).1.symm
    | everyBytes bytes => exact h3 (hput.mp (Writer.writes_check_append.mp h).2).1.symm

theorem limits_of_validateBatch [Jiff] {v : CommitBatchRequest} (h : validateBatch v = .ok ()) :
    v.metadata ≤ maxMetadataRecords ∧ v.points.length ≤ maxBatchPoints := by
  simp only [validateBatch, bind_eq_ok, failIf_eq_ok, not_lt] at h
  obtain ⟨_, -, _, hmetadata, _, hpoints, -⟩ := h
  exact ⟨hmetadata, hpoints⟩

/-- Each collection takes from what the others leave of the records. -/
theorem collection_accepts {get : Get α} {put : α → Put} (h : Undoes get put)
    {left : Nat} (hleft : left ≤ maxMetadataRecords) :
    Accepts (decodeCollection left get) fun values bs _ =>
      values.length ≤ left ∧ (Put.counted put values).Writes bs :=
  counted_accepts h (Nat.lt_of_le_of_lt hleft (by decide)) _

/-- The second half of a batch.  Its points end the payload. -/
theorem batchTail_accepts [Jiff] {left : Nat} (hleft : left ≤ maxMetadataRecords)
    (mk : List Run → List Plan → List Point → CommitBatchRequest) :
    Accepts (do
      let runs ← decodeCollection left decodeRun
      let plans ← decodeCollection (left - runs.length) decodePlan
      let points ← Get.points
      ensure (validateBatch (mk runs plans points))
      return mk runs plans points) fun v bs rest => ∃ runs plans points,
        v = mk runs plans points ∧ (runs.length + plans.length ≤ left ∧
          points.length ≤ maxBatchPoints) ∧ rest = [] ∧ validateBatch v = .ok () ∧
        (Put.counted encodeRun runs ++ (Put.counted encodePlan plans ++
          Put.counted putPoint points)).Writes bs := by
  refine ((collection_accepts run_undoes hleft).bind fun runs _ =>
    (collection_accepts plan_undoes ((Nat.sub_le ..).trans hleft)).bind fun plans _ =>
    points_accepts.checkedMap _ (mk runs plans)).congr fun v bs rest => ?_
  constructor
  · rintro ⟨runs, b₁, _, rfl, ⟨hruns, h₁⟩, plans, b₂, b₃, rfl, ⟨hplans, h₂⟩, points, hvalid, rfl,
      hpoints, hrest, h₃⟩
    exact ⟨runs, plans, points, rfl, ⟨by omega, hpoints⟩, hrest, hvalid,
      h₁.append (h₂.append h₃)⟩
  · rintro ⟨runs, plans, points, rfl, ⟨hmetadata, hpoints⟩, rfl, hvalid, h⟩
    obtain ⟨b₁, _, h₁, hmore, rfl⟩ := Writer.writes_append.mp h
    obtain ⟨b₂, b₃, h₂, h₃, rfl⟩ := Writer.writes_append.mp hmore
    exact ⟨runs, b₁, _, rfl, ⟨by omega, h₁⟩, plans, b₂, _, rfl, ⟨by omega, h₂⟩, points, hvalid, rfl,
      hpoints, rfl, h₃⟩

/-- Exactly the bytes that the writer makes of a valid batch. -/
theorem commitBatch_accepts [Jiff] : Accepts decodeCommitBatch fun v bs rest =>
    rest = [] ∧ (encodeCommitBatch v).Writes bs := by
  refine (Accepts.bind u128_undoes fun sourceId _ => Accepts.bind u64_undoes fun sequence _ =>
    Accepts.bind u128_undoes fun commitId _ =>
    (collection_accepts entity_undoes (Nat.le_refl _)).bind fun entities _ =>
    (collection_accepts relation_undoes (Nat.sub_le ..)).bind fun relations _ =>
    (collection_accepts series_undoes ((Nat.sub_le ..).trans (Nat.sub_le ..))).bind fun series _ =>
    batchTail_accepts ((Nat.sub_le ..).trans ((Nat.sub_le ..).trans (Nat.sub_le ..)))
      (CommitBatchRequest.mk sourceId sequence commitId entities relations series)).congr
    fun v bs rest => ?_
  rw [encodeCommitBatch, Writer.writes_check_append]
  simp only [Writer.append_assoc]
  constructor
  · rintro ⟨sourceId, b₁, _, rfl, h₁, sequence, b₂, _, rfl, h₂, commitId, b₃, _, rfl, h₃, entities,
      b₄, _, rfl, ⟨-, h₄⟩, relations, b₅, _, rfl, ⟨-, h₅⟩, series, b₆, _, rfl, ⟨-, h₆⟩, runs, plans,
      points, rfl, -, hrest, hvalid, h₇⟩
    exact ⟨hrest, hvalid,
      h₁.append (h₂.append (h₃.append (h₄.append (h₅.append (h₆.append h₇)))))⟩
  · rintro ⟨rfl, hvalid, h⟩
    obtain ⟨b₁, _, h₁, m₁, rfl⟩ := Writer.writes_append.mp h
    obtain ⟨b₂, _, h₂, m₂, rfl⟩ := Writer.writes_append.mp m₁
    obtain ⟨b₃, _, h₃, m₃, rfl⟩ := Writer.writes_append.mp m₂
    obtain ⟨b₄, _, h₄, m₄, rfl⟩ := Writer.writes_append.mp m₃
    obtain ⟨b₅, _, h₅, m₅, rfl⟩ := Writer.writes_append.mp m₄
    obtain ⟨b₆, b₇, h₆, h₇, rfl⟩ := Writer.writes_append.mp m₅
    obtain ⟨hmetadata, hpoints⟩ := limits_of_validateBatch hvalid
    rw [CommitBatchRequest.metadata] at hmetadata
    exact ⟨_, b₁, _, rfl, h₁, _, b₂, _, rfl, h₂, _, b₃, _, rfl, h₃, _, b₄, _, rfl,
      ⟨by omega, h₄⟩, _, b₅, _, rfl, ⟨by omega, h₅⟩, _, b₆, b₇, rfl, ⟨by omega, h₆⟩, v.runs,
      v.plans, v.points, rfl, ⟨by omega, hpoints⟩, rfl, hvalid, h₇⟩

/-! ## Health responses -/

/-- The fields that the legacy form leaves out have these values. -/
structure HealthResponse.Legacy (v : HealthResponse) : Prop where
  overloadCount : v.overloadCount = 0
  protocolErrorCount : v.protocolErrorCount = 0
  databaseBytes : v.databaseBytes = 0
  databasePoints : v.databasePoints = 0
  databaseCommits : v.databaseCommits = 0
  recoveredTailBytes : v.recoveredTailBytes = 0
  syncPolicy : v.syncPolicy = .always
  lastAckDurable : v.lastAckDurable = false

/-- The two agree up to where the legacy form stops. -/
structure HealthResponse.SameHead (h v : HealthResponse) : Prop where
  nonce : v.nonce = h.nonce
  sourceId : v.sourceId = h.sourceId
  status : v.status = h.status
  queueEntries : v.queueEntries = h.queueEntries
  acceptedThroughSequence : v.acceptedThroughSequence = h.acceptedThroughSequence
  durableThroughSequence : v.durableThroughSequence = h.durableThroughSequence

/-- The head without the check of the source. -/
def healthHead (v : HealthResponse) : Put :=
  Put.u64 v.nonce ++ (Put.u128 v.sourceId ++ (Put.u8 (statusByte v.status) ++
    (Put.u32 v.queueEntries ++ (Put.option Put.u64 v.acceptedThroughSequence ++
      Put.option Put.u64 v.durableThroughSequence))))

/-- The fields that every version of the response has. -/
theorem healthHead_accepts :
    Accepts getHealthHead fun v bs _ => v.Legacy ∧ (healthHead v).Writes bs := by
  refine u64_undoes.field HealthResponse.nonce fun _ =>
    u128_undoes.field HealthResponse.sourceId fun _ =>
    status_undoes.field HealthResponse.status fun _ =>
    u32_undoes.field HealthResponse.queueEntries fun _ =>
    (option_undoes u64_undoes _).field HealthResponse.acceptedThroughSequence fun _ =>
    (option_undoes u64_undoes _).last HealthResponse.durableThroughSequence ?_
  rintro durable v
  constructor
  · rintro rfl
    exact ⟨rfl, rfl, rfl, rfl, rfl, rfl, ⟨rfl, rfl, rfl, rfl, rfl, rfl, rfl, rfl⟩⟩
  · cases v
    rintro ⟨rfl, rfl, rfl, rfl, rfl, rfl, ⟨rfl, rfl, rfl, rfl, rfl, rfl, rfl, rfl⟩⟩
    rfl

/-- The optional fields behind them. -/
theorem healthTail_accepts (h : HealthResponse) :
    Accepts (getHealthTail h) fun v bs _ => h.SameHead v ∧ (putHealthTail v).Writes bs := by
  simp only [putHealthTail, Writer.append_assoc]
  refine u64_undoes.field HealthResponse.overloadCount fun _ =>
    u64_undoes.field HealthResponse.protocolErrorCount fun _ =>
    u64_undoes.field HealthResponse.databaseBytes fun _ =>
    u64_undoes.field HealthResponse.databasePoints fun _ =>
    u64_undoes.field HealthResponse.databaseCommits fun _ =>
    u64_undoes.field HealthResponse.recoveredTailBytes fun _ =>
    syncPolicy_undoes.field HealthResponse.syncPolicy fun _ =>
    (boolean_undoes _).last HealthResponse.lastAckDurable ?_
  rintro lastAckDurable v
  constructor
  · rintro rfl
    exact ⟨rfl, rfl, rfl, rfl, rfl, rfl, rfl, rfl, ⟨rfl, rfl, rfl, rfl, rfl, rfl⟩⟩
  · cases v
    rintro ⟨rfl, rfl, rfl, rfl, rfl, rfl, rfl, rfl, ⟨rfl, rfl, rfl, rfl, rfl, rfl⟩⟩
    rfl

theorem HealthResponse.SameHead.healthHead_eq {h v : HealthResponse} (hsame : h.SameHead v) :
    healthHead v = healthHead h := by
  rw [healthHead, healthHead, hsame.nonce, hsame.sourceId, hsame.status, hsame.queueEntries,
    hsame.acceptedThroughSequence, hsame.durableThroughSequence]

/-- The rest of a response is not empty. -/
theorem length_putHealthTail {v : HealthResponse} (h : (putHealthTail v).Writes bs) :
    0 < bs.length := by
  simp only [putHealthTail, Writer.append_assoc, Put.u64] at h
  obtain ⟨second, -, rfl⟩ := Writer.writes_put_append.mp h
  simp

/-- The legacy form, or the whole one. -/
theorem healthResponse_accepts : Accepts decodeHealthResponse fun v bs rest =>
    checkQueue v.queueEntries = .ok () ∧ (v.Legacy ∧ rest = [] ∧ (healthHead v).Writes bs ∨
      (healthHead v ++ putHealthTail v).Writes bs) := by
  have hrest : ∀ (head : HealthResponse) (left : Nat),
      Accepts (getHealthRest head left) fun v bs _ =>
        0 < left ∧ head.SameHead v ∧ (putHealthTail v).Writes bs ∨
          left = 0 ∧ v = head ∧ bs = [] := by
    intro head left
    rw [getHealthRest]
    split
    · next hleft => exact (healthTail_accepts head).congr fun v bs _ => by simp [hleft, hleft.ne']
    · next hleft =>
      exact (Accepts.pure head).congr fun v bs _ => by simp [Nat.eq_zero_of_not_pos hleft]
  refine (healthHead_accepts.bind fun head _ => Accepts.remaining.bind fun left _ =>
    (hrest head left).checked _).congr fun v bs rest => ?_
  constructor
  · rintro ⟨head, first, _, rfl, ⟨hlegacy, hfirst⟩, left, _, second, rfl, ⟨rfl, rfl⟩, hqueue,
      ⟨-, hsame, hsecond⟩ | ⟨hleft, rfl, rfl⟩⟩
    · refine ⟨hqueue, .inr ?_⟩
      rw [hsame.healthHead_eq]
      exact hfirst.append hsecond
    · refine ⟨hqueue, .inl ⟨hlegacy, length_eq_zero_iff.mp hleft, ?_⟩⟩
      simpa using hfirst
  · rintro ⟨hqueue, ⟨hlegacy, rfl, hbs⟩ | hbs⟩
    · exact ⟨v, bs, [], (append_nil _).symm, ⟨hlegacy, hbs⟩, 0, [], [], rfl, ⟨rfl, rfl⟩, hqueue,
        .inr ⟨rfl, rfl, rfl⟩⟩
    · obtain ⟨first, second, hfirst, hsecond, rfl⟩ := Writer.writes_append.mp hbs
      let head : HealthResponse :=
        { v with
          overloadCount := 0
          protocolErrorCount := 0
          databaseBytes := 0
          databasePoints := 0
          databaseCommits := 0
          recoveredTailBytes := 0
          syncPolicy := .always
          lastAckDurable := false }
      have hlength := length_putHealthTail hsecond
      refine ⟨head, first, second, rfl, ⟨⟨rfl, rfl, rfl, rfl, rfl, rfl, rfl, rfl⟩, hfirst⟩,
        (second ++ rest).length, [], second, rfl, ⟨rfl, rfl⟩, hqueue,
        .inl ⟨?_, ⟨rfl, rfl, rfl, rfl, rfl, rfl⟩, hsecond⟩⟩
      rw [length_append]
      omega

theorem writes_encodeHealthResponse {v : HealthResponse} :
    (encodeHealthResponse v).Writes bs ↔ checkQueue v.queueEntries = .ok () ∧
      checkSource v.sourceId = .ok () ∧ (healthHead v ++ putHealthTail v).Writes bs := by
  rw [encodeHealthResponse, Writer.writes_check_append]
  refine and_congr_right fun _ => ?_
  simp only [putHealthHead, healthHead, Writer.append_assoc]
  exact Writer.writes_append_check_append

end Ftwdb.Shadow
