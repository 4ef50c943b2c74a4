import Ftwdb.Storage.Simulation

/-!
# Recovery and salvage

Both modes of a scan run one frame loop and differ in what they make of its
end.  `scanFrames_spec` says what the loop has met: complete frames that replay,
and behind them nothing, a part of a frame, or a frame that stops it.  A frame
that stops the loop may have entered identifiers or its catalog records before
the test that failed, but it leaves the points and the counters alone
(`Tables.applyFrame_leaves`).

From this follows how the two modes relate over arbitrary bytes
(`scanLog_modes_agree`): a recovery of what salvage has validated succeeds and finds the
same points, any longer part of the bytes gives it nothing more, and it succeeds
on all of them exactly if salvage met no damage.
-/

namespace Ftwdb

open ByteCodec Check List

/-! ## Stops -/

namespace SalvageStopReason

/-- The reasons that stand for the end of the file. -/
def isTail : SalvageStopReason → Bool
  | .cleanEof | .incompleteFrameHeader | .incompleteFramePayload => true
  | _ => false

end SalvageStopReason

variable {limits : Limits} {offset : Nat}

theorem checkFrameHeader_eq_error {itemCount payloadLen : Nat} {kind : FrameKind} {stop : Stop}
    (h : checkFrameHeader limits offset kind itemCount payloadLen = .error stop) :
    stop.reason.isTail = false := by
  cases kind <;> simp only [checkFrameHeader, failIf] at h <;> split at h <;>
    (try split at h) <;> cases h <;> rfl

theorem readFrame_eq_bad {rest : Bytes} {stop : Stop}
    (h : readFrame limits offset rest = .bad stop) : stop.reason.isTail = false := by
  rw [readFrame] at h
  split at h
  · cases h
  split at h
  · cases h
    rfl
  split at h
  · cases h
    rfl
  split at h
  · cases h
    rfl
  dsimp only at h
  split at h
  · cases h
    rfl
  split at h
  · next hcheck =>
    cases h
    exact checkFrameHeader_eq_error hcheck
  split at h
  · cases h
  split at h
  · cases h
    rfl
  · cases h

/-- Reading a frame needs no more than its bytes. -/
theorem readFrame_take {k : Nat} {rest : Bytes} {f : Frame}
    (h : readFrame limits offset (rest.take k) = .frame f) :
    readFrame limits offset rest = .frame f := by
  obtain ⟨hfit, hbytes⟩ := Frame.readFrame_eq_frame h
  have hrest : rest = f.encode ++ ((rest.take k).drop f.encode.length ++ rest.drop k) := by
    rw [← append_assoc, ← hbytes, take_append_drop]
  rw [hrest]
  exact Frame.readFrame_encode hfit offset _

/-! ## What a stop leaves -/

namespace Tables

/-- What of the tables only a complete frame changes, the catalog apart. -/
def counted (t : Tables) : LiveIndex × Nat × Nat := (t.index, t.commits, t.points)

/-- A stop at a damaged frame.  The catalog is entered before the points of a
transaction are counted, so it is the one part that may be ahead. -/
structure StopsAt (t : Tables) (left : Tables × Stop) : Prop where
  damaged : left.2.reason.isTail = false
  counted_eq : left.1.counted = t.counted
  catalog_eq : left.2.reason ≠ .transactionPointCountTooLarge → left.1.catalog = t.catalog

/-- Wherever the computation stops, it stops so. -/
def Leaves {α : Type} (t : Tables) (x : Except (Tables × Stop) α) : Prop :=
  ∀ left, x = .error left → t.StopsAt left

section Leaves

variable {α β : Type} {t t' : Tables} {reason : SalvageStopReason} {e : Error}

theorem stopsAt_of_eq (hcounted : t'.counted = t.counted) (hcatalog : t'.catalog = t.catalog)
    (hdamaged : reason.isTail = false) : t.StopsAt (t', ⟨reason, e⟩) :=
  ⟨hdamaged, hcounted, fun _ => hcatalog⟩

theorem Leaves.of_eq {x : Except (Tables × Stop) α} (h : t'.Leaves x)
    (hcounted : t'.counted = t.counted) (hcatalog : t'.catalog = t.catalog) : t.Leaves x := by
  intro left hleft
  obtain ⟨hdamaged, hc, hcat⟩ := h left hleft
  exact ⟨hdamaged, hc.trans hcounted, fun hne => (hcat hne).trans hcatalog⟩

theorem leaves_ok (a : α) : t.Leaves (.ok a) := by
  intro left hleft
  cases hleft

theorem leaves_failIf {p : Prop} [Decidable p] {left : Tables × Stop} (h : t.StopsAt left) :
    t.Leaves (failIf p left) := by
  intro left' hleft
  rw [failIf] at hleft
  split at hleft <;> cases hleft
  exact h

theorem leaves_mapError {x : Except Error α} {f : Error → Tables × Stop}
    (h : ∀ e, t.StopsAt (f e)) : t.Leaves (x.mapError f) := by
  intro left hleft
  cases x <;> cases hleft
  exact h _

theorem leaves_bind {x : Except (Tables × Stop) α} {f : α → Except (Tables × Stop) β}
    (hx : t.Leaves x) (hf : ∀ a, x = .ok a → t.Leaves (f a)) : t.Leaves (x >>= f) := by
  intro left hleft
  cases hxa : x with
  | error e =>
    rw [hxa] at hleft
    cases hleft
    exact hx _ hxa
  | ok a =>
    rw [hxa] at hleft
    exact hf a hxa left hleft

/-- A fold whose steps change neither the counted part nor the catalog. -/
theorem leaves_foldlM {f : Tables → α → Applied}
    (hleaves : ∀ (t : Tables) (a : α), t.Leaves (f t a))
    (hsame : ∀ {t a t'}, f t a = .ok t' → t'.counted = t.counted ∧ t'.catalog = t.catalog)
    (as : List α) (t : Tables) : t.Leaves (as.foldlM f t) := by
  induction as generalizing t with
  | nil => exact leaves_ok t
  | cons a as ih =>
    rw [foldlM_cons]
    refine leaves_bind (hleaves t a) fun t' ht' => ?_
    obtain ⟨hcounted, hcatalog⟩ := hsame ht'
    exact (ih t').of_eq hcounted hcatalog

end Leaves

variable {invalid duplicateKey duplicateId : SalvageStopReason} {t t' : Tables} {offset : Nat}

theorem enterIngress_leaves (t : Tables) (identity : IngressIdentity) (offset : Nat)
    (hinvalid : invalid.isTail = false) (hkey : duplicateKey.isTail = false)
    (hid : duplicateId.isTail = false) :
    t.Leaves (t.enterIngress identity offset invalid duplicateKey duplicateId) := by
  refine leaves_bind (leaves_failIf (stopsAt_of_eq rfl rfl hinvalid)) fun _ _ => ?_
  refine leaves_bind (leaves_failIf (stopsAt_of_eq rfl rfl hkey)) fun _ _ => ?_
  refine leaves_bind (leaves_failIf (stopsAt_of_eq rfl rfl hid)) fun _ _ => ?_
  exact leaves_bind (leaves_failIf (stopsAt_of_eq rfl rfl hinvalid)) fun _ _ => leaves_ok _

theorem enterIngress_same {identity : IngressIdentity}
    (h : t.enterIngress identity offset invalid duplicateKey duplicateId = .ok t') :
    t'.counted = t.counted ∧ t'.catalog = t.catalog := by
  simp only [enterIngress, bind_eq_ok] at h
  obtain ⟨_, -, _, -, _, -, _, -, h⟩ := h
  cases h
  exact ⟨rfl, rfl⟩

theorem applyIdentifiedReceipt_leaves (t : Tables) (r : CompactIdentifiedReceipt) (offset : Nat) :
    t.Leaves (t.applyIdentifiedReceipt r offset) := by
  refine leaves_bind (leaves_failIf (stopsAt_of_eq rfl rfl rfl)) fun _ _ => ?_
  refine leaves_bind (leaves_mapError fun e => stopsAt_of_eq rfl rfl rfl) fun _ _ => ?_
  exact leaves_bind (leaves_failIf (stopsAt_of_eq rfl rfl rfl)) fun _ _ => leaves_ok _

theorem applyIdentifiedReceipt_same {r : CompactIdentifiedReceipt}
    (h : t.applyIdentifiedReceipt r offset = .ok t') :
    t'.counted = t.counted ∧ t'.catalog = t.catalog := by
  simp only [applyIdentifiedReceipt, bind_eq_ok] at h
  obtain ⟨_, -, payload, -, _, -, h⟩ := h
  cases h
  exact ⟨rfl, rfl⟩

theorem applyIngressReceipt_leaves (t : Tables) (r : CompactIngressReceipt) (offset : Nat) :
    t.Leaves (t.applyIngressReceipt r offset) := by
  refine leaves_bind (leaves_failIf (stopsAt_of_eq rfl rfl rfl)) fun _ _ => ?_
  refine leaves_bind (leaves_mapError fun e => stopsAt_of_eq rfl rfl rfl) fun _ _ => ?_
  exact leaves_bind (t.enterIngress_leaves _ offset rfl rfl rfl) fun _ _ => leaves_ok _

theorem applyIngressReceipt_same {r : CompactIngressReceipt}
    (h : t.applyIngressReceipt r offset = .ok t') :
    t'.counted = t.counted ∧ t'.catalog = t.catalog := by
  simp only [applyIngressReceipt, bind_eq_ok] at h
  obtain ⟨_, -, payload, -, t₁, henter, h⟩ := h
  cases h
  obtain ⟨hcounted, hcatalog⟩ := enterIngress_same henter
  exact ⟨hcounted, hcatalog⟩

theorem applyIdentityIndex_leaves (t : Tables) (payload : Bytes) (offset : Nat) :
    t.Leaves (t.applyIdentityIndex payload offset) := by
  refine leaves_bind (leaves_mapError fun e => stopsAt_of_eq rfl rfl rfl) fun index _ => ?_
  refine leaves_bind (leaves_foldlM (fun t r => t.applyIdentifiedReceipt_leaves r offset)
    applyIdentifiedReceipt_same _ t) fun t₁ ht₁ => ?_
  obtain ⟨hcounted, hcatalog⟩ := foldlM_invariant
    (fun t₁ => t₁.counted = t.counted ∧ t₁.catalog = t.catalog)
    (fun _ _ _ _ hsame hstep => ⟨(applyIdentifiedReceipt_same hstep).1.trans hsame.1,
      (applyIdentifiedReceipt_same hstep).2.trans hsame.2⟩) ⟨rfl, rfl⟩ ht₁
  exact (leaves_foldlM (fun t r => t.applyIngressReceipt_leaves r offset)
    applyIngressReceipt_same _ t₁).of_eq hcounted hcatalog

theorem enterIdentity_leaves (t : Tables) (identity : FrameIdentity) (offset : Nat) :
    t.Leaves (t.enterIdentity identity offset) := by
  cases identity with
  | anonymous => exact leaves_ok t
  | identified commitId =>
    exact leaves_bind (leaves_failIf (stopsAt_of_eq rfl rfl rfl)) fun _ _ => leaves_ok _
  | ingress identity => exact t.enterIngress_leaves identity offset rfl rfl rfl

theorem enterIdentity_same {identity : FrameIdentity}
    (h : t.enterIdentity identity offset = .ok t') :
    t'.counted = t.counted ∧ t'.catalog = t.catalog := by
  cases identity with
  | anonymous =>
    cases h
    exact ⟨rfl, rfl⟩
  | identified commitId =>
    simp only [enterIdentity, bind_eq_ok] at h
    obtain ⟨_, -, h⟩ := h
    cases h
    exact ⟨rfl, rfl⟩
  | ingress identity => exact enterIngress_same h

variable [Jiff]

theorem applyTransaction_leaves (t : Tables) (limits : Limits) (f : Frame) (offset : Nat) :
    t.Leaves (t.applyTransaction limits f offset) := by
  refine leaves_bind (t.enterIdentity_leaves _ offset) fun t₁ ht₁ => ?_
  obtain ⟨hcounted, hcatalog⟩ := enterIdentity_same ht₁
  refine Leaves.of_eq ?_ hcounted hcatalog
  refine leaves_bind (leaves_mapError fun e => stopsAt_of_eq rfl rfl rfl) fun records _ => ?_
  refine leaves_bind (leaves_mapError fun e => stopsAt_of_eq rfl rfl rfl) fun catalog _ => ?_
  -- from here on the catalog is the one of the frame
  have hlarge : t₁.StopsAt (stopAt { t₁ with catalog := catalog } .transactionPointCountTooLarge
      offset "transaction point count exceeds maximum") := ⟨rfl, rfl, fun hne => absurd rfl hne⟩
  exact leaves_bind (leaves_failIf hlarge) fun _ _ => leaves_ok _

theorem applyFrame_leaves (t : Tables) (limits : Limits) (published : List UInt64) (offset : Nat)
    (f : Frame) : t.Leaves (t.applyFrame limits published offset f) := by
  have hpayload : t.Leaves (t.applyPayload limits published offset f) := by
    rw [applyPayload]
    split
    · exact leaves_bind (leaves_mapError fun e => stopsAt_of_eq rfl rfl rfl) fun _ _ => leaves_ok _
    · exact leaves_bind (leaves_failIf (stopsAt_of_eq rfl rfl rfl)) fun _ _ => leaves_ok _
    · exact t.applyIdentityIndex_leaves f.payload offset
    all_goals exact t.applyTransaction_leaves limits f offset
  intro left hleft
  rw [applyFrame] at hleft
  cases happly : t.applyPayload limits published offset f with
  | ok t' =>
    rw [happly] at hleft
    cases hleft
  | error e =>
    rw [happly] at hleft
    cases hleft
    exact hpayload _ happly

end Tables

/-! ## The end of the loop -/

section Loop

variable [Jiff] {limits : Limits} {published : List UInt64}

namespace EndsAt

variable {offset : Nat} {tail : Bytes} {t t' : Tables} {ending : ScanEnd}

/-- What the end leaves of the tables. -/
theorem left (h : EndsAt limits published offset tail t t' ending) :
    t'.counted = t.counted ∧
      (ending.reason ≠ .transactionPointCountTooLarge → t'.catalog = t.catalog) := by
  cases h with
  | refused hne hread happly =>
    have hstops := t.applyFrame_leaves limits published offset _ _ happly
    exact ⟨hstops.counted_eq, hstops.catalog_eq⟩
  | _ => exact ⟨rfl, fun _ => rfl⟩

/-- Recovery goes through exactly if the reason is the end of the file. -/
theorem isTail_iff (h : EndsAt limits published offset tail t t' ending) :
    ending.reason.isTail = true ↔ ∀ stop, ending ≠ .stopped stop := by
  cases h with
  | bad hne hread =>
    have hdamaged := readFrame_eq_bad hread
    simp [ScanEnd.reason, hdamaged]
  | refused hne hread happly =>
    have hdamaged := (t.applyFrame_leaves limits published offset _ _ happly).damaged
    simp [ScanEnd.reason, hdamaged]
  | _ => simp [ScanEnd.reason, SalvageStopReason.isTail]

/-- A scan of a part of the tail applies no frame. -/
theorem scanFrames_take (h : EndsAt limits published offset tail t t' ending) {k fuel : Nat}
    (hpos : 0 < k) (hk : k ≤ tail.length) (hfuel : 0 < fuel) :
    (∃ stop, (scanFrames limits published fuel offset (tail.take k) t).2.2 = .stopped stop) ∨
      ∃ ending, scanFrames limits published fuel offset (tail.take k) t = (t, offset, ending) := by
  have hne : tail.take k ≠ [] := by
    rw [← length_pos_iff, length_take]
    omega
  obtain ⟨fuel, rfl⟩ := Nat.exists_eq_succ_of_ne_zero (Nat.ne_of_gt hfuel)
  rw [scanFrames, if_neg hne]
  cases hread : readFrame limits offset (tail.take k) with
  | incompleteHeader => exact .inr ⟨_, rfl⟩
  | incompletePayload => exact .inr ⟨_, rfl⟩
  | bad stop => exact .inl ⟨stop, rfl⟩
  | frame f =>
    -- the same frame stands in front of the whole tail, where the loop ended
    have hwhole := readFrame_take hread
    cases h with
    | cleanEof hnil => simp [hnil] at hne
    | incompleteHeader _ htail => rw [hwhole] at htail; cases htail
    | incompletePayload _ htail => rw [hwhole] at htail; cases htail
    | bad _ htail => rw [hwhole] at htail; cases htail
    | refused _ htail happly =>
      rw [hwhole] at htail
      cases htail
      simp only [happly]
      exact .inl ⟨_, rfl⟩

/-- A recovery of the frames before the end and a part of the tail, if it goes
through, has found the frames only. -/
theorem scanLog_take {fs : List Frame} {simulate : Bool} {k : Nat} {scan : Scan}
    (h : EndsAt limits published (logBytes fs).length tail t t' ending)
    (hfits : ∀ f ∈ fs, f.Fits limits)
    (hreplay : replay limits published databaseHeaderBytes {} fs = .ok t)
    (hpos : 0 < k) (hk : k ≤ tail.length)
    (hok : scanLog limits (.recover simulate) published (logBytes fs ++ tail.take k) = .ok scan) :
    scan.validatedBytes = (logBytes fs).length ∧ scan.toTables = t.sortIndex := by
  have hfuel : 0 < (tail.take k).length := by
    rw [length_take]
    omega
  rw [scanLog_append simulate hfits hreplay] at hok
  rcases h.scanFrames_take hpos hk hfuel with ⟨stop, hstop⟩ | ⟨ending', hscan⟩
  · simp only [hstop] at hok
    cases hok
  · simp only [hscan] at hok
    cases ending' with
    | stopped stop => cases hok
    | _ =>
      cases hok
      exact ⟨rfl, rfl⟩

end EndsAt

end Loop

/-! ## The two modes -/

section Modes

variable [Jiff]

/-- How a salvage of `bytes` and recoveries of parts of them relate. -/
structure ModesAgree (limits : Limits) (published : List UInt64) (bytes : Bytes)
    (salvaged : Scan) : Prop where
  /-- What salvage has validated recovers to the same points. -/
  recovers : ∀ simulate, ∃ scan, scanLog limits (.recover simulate) published
      (bytes.take salvaged.validatedBytes) = .ok scan ∧
    scan.recoveredTail = .none ∧ scan.recoveredTailBytes = 0 ∧
    scan.validatedBytes = salvaged.validatedBytes ∧
    scan.index = salvaged.index ∧ scan.commits = salvaged.commits ∧
    scan.points = salvaged.points ∧
    (salvaged.salvageStopReason ≠ some .transactionPointCountTooLarge →
      scan.catalog = salvaged.catalog) ∧
    -- and a longer part recovers to nothing else
    ∀ w, salvaged.validatedBytes < w → w ≤ bytes.length → ∀ longer,
      scanLog limits (.recover simulate) published (bytes.take w) = .ok longer →
      longer.validatedBytes = salvaged.validatedBytes ∧ longer.toTables = scan.toTables
  /-- All of the bytes recover exactly if salvage has met no damage. -/
  recovers_all : ∀ simulate,
    (∃ scan, scanLog limits (.recover simulate) published bytes = .ok scan) ↔
      ∃ reason, salvaged.salvageStopReason = some reason ∧ reason.isTail = true
  recovers_all_bytes : ∀ simulate scan,
    scanLog limits (.recover simulate) published bytes = .ok scan →
      scan.validatedBytes = salvaged.validatedBytes
  /-- The loop has ended by itself. -/
  terminates : ∀ fuel, bytes.length ≤ fuel →
    scanFrames limits published fuel databaseHeaderBytes (bytes.drop databaseHeaderBytes) {} =
      scanFrames limits published bytes.length databaseHeaderBytes
        (bytes.drop databaseHeaderBytes) {}

theorem scanLog_modes_agree (limits : Limits) (published : List UInt64) {bytes : Bytes}
    (hheader : checkDatabaseHeader bytes = .ok ()) :
    ∃ salvaged, scanLog limits .salvage published bytes = .ok salvaged ∧
      ModesAgree limits published bytes salvaged := by
  -- the frames salvage has applied, and what it met behind them
  obtain ⟨t', offset, ending, hscan⟩ : ∃ t' offset ending, scanFrames limits published bytes.length
      databaseHeaderBytes (bytes.drop databaseHeaderBytes) {} = (t', offset, ending) :=
    ⟨_, _, _, rfl⟩
  have hfuel : (bytes.drop databaseHeaderBytes).length ≤ bytes.length := by
    rw [length_drop]
    omega
  obtain ⟨fs, tail, t, hrest, hfits, hreplay, hoffset, hends⟩ := scanFrames_spec hfuel hscan
  have hbytes : bytes = logBytes fs ++ tail := by
    rw [logBytes, append_assoc, ← hrest]
    exact eq_databaseHeader_append hheader
  have hv : offset = (logBytes fs).length := by rw [hoffset, length_logBytes]
  have hsalvage : scanLog limits .salvage published bytes = .ok (salvageScan t' offset ending) := by
    simp only [scanLog, hheader, hscan, bind, Except.bind]
  have hrecover : ∀ simulate, scanLog limits (.recover simulate) published bytes =
      recoverScan bytes.length t' offset ending := by
    intro simulate
    simp only [scanLog, hheader, hscan, bind, Except.bind]
  obtain ⟨hcounted, hcatalog⟩ := hends.left
  refine ⟨_, hsalvage, ⟨fun simulate => ?_, fun simulate => ?_, fun simulate scan hok => ?_,
    fun fuel hlong => scanFrames_fuel (Nat.le_trans hfuel hlong) hfuel⟩⟩
  · have hwhole := scanLog_recover simulate hfits hreplay (.inl rfl)
    rw [append_nil] at hwhole
    have htake : bytes.take offset = logBytes fs := by rw [hbytes, hv, take_left]
    have hindex : t.index = t'.index := (congrArg Prod.fst hcounted).symm
    refine ⟨_, (congrArg _ htake).trans hwhole, rfl, rfl, hv.symm, congrArg LiveIndex.sort hindex,
      (congrArg (fun c => c.2.1) hcounted).symm, (congrArg (fun c => c.2.2) hcounted).symm,
      fun hne => (hcatalog fun h => hne (congrArg some h)).symm, fun w hw hle longer hok => ?_⟩
    change offset < w at hw
    have hlonger : bytes.take w = logBytes fs ++ tail.take (w - offset) := by
      rw [hbytes, take_append, take_of_length_le (hv ▸ Nat.le_of_lt hw), hv]
    have hk : w - offset ≤ tail.length := by
      rw [hbytes, length_append] at hle
      omega
    rw [hlonger] at hok
    rw [hv] at hends
    obtain ⟨hvalid, htables⟩ := hends.scanLog_take hfits hreplay (Nat.sub_pos_of_lt hw) hk hok
    exact ⟨hvalid.trans hv.symm, htables⟩
  · rw [hrecover, recoverScan_isOk, ← hends.isTail_iff]
    constructor
    · intro htail
      exact ⟨_, rfl, htail⟩
    · rintro ⟨reason, hreason, htail⟩
      cases hreason
      exact htail
  · rw [hrecover] at hok
    rw [recoverScan_ok (recoverScan_isOk.mp ⟨scan, hok⟩)] at hok
    cases hok
    rfl

end Modes

/-- A log of one transaction that defines a series and gives it two points. -/
def twoPointLog : Bytes :=
  let records : List Record :=
    [.entity
      { id := 1, kind := "site", name := "home", parent := none, validFrom := 0, validTo := none,
        properties := ∅ },
     .series
      { id := 1, ownerEntity := some 1, ownerRelation := none, name := "load",
        physicalQuantity := "power", canonicalUnit := "W", semantics := .event,
        maximumGapMicros := none, rollupPolicy := ⟨none, []⟩ },
     .points [Point.actual 1 10 ⟨0⟩, Point.actual 1 20 ⟨0⟩]]
  match encodeTransaction { records := records } with
  | .error _ => []
  | .ok payload =>
    databaseHeader ++ (encodeFrameHeader .transaction (UInt32.ofNat records.length)
      (UInt32.ofNat payload.length) (Crc32.hash payload) ++ payload)

set_option maxRecDepth 20000 in
/-- One byte of a second frame is torn off behind the first. -/
theorem scanLog_modes_agree_tornByte :
    letI := Jiff.withoutZones
    checkDatabaseHeader (twoPointLog ++ [0x57]) = .ok () ∧
      ∃ salvaged, scanLog ⟨2, 1000⟩ .salvage [] (twoPointLog ++ [0x57]) = .ok salvaged ∧
        salvaged.validatedBytes = twoPointLog.length ∧ salvaged.catalog.series.size = 1 ∧
        ModesAgree ⟨2, 1000⟩ [] (twoPointLog ++ [0x57]) salvaged := by
  let _ := Jiff.withoutZones
  have hheader : checkDatabaseHeader (twoPointLog ++ [0x57]) = .ok () := by decide +kernel
  have hcomputed : (scanLog ⟨2, 1000⟩ .salvage [] (twoPointLog ++ [0x57])).map
      (fun s => (s.validatedBytes, s.catalog.series.size)) = .ok (twoPointLog.length, 1) := by
    decide +kernel
  obtain ⟨salvaged, hsalvaged, hagree⟩ := scanLog_modes_agree ⟨2, 1000⟩ [] hheader
  rw [hsalvaged] at hcomputed
  obtain ⟨hbytes, hsize⟩ := Prod.mk.inj (Except.ok.inj hcomputed)
  exact ⟨hheader, salvaged, hsalvaged, hbytes, hsize, hagree⟩

set_option maxRecDepth 20000 in
/-- With room for one point in a batch, salvage stops before the frame and has
its series already. -/
theorem salvage_catalog_ahead :
    letI := Jiff.withoutZones
    checkDatabaseHeader twoPointLog = .ok () ∧
      ∃ salvaged scan, scanLog ⟨1, 1000⟩ .salvage [] twoPointLog = .ok salvaged ∧
        scanLog ⟨1, 1000⟩ (.recover false) [] (twoPointLog.take salvaged.validatedBytes) =
          .ok scan ∧
        scan.catalog ≠ salvaged.catalog := by
  let _ := Jiff.withoutZones
  have hsalvage : (scanLog ⟨1, 1000⟩ .salvage [] twoPointLog).map
      (fun s => (s.validatedBytes, s.catalog.series.size)) = .ok (16, 1) := by decide +kernel
  have hrecover : (scanLog ⟨1, 1000⟩ (.recover false) [] (twoPointLog.take 16)).map
      (fun s => s.catalog.series.size) = .ok 0 := by decide +kernel
  obtain ⟨salvaged, hsalvaged, hsize⟩ := map_eq_ok.mp hsalvage
  obtain ⟨scan, hscan, hnone⟩ := map_eq_ok.mp hrecover
  obtain ⟨hbytes, hone⟩ := Prod.mk.inj hsize
  rw [← hbytes] at hscan
  refine ⟨by decide +kernel, salvaged, scan, hsalvaged, hscan, fun hsame => ?_⟩
  rw [hsame, hone] at hnone
  cases hnone

end Ftwdb
