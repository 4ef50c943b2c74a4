import Ftwdb.Storage.Tables

/-!
# Scanning a log

`scan_log`: the header is checked, frames are read and applied one after the
other, and the scan ends at the end of the file, at a torn frame, or at a frame
it refuses.  Recovery turns the last case into an error and reports the torn
tail; salvage keeps what it has and reports the reason.

`replay` is the same fold over frames that are already read.  `scanLog_append`
says that scanning the bytes of frames is replaying them, and `scanFrames_spec`
what a scan of arbitrary bytes has met.
-/

namespace Ftwdb

open ByteCodec Check List

/-- `RecoveredTail`. -/
inductive RecoveredTail where
  | none
  | incompleteHeader
  | incompletePayload
deriving DecidableEq

/-- `ScanMode`. -/
inductive ScanMode where
  | recover (simulate : Bool)
  | salvage
deriving DecidableEq

/-- How the frame loop ended. -/
inductive ScanEnd where
  | cleanEof
  | incompleteHeader
  | incompletePayload
  | stopped (stop : Stop)
deriving DecidableEq

/-- What a scan hands back. -/
structure Scan extends Tables where
  recoveredTailBytes : Nat
  recoveredTail : RecoveredTail
  validatedBytes : Nat
  salvageStopReason : Option SalvageStopReason
deriving DecidableEq

/-! ## The bytes of a log -/

/-- The bytes of the frames of a log. -/
def frameBytes (fs : List Frame) : Bytes := FramedLog.bytes Frame.encode fs

@[simp] theorem frameBytes_nil : frameBytes [] = [] := rfl

theorem frameBytes_cons (f : Frame) (fs : List Frame) :
    frameBytes (f :: fs) = f.encode ++ frameBytes fs := rfl

theorem frameBytes_append (fs gs : List Frame) :
    frameBytes (fs ++ gs) = frameBytes fs ++ frameBytes gs := FramedLog.bytes_append ..

/-- The bytes of a whole log. -/
def logBytes (fs : List Frame) : Bytes := databaseHeader ++ frameBytes fs

theorem length_logBytes (fs : List Frame) :
    (logBytes fs).length = databaseHeaderBytes + (frameBytes fs).length := by
  rw [logBytes, length_append, length_databaseHeader]

theorem logBytes_append (fs gs : List Frame) :
    logBytes (fs ++ gs) = logBytes fs ++ frameBytes gs := by
  rw [logBytes, logBytes, frameBytes_append, append_assoc]

theorem logBytes_append_ne_nil (fs : List Frame) (torn : Bytes) : logBytes fs ++ torn ≠ [] := by
  rw [← length_pos_iff, length_append, length_logBytes, databaseHeaderBytes]
  omega

/-! ## Frames by their place -/

/-- The frame lies at `offset`. -/
def FrameAt (bytes : Bytes) (offset : Nat) (f : Frame) : Prop :=
  ∃ rest, bytes.drop offset = f.encode ++ rest

theorem frameAt_length (bytes : Bytes) (f : Frame) (rest : Bytes) :
    FrameAt (bytes ++ (f.encode ++ rest)) bytes.length f := ⟨rest, drop_left⟩

namespace FrameAt

variable {bytes : Bytes} {offset : Nat} {f : Frame}

theorem lt (h : FrameAt bytes offset f) : offset < bytes.length := by
  obtain ⟨rest, hrest⟩ := h
  have hlen := congrArg List.length hrest
  rw [length_drop, length_append, Frame.length_encode, frameHeaderBytes] at hlen
  omega

theorem append (h : FrameAt bytes offset f) (more : Bytes) : FrameAt (bytes ++ more) offset f := by
  obtain ⟨rest, hrest⟩ := h
  refine ⟨rest ++ more, ?_⟩
  rw [drop_append_of_le_length (Nat.le_of_lt (lt ⟨rest, hrest⟩)), hrest, append_assoc]

end FrameAt

/-! ## The scan -/

/-- The tail a recovery reports. -/
def ScanEnd.tail : ScanEnd → RecoveredTail
  | .incompleteHeader => .incompleteHeader
  | .incompletePayload => .incompletePayload
  | _ => .none

/-- The reason a salvage reports. -/
def ScanEnd.reason : ScanEnd → SalvageStopReason
  | .cleanEof => .cleanEof
  | .incompleteHeader => .incompleteFrameHeader
  | .incompletePayload => .incompleteFramePayload
  | .stopped stop => stop.reason

/-- The result of a recovery over `length` bytes. -/
def recoverScan (length : Nat) (t : Tables) (offset : Nat) (ending : ScanEnd) : Except Error Scan :=
  match ending with
  | .stopped stop => .error stop.error
  | ending => .ok
      { t.sortIndex with
        recoveredTailBytes := if ending.tail = .none then 0 else length - offset
        recoveredTail := ending.tail
        validatedBytes := offset
        salvageStopReason := none }

/-- The result of a salvage: what was validated, and why it stopped. -/
def salvageScan (t : Tables) (offset : Nat) (ending : ScanEnd) : Scan :=
  { t.sortIndex with
    recoveredTailBytes := 0
    recoveredTail := .none
    validatedBytes := offset
    salvageStopReason := some ending.reason }

theorem recoverScan_ok {length offset : Nat} {t : Tables} {ending : ScanEnd}
    (h : ∀ stop, ending ≠ .stopped stop) :
    recoverScan length t offset ending = .ok
      { t.sortIndex with
        recoveredTailBytes := if ending.tail = .none then 0 else length - offset
        recoveredTail := ending.tail
        validatedBytes := offset
        salvageStopReason := none } := by
  cases ending with
  | stopped stop => exact absurd rfl (h stop)
  | _ => rfl

theorem recoverScan_isOk {length offset : Nat} {t : Tables} {ending : ScanEnd} :
    (∃ scan, recoverScan length t offset ending = .ok scan) ↔ ∀ stop, ending ≠ .stopped stop := by
  constructor
  · rintro ⟨scan, hok⟩ stop rfl
    cases hok
  · intro hgoes
    exact ⟨_, recoverScan_ok hgoes⟩

/-- A torn tail as recovery reports it: nothing, less than a header, or more. -/
def tailOf (torn : Bytes) : RecoveredTail :=
  if torn = [] then .none
  else if torn.length < frameHeaderBytes then .incompleteHeader
  else .incompletePayload

theorem tailOf_eq_none {torn : Bytes} : tailOf torn = .none ↔ torn = [] := by
  rw [tailOf]
  by_cases hnil : torn = []
  · simp [hnil]
  · rw [if_neg hnil]
    split <;> simp [hnil]

variable [Jiff]

/-- The frame loop on the bytes from `offset` on: the tables, the offset behind
the last applied frame, and the end.  Every frame takes at least its header, so
the length of the bytes is enough fuel. -/
def scanFrames (limits : Limits) (published : List UInt64) :
    Nat → Nat → Bytes → Tables → Tables × Nat × ScanEnd
  | 0, offset, _, t => (t, offset, .cleanEof)
  | fuel + 1, offset, rest, t =>
    if rest = [] then (t, offset, .cleanEof)
    else
      match readFrame limits offset rest with
      | .incompleteHeader => (t, offset, .incompleteHeader)
      | .incompletePayload => (t, offset, .incompletePayload)
      | .bad stop => (t, offset, .stopped stop)
      | .frame f =>
        match t.applyFrame limits published offset f with
        | .error (t, stop) => (t, offset, .stopped stop)
        | .ok t =>
          scanFrames limits published fuel (offset + (frameHeaderBytes + f.payload.length))
            (rest.drop (frameHeaderBytes + f.payload.length)) t

/-- The whole scan.  Truncating a torn tail is left to the caller, which does it
behind every test that can fail. -/
def scanLog (limits : Limits) (mode : ScanMode) (published : List UInt64) (bytes : Bytes) :
    Except Error Scan := do
  checkDatabaseHeader bytes
  let (t, offset, ending) := scanFrames limits published bytes.length databaseHeaderBytes
    (bytes.drop databaseHeaderBytes) {}
  match mode with
  | .recover _ => recoverScan bytes.length t offset ending
  | .salvage => .ok (salvageScan t offset ending)

/-! ## Replaying frames -/

/-- Frames applied one after the other, the first at `offset`. -/
def replay (limits : Limits) (published : List UInt64) :
    Nat → Tables → List Frame → Except Stop Tables
  | _, t, [] => .ok t
  | offset, t, f :: fs =>
    match t.applyFrame limits published offset f with
    | .error (_, stop) => .error stop
    | .ok t => replay limits published (offset + f.encode.length) t fs

variable {limits : Limits} {published : List UInt64} {offset fuel : Nat} {t t' : Tables}
  {fs : List Frame} {rest : Bytes} {simulate : Bool} {scan : Scan}

theorem replay_cons {f : Frame} : replay limits published offset t (f :: fs) = .ok t' ↔
    ∃ t₁, t.applyFrame limits published offset f = .ok t₁ ∧
      replay limits published (offset + f.encode.length) t₁ fs = .ok t' := by
  rw [replay]
  cases t.applyFrame limits published offset f <;> simp

theorem replay_append {gs : List Frame} (h : replay limits published offset t fs = .ok t') :
    replay limits published offset t (fs ++ gs) =
      replay limits published (offset + (frameBytes fs).length) t' gs := by
  induction fs generalizing offset t with
  | nil =>
    obtain rfl : t = t' := by simpa [replay] using h
    simp
  | cons f fs ih =>
    obtain ⟨t₁, hf, h⟩ := replay_cons.mp h
    rw [cons_append, replay, hf]
    dsimp only
    rw [ih h, frameBytes_cons, length_append, Nat.add_assoc]

/-- One more frame. -/
theorem replay_concat {t'' : Tables} {f : Frame}
    (h : replay limits published offset t fs = .ok t')
    (hf : t'.applyFrame limits published (offset + (frameBytes fs).length) f = .ok t'') :
    replay limits published offset t (fs ++ [f]) = .ok t'' := by
  rw [replay_append h, replay, hf]
  rfl

/-- The frames before a cut replay as well. -/
theorem replay_of_append {gs : List Frame}
    (h : replay limits published offset t (fs ++ gs) = .ok t') :
    ∃ t₁, replay limits published offset t fs = .ok t₁ ∧
      replay limits published (offset + (frameBytes fs).length) t₁ gs = .ok t' := by
  induction fs generalizing offset t with
  | nil => exact ⟨t, rfl, by simpa using h⟩
  | cons f fs ih =>
    obtain ⟨t₁, hf, h⟩ := replay_cons.mp h
    obtain ⟨t₂, hfs, hgs⟩ := ih h
    refine ⟨t₂, replay_cons.mpr ⟨t₁, hf, hfs⟩, ?_⟩
    rwa [frameBytes_cons, length_append, ← Nat.add_assoc]

/-- What every frame of a log preserves, its replay preserves. -/
theorem replay_invariant (P : Tables → Prop) (hempty : P {})
    (hstep : ∀ {f offset t t'}, FrameAt (logBytes fs) offset f → P t →
      t.applyFrame limits published offset f = .ok t' → P t')
    (h : replay limits published databaseHeaderBytes {} fs = .ok t) : P t := by
  -- the induction runs over what is left of the log, from any point of it on
  suffices hrun : ∀ gs hs t', gs ++ hs = fs → P t' →
      replay limits published (logBytes gs).length t' hs = .ok t → P t from
    hrun [] fs {} rfl hempty h
  intro gs hs
  induction hs generalizing gs with
  | nil =>
    intro t' _ hP h
    cases h
    exact hP
  | cons f hs ih =>
    intro t' hfs hP h
    obtain ⟨t₁, happly, h⟩ := replay_cons.mp h
    have hframe : FrameAt (logBytes fs) (logBytes gs).length f := by
      rw [← hfs, logBytes_append, frameBytes_cons]
      exact frameAt_length ..
    have hlength : (logBytes gs).length + f.encode.length = (logBytes (gs ++ [f])).length := by
      rw [logBytes_append, length_append, frameBytes_cons, frameBytes_nil, append_nil]
    rw [hlength] at h
    exact ih (gs ++ [f]) t₁ (by rw [← hfs, append_assoc]; rfl) (hstep hframe hP happly) h

/-- No frame takes less than its header, so more fuel changes nothing. -/
theorem scanFrames_fuel {fuel' : Nat} (hfuel : rest.length ≤ fuel) (hfuel' : rest.length ≤ fuel') :
    scanFrames limits published fuel offset rest t =
      scanFrames limits published fuel' offset rest t := by
  induction fuel generalizing fuel' offset rest t with
  | zero =>
    have hnil : rest = [] := length_eq_zero_iff.mp (Nat.le_zero.mp hfuel)
    cases fuel' with
    | zero => rfl
    | succ fuel' => rw [scanFrames, scanFrames, if_pos hnil]
  | succ fuel ih =>
    cases fuel' with
    | zero =>
      have hnil : rest = [] := length_eq_zero_iff.mp (Nat.le_zero.mp hfuel')
      rw [scanFrames, scanFrames, if_pos hnil]
    | succ fuel' =>
      rw [scanFrames, scanFrames]
      split
      · rfl
      cases readFrame limits offset rest with
      | frame f =>
        dsimp only
        cases t.applyFrame limits published offset f with
        | error e => rfl
        | ok t₁ =>
          apply ih <;> rw [length_drop, frameHeaderBytes] <;> omega
      | _ => rfl

/-- Scanning the bytes of frames that fit, with something behind them, is
replaying the frames and scanning what is behind them. -/
theorem scanFrames_append (hfit : ∀ f ∈ fs, f.Fits limits)
    (hreplay : replay limits published offset t fs = .ok t')
    (hfuel : (frameBytes fs ++ rest).length ≤ fuel) :
    scanFrames limits published fuel offset (frameBytes fs ++ rest) t =
      scanFrames limits published rest.length (offset + (frameBytes fs).length) rest t' := by
  induction fs generalizing fuel offset t with
  | nil =>
    obtain rfl : t = t' := by simpa [replay] using hreplay
    exact scanFrames_fuel hfuel (Nat.le_refl _)
  | cons f fs ih =>
    have hpos : f.encode.length = frameHeaderBytes + f.payload.length := f.length_encode
    rw [frameBytes_cons, append_assoc, length_append] at hfuel
    obtain ⟨fuel, rfl⟩ : ∃ n, fuel = n + 1 :=
      Nat.exists_eq_succ_of_ne_zero (by rw [hpos, frameHeaderBytes] at hfuel; omega)
    obtain ⟨t₁, hf, hreplay⟩ := replay_cons.mp hreplay
    have hne : f.encode ++ (frameBytes fs ++ rest) ≠ [] := by
      rw [← length_pos_iff, length_append, hpos, frameHeaderBytes]
      omega
    have hstep : scanFrames limits published (fuel + 1) offset
        (frameBytes (f :: fs) ++ rest) t =
        scanFrames limits published fuel (offset + f.encode.length)
          (frameBytes fs ++ rest) t₁ := by
      rw [frameBytes_cons, append_assoc, scanFrames, if_neg hne,
        Frame.readFrame_encode (hfit f mem_cons_self)]
      simp only [hf]
      rw [← hpos, drop_left]
    have hrest : (frameBytes fs ++ rest).length ≤ fuel := by
      rw [hpos, frameHeaderBytes] at hfuel
      omega
    rw [hstep, ih (fun g hg => hfit g (mem_cons_of_mem f hg)) hreplay hrest,
      frameBytes_cons, length_append, Nat.add_assoc]

/-- Recovery of complete frames with something behind them. -/
theorem scanLog_append (simulate : Bool) (hfit : ∀ f ∈ fs, f.Fits limits)
    (hreplay : replay limits published databaseHeaderBytes {} fs = .ok t) (rest : Bytes) :
    scanLog limits (.recover simulate) published (logBytes fs ++ rest) =
      (let (t', offset, ending) :=
         scanFrames limits published rest.length (logBytes fs).length rest t
       recoverScan (logBytes fs ++ rest).length t' offset ending) := by
  have hdrop : (logBytes fs ++ rest).drop databaseHeaderBytes = frameBytes fs ++ rest := by
    rw [logBytes, append_assoc, drop_left' length_databaseHeader]
  have hheader : checkDatabaseHeader (logBytes fs ++ rest) = .ok () := by
    rw [logBytes, append_assoc]
    exact checkDatabaseHeader_databaseHeader _
  have hfuel : (frameBytes fs ++ rest).length ≤ (logBytes fs ++ rest).length := by
    rw [length_append, length_append, length_logBytes]
    omega
  have hscan := scanFrames_append hfit hreplay hfuel
  rw [← length_logBytes] at hscan
  simp only [scanLog, hheader, hdrop, hscan, bind, Except.bind]

/-! ## What a recovery finds -/

/-- Bytes behind the last complete frame: none, or a proper part of a frame that
fits the limits. -/
def TornFrame (limits : Limits) (torn : Bytes) : Prop :=
  torn = [] ∨ ∃ (f : Frame) (k : Nat), f.Fits limits ∧ k < f.encode.length ∧ torn = f.encode.take k

theorem scanFrames_torn (published : List UInt64) {torn : Bytes} (htorn : TornFrame limits torn)
    (hfuel : torn.length ≤ fuel) (offset : Nat) (t : Tables) :
    ∃ ending, scanFrames limits published fuel offset torn t = (t, offset, ending) ∧
      ending.tail = tailOf torn ∧ ∀ stop, ending ≠ .stopped stop := by
  by_cases hnil : torn = []
  · subst hnil
    cases fuel with
    | zero => exact ⟨_, rfl, rfl, by simp⟩
    | succ fuel => exact ⟨.cleanEof, by simp [scanFrames], rfl, by simp⟩
  · obtain ⟨f, k, hfit, hk, rfl⟩ := htorn.resolve_left hnil
    have hlen : (f.encode.take k).length = k := by
      rw [length_take]
      omega
    obtain ⟨fuel, rfl⟩ : ∃ n, fuel = n + 1 := by
      refine Nat.exists_eq_succ_of_ne_zero fun h => ?_
      rw [h] at hfuel
      exact hnil (length_eq_zero_iff.mp (Nat.le_zero.mp hfuel))
    rw [scanFrames, if_neg hnil, Frame.readFrame_torn hfit offset k hk, tailOf, if_neg hnil, hlen]
    by_cases hshort : k < frameHeaderBytes
    · rw [if_pos hshort, if_pos hshort]
      exact ⟨_, rfl, rfl, by simp⟩
    · rw [if_neg hshort, if_neg hshort]
      exact ⟨_, rfl, rfl, by simp⟩

/-- Recovery of complete frames with a torn one behind them: the frames are
replayed and the torn part is reported. -/
theorem scanLog_recover {torn : Bytes} (simulate : Bool) (hfit : ∀ f ∈ fs, f.Fits limits)
    (hreplay : replay limits published databaseHeaderBytes {} fs = .ok t)
    (htorn : TornFrame limits torn) :
    scanLog limits (.recover simulate) published (logBytes fs ++ torn) = .ok
      { t.sortIndex with
        recoveredTailBytes := torn.length
        recoveredTail := tailOf torn
        validatedBytes := (logBytes fs).length
        salvageStopReason := none } := by
  obtain ⟨ending, hend, htail, hgoes⟩ := scanFrames_torn published htorn (Nat.le_refl _)
    (logBytes fs).length t
  have hbytes : (if ending.tail = .none then 0
      else (logBytes fs ++ torn).length - (logBytes fs).length) = torn.length := by
    rw [htail, tailOf, length_append]
    by_cases hnil : torn = []
    · simp [hnil]
    · rw [if_neg hnil]
      split <;> simp
  simp only [scanLog_append simulate hfit hreplay torn, hend]
  rw [recoverScan_ok hgoes, hbytes, htail]

/-- A scan of complete frames, with something behind them, that is not stopped has
replayed them all. -/
theorem replay_of_scanFrames (hfuel : (frameBytes fs ++ rest).length ≤ fuel)
    (hgoes : ∀ stop, (scanFrames limits published fuel offset (frameBytes fs ++ rest) t).2.2 ≠
      .stopped stop) :
    (∀ f ∈ fs, f.Fits limits) ∧ ∃ t', replay limits published offset t fs = .ok t' := by
  induction fs generalizing fuel offset t with
  | nil => exact ⟨by simp, t, rfl⟩
  | cons f fs ih =>
    have hpos : f.encode.length = frameHeaderBytes + f.payload.length := f.length_encode
    rw [frameBytes_cons, append_assoc] at hfuel hgoes
    rw [length_append, hpos, frameHeaderBytes] at hfuel
    obtain ⟨fuel, rfl⟩ : ∃ n, fuel = n + 1 := Nat.exists_eq_succ_of_ne_zero (by omega)
    have hne : f.encode ++ (frameBytes fs ++ rest) ≠ [] := by
      rw [← length_pos_iff, length_append, hpos, frameHeaderBytes]
      omega
    rw [scanFrames, if_neg hne] at hgoes
    by_cases hfit : f.Fits limits
    · rw [Frame.readFrame_encode hfit] at hgoes
      rw [replay]
      cases happly : t.applyFrame limits published offset f with
      | error e =>
        simp only [happly] at hgoes
        exact absurd rfl (hgoes e.2)
      | ok t₁ =>
        simp only [happly] at hgoes ⊢
        rw [← hpos, drop_left] at hgoes
        obtain ⟨hfits, ht'⟩ := ih (by omega) hgoes
        exact ⟨forall_mem_cons.mpr ⟨hfit, hfits⟩, ht'⟩
    · obtain ⟨stop, hstop⟩ := Frame.readFrame_encode_of_not_fits hfit offset (frameBytes fs ++ rest)
      simp only [hstop] at hgoes
      exact absurd rfl (hgoes stop)

/-- A recovery of complete frames, with something behind them, succeeds only if
they fit and replay. -/
theorem replay_of_scanLog
    (h : scanLog limits (.recover simulate) published (logBytes fs ++ rest) = .ok scan) :
    (∀ f ∈ fs, f.Fits limits) ∧ ∃ t, replay limits published databaseHeaderBytes {} fs = .ok t := by
  have hdrop : (logBytes fs ++ rest).drop databaseHeaderBytes = frameBytes fs ++ rest := by
    rw [logBytes, append_assoc, drop_left' length_databaseHeader]
  refine @replay_of_scanFrames _ limits published _ (logBytes fs ++ rest).length _ fs rest ?_
    fun stop hstop => ?_
  · rw [length_append, length_append, length_logBytes]
    omega
  · simp only [scanLog, bind_eq_ok] at h
    obtain ⟨_, -, h⟩ := h
    rw [hdrop, hstop] at h
    cases h

/-- The recovery of complete frames succeeds only if they fit and replay. -/
theorem scanLog_logBytes
    (h : scanLog limits (.recover simulate) published (logBytes fs) = .ok scan) :
    (∀ f ∈ fs, f.Fits limits) ∧ ∃ t, replay limits published databaseHeaderBytes {} fs = .ok t ∧
      scan.toTables = t.sortIndex ∧ scan.recoveredTail = .none := by
  rw [← append_nil (logBytes fs)] at h
  obtain ⟨hfits, t, hreplay⟩ := replay_of_scanLog h
  have hscan := scanLog_recover simulate hfits hreplay (.inl rfl)
  rw [h] at hscan
  cases hscan
  exact ⟨hfits, t, hreplay, rfl, rfl⟩

/-! ## What the frame loop has met -/

/-- How the loop ends at `tail` with the tables `t`, and with which tables. -/
inductive EndsAt (limits : Limits) (published : List UInt64) (offset : Nat) (tail : Bytes)
    (t : Tables) : Tables → ScanEnd → Prop where
  | cleanEof : tail = [] → EndsAt limits published offset tail t t .cleanEof
  | incompleteHeader : tail ≠ [] → readFrame limits offset tail = .incompleteHeader →
      EndsAt limits published offset tail t t .incompleteHeader
  | incompletePayload : tail ≠ [] → readFrame limits offset tail = .incompletePayload →
      EndsAt limits published offset tail t t .incompletePayload
  | bad {stop : Stop} : tail ≠ [] → readFrame limits offset tail = .bad stop →
      EndsAt limits published offset tail t t (.stopped stop)
  | refused {f : Frame} {t' : Tables} {stop : Stop} : tail ≠ [] →
      readFrame limits offset tail = .frame f →
      t.applyFrame limits published offset f = .error (t', stop) →
      EndsAt limits published offset tail t t' (.stopped stop)

/-- The frames the loop has applied and what it met behind them. -/
theorem scanFrames_spec {offset' : Nat} {ending : ScanEnd} (hfuel : rest.length ≤ fuel)
    (h : scanFrames limits published fuel offset rest t = (t', offset', ending)) :
    ∃ fs tail t₁, rest = frameBytes fs ++ tail ∧ (∀ f ∈ fs, f.Fits limits) ∧
      replay limits published offset t fs = .ok t₁ ∧
      offset' = offset + (frameBytes fs).length ∧
      EndsAt limits published offset' tail t₁ t' ending := by
  -- the loop that ends at once has applied nothing
  have hnow : EndsAt limits published offset rest t t' ending → offset' = offset →
      ∃ fs tail t₁, rest = frameBytes fs ++ tail ∧ (∀ f ∈ fs, f.Fits limits) ∧
        replay limits published offset t fs = .ok t₁ ∧
        offset' = offset + (frameBytes fs).length ∧
        EndsAt limits published offset' tail t₁ t' ending := by
    rintro hends rfl
    exact ⟨[], rest, t, rfl, by simp, rfl, rfl, hends⟩
  induction fuel generalizing offset rest t with
  | zero =>
    have hnil : rest = [] := length_eq_zero_iff.mp (Nat.le_zero.mp hfuel)
    cases h
    exact hnow (.cleanEof hnil) rfl
  | succ fuel ih =>
    rw [scanFrames] at h
    by_cases hnil : rest = []
    · rw [if_pos hnil] at h
      cases h
      exact hnow (.cleanEof hnil) rfl
    rw [if_neg hnil] at h
    cases hread : readFrame limits offset rest with
    | incompleteHeader =>
      rw [hread] at h
      cases h
      exact hnow (.incompleteHeader hnil hread) rfl
    | incompletePayload =>
      rw [hread] at h
      cases h
      exact hnow (.incompletePayload hnil hread) rfl
    | bad stop =>
      rw [hread] at h
      cases h
      exact hnow (.bad hnil hread) rfl
    | frame f =>
      simp only [hread] at h
      cases happly : t.applyFrame limits published offset f with
      | error e =>
        simp only [happly] at h
        cases h
        exact hnow (.refused hnil hread happly) rfl
      | ok t₂ =>
        simp only [happly] at h
        obtain ⟨hfit, hrest⟩ := Frame.readFrame_eq_frame hread
        rw [← f.length_encode] at h
        have hshort : (rest.drop f.encode.length).length ≤ fuel := by
          rw [length_drop, f.length_encode, frameHeaderBytes]
          omega
        obtain ⟨fs, tail, t₁, htail, hfits, hreplay, hoffset, hends⟩ := ih hshort h
          fun hends hoff => ⟨[], _, t₂, rfl, by simp, rfl, hoff, by rwa [hoff]⟩
        refine ⟨f :: fs, tail, t₁, ?_, forall_mem_cons.mpr ⟨hfit, hfits⟩, ?_, ?_, hends⟩
        · rw [frameBytes_cons, append_assoc, ← htail]
          exact hrest
        · rw [replay, happly]
          exact hreplay
        · rw [hoffset, frameBytes_cons, length_append, Nat.add_assoc]

/-- Whatever bytes a recovery accepts, they begin with a log that replays to the
tables it returns; what is behind the log is what it reports as a tail. -/
theorem scanLog_eq_ok {bytes : Bytes}
    (h : scanLog limits (.recover simulate) published bytes = .ok scan) :
    ∃ fs torn t, bytes = logBytes fs ++ torn ∧ (∀ f ∈ fs, f.Fits limits) ∧
      replay limits published databaseHeaderBytes {} fs = .ok t ∧
      scan.toTables = t.sortIndex ∧ scan.validatedBytes = (logBytes fs).length ∧
      (scan.recoveredTail = .none → torn = []) := by
  simp only [scanLog, bind_eq_ok] at h
  obtain ⟨_, hheader, h⟩ := h
  obtain ⟨t', offset, ending, hscan⟩ : ∃ t' offset ending, scanFrames limits published bytes.length
      databaseHeaderBytes (bytes.drop databaseHeaderBytes) {} = (t', offset, ending) :=
    ⟨_, _, _, rfl⟩
  have hfuel : (bytes.drop databaseHeaderBytes).length ≤ bytes.length := by
    rw [length_drop]
    omega
  obtain ⟨fs, torn, t, hrest, hfits, hreplay, hoffset, hends⟩ := scanFrames_spec hfuel hscan
  have hbytes : bytes = logBytes fs ++ torn := by
    rw [logBytes, append_assoc, ← hrest]
    exact eq_databaseHeader_append hheader
  rw [hscan] at h
  have hgoes := recoverScan_isOk.mp ⟨scan, h⟩
  rw [recoverScan_ok hgoes] at h
  cases h
  refine ⟨fs, torn, t, hbytes, hfits, hreplay, ?_, ?_, ?_⟩
  · cases hends with
    | bad | refused => exact absurd rfl (hgoes _)
    | _ => rfl
  · rw [length_logBytes]
    exact hoffset
  · intro hnone
    cases hends with
    | cleanEof hnil => exact hnil
    | bad | refused => exact absurd rfl (hgoes _)
    | _ => cases hnone

end Ftwdb
