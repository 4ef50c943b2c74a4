import Ftwdb.Bench.SdCard

/-!
# What a power loss leaves

A power loss rolls once for every cached write.  The write survives whole, in
part or not at all.  `apply_power_loss` persists a part as soon as it is rolled
and the whole writes only after the last roll, so the parts lie under all whole
writes, newer and older (`applyPowerLoss_eq`).  Without reordering the image is
the one the writes leave in the order of issue exactly if no older whole write
changes a byte that a newer part left.
-/

namespace Ftwdb.SdEmulator

open Overlay

variable {σ : Type}

/-! ## Patches -/

theorem PendingWrite.patch_of_outside {write : PendingWrite} {i : Nat}
    (h : i < write.offset ∨ write.offset + write.data.length ≤ i) : write.patch i = none := by
  rw [PendingWrite.patch]
  split
  · rw [List.getElem?_eq_none]
    omega
  · rfl

theorem PendingWrite.patch_nil (offset : Nat) :
    (PendingWrite.mk offset []).patch = fun _ => none := by
  funext i
  exact patch_of_outside (Nat.lt_or_ge i offset)

namespace SdCard

theorem foldl_persist (s : SdCard σ) (writes : List PendingWrite) :
    writes.foldl persist s = { s with file := putAll s.file (writes.map PendingWrite.patch) } := by
  induction writes generalizing s with
  | nil => rfl
  | cons write writes ih =>
    rw [List.foldl_cons, ih]
    rfl

/-! ## Fates -/

section Fates

variable [Rng σ]

/-- The rolls over a queue. -/
def fates (cache : CacheProfile) : List PendingWrite → σ → List (PendingWrite × Fate) × σ
  | [], rng => ([], rng)
  | write :: queue, rng =>
    let (outcome, rng) := fate cache write rng
    let (outcomes, rng) := fates cache queue rng
    ((write, outcome) :: outcomes, rng)

end Fates

/-- The part of a write that survives. -/
def survivor (p : PendingWrite × Fate) : PendingWrite :=
  match p.2 with
  | .whole => p.1
  | .torn length => ⟨p.1.offset, p.1.data.take length⟩
  | .dropped => ⟨p.1.offset, []⟩

/-- The surviving parts, those that survive whole with a mark. -/
def marked (outcomes : List (PendingWrite × Fate)) : List (Bool × (Nat → Option UInt8)) :=
  outcomes.map fun p => (decide (p.2 = .whole), (survivor p).patch)

/-- The writes that survive whole. -/
def wholes (outcomes : List (PendingWrite × Fate)) : List PendingWrite :=
  (outcomes.filter (·.2 = .whole)).map Prod.fst

/-- The patches of the others. -/
def parts (outcomes : List (PendingWrite × Fate)) : List (Nat → Option UInt8) :=
  (outcomes.filter (·.2 ≠ .whole)).map fun p => (survivor p).patch

/-- The surviving bytes at a position in the order of issue, those of whole writes marked. -/
def survivingBytes (outcomes : List (PendingWrite × Fate)) (i : Nat) : List (Bool × UInt8) :=
  outcomes.filterMap fun p => ((survivor p).patch i).map (Prod.mk (decide (p.2 = .whole)))

/-- Where the newest surviving byte is of a torn write, the newest whole write over that
byte, if there is one, has the same byte. -/
def WholeAgrees (outcomes : List (PendingWrite × Fate)) : Prop :=
  ∀ i v v', (survivingBytes outcomes i).getLast? = some (false, v) →
    ((survivingBytes outcomes i).filter (·.1)).getLast? = some (true, v') → v' = v

theorem partition_marked (outcomes : List (PendingWrite × Fate)) :
    (partition (marked outcomes)).map Prod.snd
      = parts outcomes ++ (wholes outcomes).map PendingWrite.patch := by
  have hwhole : ∀ p ∈ outcomes.filter (·.2 = .whole), (survivor p).patch = p.1.patch := by
    intro p hp
    have hfate : p.2 = .whole := by simpa using (List.mem_filter.mp hp).2
    rw [survivor, hfate]
  have hmap := List.map_congr_left hwhole
  simp only [partition, marked, parts, wholes, List.map_append, List.filter_map, List.map_map]
  exact congrArg₂ (· ++ ·) (by simp [Function.comp_def]) hmap

/-! ## The two loops -/

theorem put_patch_nil (image : Image) (offset : Nat) :
    put image (PendingWrite.mk offset []).patch = image := by
  rw [PendingWrite.patch_nil]
  rfl

section Loops

variable [Rng σ]

/-- The first loop persists the parts and collects the whole writes. -/
theorem foldl_lossStep (s : SdCard σ) (writes queue : List PendingWrite) :
    queue.foldl lossStep (s, writes)
      = ({ s with
            file := putAll s.file (parts (fates s.profile.cache queue s.rng).1)
            rng := (fates s.profile.cache queue s.rng).2 },
          writes ++ wholes (fates s.profile.cache queue s.rng).1) := by
  induction queue generalizing s writes with
  | nil => simp [fates, parts, wholes]
  | cons write queue ih =>
    rcases hfate : fate s.profile.cache write s.rng with ⟨outcome, rng⟩
    cases outcome with
    | whole => simp [lossStep, hfate, ih, fates, parts, wholes]
    | dropped => simp [lossStep, hfate, ih, fates, parts, wholes, survivor, put_patch_nil]
    | torn length =>
      by_cases hlength : length = 0
      · simp [lossStep, hfate, ih, fates, parts, wholes, survivor, hlength, put_patch_nil]
      · simp [lossStep, hfate, ih, fates, parts, wholes, survivor, hlength, persist]

/-- The rolls of a power loss on the card. -/
def outcomes (s : SdCard σ) : List (PendingWrite × Fate) :=
  (fates s.profile.cache s.pending s.rng).1

/-- The whole writes in the order of the second loop, with the random source after it. -/
def order (s : SdCard σ) : List PendingWrite × σ :=
  let rng := (fates s.profile.cache s.pending s.rng).2
  let (reorder, rng) :=
    if 1 < (wholes s.outcomes).length then
      chance s.profile.cache.powerLossReorderProbabilityPpm rng
    else (false, rng)
  if reorder then shuffle (wholes s.outcomes) rng else (wholes s.outcomes, rng)

theorem order_of_reorder_zero {s : SdCard σ}
    (h : s.profile.cache.powerLossReorderProbabilityPpm = 0) : s.order.1 = wholes s.outcomes := by
  have hroll (rng : σ) : (if 1 < (wholes s.outcomes).length then
      chance s.profile.cache.powerLossReorderProbabilityPpm rng else (false, rng)) =
        (false, rng) := by
    rw [h]
    exact ite_self _
  simp [order, hroll]

/-- A power loss puts down the parts, and then the whole writes. -/
theorem applyPowerLoss_eq (s : SdCard σ) :
    s.applyPowerLoss = { s with
      file := putAll s.file (parts s.outcomes ++ s.order.1.map PendingWrite.patch)
      rng := s.order.2
      pending := []
      status := .offline
      generation := s.generation + 1 } := by
  have hloop := foldl_lossStep { s with pending := [] } [] s.pending
  rw [List.nil_append] at hloop
  simp only [applyPowerLoss, hloop, foldl_persist, putAll_append]
  rfl

/-! ## The order of issue -/

/-- The image the surviving parts leave in the order of issue. -/
def inIssueOrder (s : SdCard σ) : Image :=
  putAll s.file (s.outcomes.map fun p => (survivor p).patch)

/-- Without reordering, a power loss leaves the image of the order of issue exactly if no
whole write changes a byte that a newer torn write left. -/
theorem powerLoss_inIssueOrder_iff (s : SdCard σ)
    (h : s.profile.cache.powerLossReorderProbabilityPpm = 0) :
    s.powerLoss.file = s.inIssueOrder ↔ WholeAgrees s.outcomes := by
  have hbytes (i : Nat) : writersAt (marked s.outcomes) i = survivingBytes s.outcomes i :=
    List.filterMap_map ..
  have hsurvivors : (marked s.outcomes).map Prod.snd
      = s.outcomes.map fun p => (survivor p).patch := List.map_map ..
  have hiff := putAll_partition_iff s.file (marked s.outcomes)
  rw [partition_marked, hsurvivors, ← order_of_reorder_zero h] at hiff
  simp only [hbytes] at hiff
  rw [powerLoss, applyPowerLoss_eq]
  exact hiff

end Loops

/-- A profile that keeps or tears every cached write and never reorders. -/
def tearing : Profile where
  schemaVersion := 1
  name := "tearing"
  device := { sizeBytes := 1024, logicalBlockBytes := 512, eraseBlockBytes := 512 }
  read := ⟨0, 0, 0, 0⟩
  write := ⟨0, 0, 0, 0⟩
  cache := {
    enabled := true
    maxBytes := 512
    falseFlushProbabilityPpm := 0
    powerLossPersistProbabilityPpm := 500000
    powerLossTornProbabilityPpm := 500000
    powerLossReorderProbabilityPpm := 0 }
  wear := {
    enabled := false
    acceleratedFactor := 1
    warningCycles := 100
    failureCycles := 200
    wornEioProbabilityPpm := 0
    readOnlyAfterBadBlocks := 0 }
  faults := ⟨0, 0, 0, none, none, none⟩

/-- An empty card of that profile. -/
def tearingCard (seed : UInt64) : SdCard XorShift64 := fresh tearing (fun _ => 0) (.new seed)

/-- The card after two writes. -/
def afterTwo (seed : UInt64) (first second : PendingWrite) : SdCard XorShift64 :=
  ((do
    write first.offset first.data false
    write second.offset second.data false : Device XorShift64 Unit).exec (tearingCard seed)).2

/-- Parts of two writes that do not overlap. -/
theorem powerLoss_inIssueOrder_apart :
    let s := afterTwo 3 ⟨0, [1, 1]⟩ ⟨512, [2, 2]⟩
    s.powerLoss.file = s.inIssueOrder := by
  intro s
  have houtcomes : s.outcomes = [(⟨0, [1, 1]⟩, .whole), (⟨512, [2, 2]⟩, .torn 1)] := by
    decide +kernel
  refine (powerLoss_inIssueOrder_iff s rfl).mpr fun i v v' hlast hwhole => ?_
  rw [houtcomes] at hlast hwhole
  rcases Nat.lt_or_ge i 512 with hi | hi
  · have hsecond : (PendingWrite.mk 512 [2]).patch i = none :=
      PendingWrite.patch_of_outside (.inl hi)
    cases hfirst : (PendingWrite.mk 0 [1, 1]).patch i <;>
      simp [survivingBytes, survivor, hsecond, hfirst] at hlast
  · have hfirst : (PendingWrite.mk 0 [1, 1]).patch i = none :=
      PendingWrite.patch_of_outside (.inr (Nat.le_trans (by decide) hi))
    cases hsecond : (PendingWrite.mk 512 [2]).patch i <;>
      simp [survivingBytes, survivor, hsecond, hfirst] at hwhole

/-- The older of two overlapping writes survives whole and the newer in part: the older
byte is left where the newer one survives. -/
theorem older_write_over_newer :
    let s := afterTwo 3 ⟨0, [1, 1]⟩ ⟨0, [2, 2]⟩
    openCard [] tearing 3 = .ok (tearingCard 3) ∧
      s.profile.cache.powerLossReorderProbabilityPpm = 0 ∧
      s.outcomes = [(⟨0, [1, 1]⟩, .whole), (⟨0, [2, 2]⟩, .torn 1)] ∧
      s.powerLoss.file 0 = 1 ∧ s.inIssueOrder 0 = 2 := by
  refine ⟨?_, rfl, ?_, ?_, ?_⟩
  · have hvalid : tearing.validate = .ok () := by decide +kernel
    rw [openCard, hvalid]
    rfl
  all_goals decide +kernel

end SdCard

end Ftwdb.SdEmulator
