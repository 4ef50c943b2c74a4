import Mathlib.Data.UInt
import Ftwdb.Lib.Mergeable
import Ftwdb.Store.Rollup

/-!
# Streaming aggregates

`aggregate.rs`: the states a gauge and a counter are summed up in, built sample
by sample and merged without the samples.  Values are exact rationals, as in the
rollups.

Both kinds of state are `Mergeable`, so that a list can be aggregated in parts
(`aggregates_homomorphic`).  For a gauge this takes the coverage never to be
negative: then the partial sums of a checked addition overflow only if the whole
sum does, in whichever order it is formed.
-/

namespace Ftwdb

open Signed

/-! ## The model -/

/-- `GaugeAggregate`: what is known of the samples of a gauge. -/
structure GaugeAggregate where
  count : UInt64
  sum : ℚ
  min : ℚ
  max : ℚ
  first : Sample
  last : Sample
  integralValueMicros : ℚ
  coveredMicros : Int64
deriving DecidableEq

namespace GaugeAggregate

/-- `from_sample`. -/
def fromSample (sample : Sample) : GaugeAggregate :=
  ⟨1, sample.value, sample.value, sample.value, sample, sample, 0, 0⟩

/-- The fields that every accepted sample changes. -/
def take (self : GaugeAggregate) (sample : Sample) : GaugeAggregate :=
  { self with
    count := self.count + 1
    sum := self.sum + sample.value
    min := self.min ⊓ sample.value
    max := self.max ⊔ sample.value
    last := sample }

/-- `push`: samples in order of time. -/
def push (self : GaugeAggregate) (sample : Sample) (maxGapMicros : Int64) :
    Except Error Unit × GaugeAggregate :=
  if sample.timestamp < self.last.timestamp then
    (.error (.invalidArgument "samples must be time ordered"), self)
  else
    match checkedSub sample.timestamp self.last.timestamp with
    | none => (.error (.invalidArgument "sample timestamps overflow a gap"), self)
    | some gap =>
      if gap ≤ maxGapMicros then
        match checkedAdd self.coveredMicros gap with
        | none => (.error (.invalidArgument "aggregate coverage overflows"), self)
        | some covered =>
          (.ok (), { self with
            integralValueMicros := self.integralValueMicros + self.last.value * gap.toInt
            coveredMicros := covered }.take sample)
      else (.ok (), self.take sample)

/-- `merge`: states in order of time, with the gap between them. -/
def merge (self next : GaugeAggregate) (maxGapMicros : Int64) : Except Error GaugeAggregate :=
  if next.first.timestamp < self.last.timestamp then
    .error (.invalidArgument "aggregate states must be time ordered")
  else
    match checkedSub next.first.timestamp self.last.timestamp with
    | none => .error (.invalidArgument "aggregate timestamps overflow a gap")
    | some gap =>
      let bridgeIntegral := if gap ≤ maxGapMicros then self.last.value * gap.toInt else 0
      let bridgeCoverage := if gap ≤ maxGapMicros then gap else 0
      match (checkedAdd self.coveredMicros bridgeCoverage).bind
          fun value => checkedAdd value next.coveredMicros with
      | none => .error (.invalidArgument "aggregate coverage overflows")
      | some coveredMicros =>
        .ok
          { count := self.count + next.count
            sum := self.sum + next.sum
            min := self.min ⊓ next.min
            max := self.max ⊔ next.max
            first := self.first
            last := next.last
            integralValueMicros :=
              self.integralValueMicros + bridgeIntegral + next.integralValueMicros
            coveredMicros }

end GaugeAggregate

/-- `CounterAggregate`: what is known of the readings of a counter. -/
structure CounterAggregate where
  count : UInt64
  first : Sample
  last : Sample
  positiveDelta : ℚ
  resets : UInt64
deriving DecidableEq

/-- The amount between two readings.  A reading below the one before it counts
from a reset to zero. -/
def counterStep (previous next : ℚ) : ℚ × Bool :=
  if previous ≤ next then (next - previous, false) else (next ⊔ 0, true)

namespace CounterAggregate

/-- `from_sample`. -/
def fromSample (sample : Sample) : CounterAggregate := ⟨1, sample, sample, 0, 0⟩

/-- `push`; a smaller value is a reset. -/
def push (self : CounterAggregate) (sample : Sample) : Except Error Unit × CounterAggregate :=
  if sample.timestamp < self.last.timestamp then
    (.error (.invalidArgument "samples must be time ordered"), self)
  else
    let (delta, reset) := counterStep self.last.value sample.value
    (.ok (), { self with
      positiveDelta := self.positiveDelta + delta
      resets := self.resets + reset.toUInt64
      count := self.count + 1
      last := sample })

/-- `merge`. -/
def merge (self next : CounterAggregate) : Except Error CounterAggregate :=
  if next.first.timestamp < self.last.timestamp then
    .error (.invalidArgument "aggregate states must be time ordered")
  else
    let (bridgeDelta, reset) := counterStep self.last.value next.first.value
    .ok
      { count := self.count + next.count
        first := self.first
        last := next.last
        positiveDelta := self.positiveDelta + bridgeDelta + next.positiveDelta
        resets := self.resets + reset.toUInt64 + next.resets }

end CounterAggregate

/-- The state behind a call that succeeds. -/
def accepted {σ : Type} : Except Error Unit × σ → Option σ
  | (.ok (), s) => some s
  | (.error _, _) => none

theorem toOption_eq_some {σ : Type} {x : Except Error σ} {s : σ} :
    x.toOption = some s ↔ x = .ok s := by
  cases x <;> simp [Except.toOption]

/-! ## Gauges -/

/-- The time between two samples that counts as covered. -/
def bridge (maxGapMicros : Int64) (a b : Sample) : Int :=
  if b.timestamp.toInt - a.timestamp.toInt ≤ maxGapMicros.toInt then
    b.timestamp.toInt - a.timestamp.toInt
  else 0

/-- The second sample is not older, and the time between the two is a number. -/
structure Follows (a b : Sample) : Prop where
  ordered : a.timestamp.toInt ≤ b.timestamp.toInt
  fits : b.timestamp.toInt - a.timestamp.toInt < 2 ^ 63

theorem Follows.bridge_nonneg {a b : Sample} (h : Follows a b) (maxGapMicros : Int64) :
    0 ≤ bridge maxGapMicros a b := by
  have := h.ordered
  unfold bridge
  split <;> omega

theorem Follows.bridge_le {a b : Sample} (h : Follows a b) (maxGapMicros : Int64) :
    bridge maxGapMicros a b ≤ b.timestamp.toInt - a.timestamp.toInt := by
  have := h.ordered
  unfold bridge
  split <;> omega

/-- The two tests on the time of the next sample. -/
theorem follows_iff {a b : Sample} : Follows a b ↔
    ¬ b.timestamp < a.timestamp ∧ ∃ gap, checkedSub b.timestamp a.timestamp = some gap := by
  have ha := fits_toInt a.timestamp
  have hb := fits_toInt b.timestamp
  simp only [Int64.lt_iff_toInt_lt, checkedSub_eq_some]
  constructor
  · intro h
    have hordered := h.ordered
    have hfits := h.fits
    exact ⟨by omega, .ofInt (b.timestamp.toInt - a.timestamp.toInt),
      Int64.toInt_ofInt_of_le (by omega) (by omega)⟩
  · rintro ⟨hordered, gap, hgap⟩
    have := fits_toInt gap
    exact ⟨by omega, by omega⟩

theorem bridge_eq (maxGapMicros : Int64) {a b : Sample} {gap : Int64}
    (h : checkedSub b.timestamp a.timestamp = some gap) :
    bridge maxGapMicros a b = if gap ≤ maxGapMicros then gap.toInt else 0 := by
  rw [checkedSub_eq_some] at h
  rw [bridge, ← h]
  simp only [Int64.le_iff_toInt_le]

namespace GaugeAggregate

/-- Two states side by side, with the coverage given. -/
def joined (maxGapMicros : Int64) (s t : GaugeAggregate) (coveredMicros : Int64) :
    GaugeAggregate where
  count := s.count + t.count
  sum := s.sum + t.sum
  min := s.min ⊓ t.min
  max := s.max ⊔ t.max
  first := s.first
  last := t.last
  integralValueMicros :=
    s.integralValueMicros + s.last.value * bridge maxGapMicros s.last t.first +
      t.integralValueMicros
  coveredMicros := coveredMicros

variable {maxGapMicros : Int64} {s t u v w : GaugeAggregate}

theorem joined_assoc (c c₁ c₂ : Int64) :
    joined maxGapMicros (joined maxGapMicros s t c₁) u c =
      joined maxGapMicros s (joined maxGapMicros t u c₂) c := by
  simp only [joined, add_assoc, inf_assoc, sup_assoc]

/-- A joined state is known by its coverage. -/
theorem joined_eq_iff {c : Int64} {n : Int} (hc : c.toInt = n) :
    joined maxGapMicros s t c = u ↔
      u.coveredMicros.toInt = n ∧ u = joined maxGapMicros s t u.coveredMicros := by
  constructor
  · rintro rfl
    exact ⟨hc, rfl⟩
  · rintro ⟨hu, hjoined⟩
    obtain rfl : c = u.coveredMicros := Int64.toInt_inj.mp (hc.trans hu.symm)
    exact hjoined.symm

/-- A sample is pushed like the state made of it. -/
theorem accepted_push {x : Sample} : accepted (s.push x maxGapMicros) = some u ↔
    Follows s.last x ∧
      u.coveredMicros.toInt = s.coveredMicros.toInt + bridge maxGapMicros s.last x ∧
      u = joined maxGapMicros s (fromSample x) u.coveredMicros := by
  rw [follows_iff]
  by_cases hlt : x.timestamp < s.last.timestamp
  · simp [push, hlt, accepted]
  cases hgap : checkedSub x.timestamp s.last.timestamp with
  | none => simp [push, hlt, hgap, accepted]
  | some gap =>
    have hbridge := bridge_eq maxGapMicros hgap
    simp only [push, hlt, hgap, if_false, not_false_eq_true, true_and, Option.some.injEq,
      exists_eq']
    split
    · next hle =>
      rw [if_pos hle] at hbridge
      rw [hbridge]
      cases hcovered : checkedAdd s.coveredMicros gap with
      | none =>
        rw [checkedAdd_eq_none] at hcovered
        have := fits_toInt u.coveredMicros
        constructor
        · intro h
          cases h
        · omega
      | some covered =>
        rw [← joined_eq_iff (checkedAdd_eq_some.mp hcovered)]
        simp [accepted, take, joined, fromSample, hbridge]
    · next hgt =>
      rw [if_neg hgt] at hbridge
      rw [hbridge, add_zero, ← joined_eq_iff rfl]
      simp [accepted, take, joined, fromSample, hbridge]

theorem merge_eq_ok : s.merge t maxGapMicros = .ok u ↔
    Follows s.last t.first ∧
      s.coveredMicros.toInt + bridge maxGapMicros s.last t.first < 2 ^ 63 ∧
      u.coveredMicros.toInt =
        s.coveredMicros.toInt + bridge maxGapMicros s.last t.first + t.coveredMicros.toInt ∧
      u = joined maxGapMicros s t u.coveredMicros := by
  rw [follows_iff]
  by_cases hlt : t.first.timestamp < s.last.timestamp
  · simp [merge, hlt]
  cases hgap : checkedSub t.first.timestamp s.last.timestamp with
  | none => simp [merge, hlt, hgap]
  | some gap =>
    have hbridge := bridge_eq maxGapMicros hgap
    have hcoverage : (if gap ≤ maxGapMicros then gap else 0).toInt =
        bridge maxGapMicros s.last t.first := by
      rw [hbridge]
      split <;> rfl
    have hintegral : (if gap ≤ maxGapMicros then s.last.value * gap.toInt else 0) =
        s.last.value * bridge maxGapMicros s.last t.first := by
      rw [hbridge]
      split <;> simp
    simp only [merge, hlt, hgap, if_false, not_false_eq_true, true_and, Option.some.injEq,
      exists_eq', hintegral]
    have hnonneg := (follows_iff.mpr ⟨hlt, gap, hgap⟩).bridge_nonneg maxGapMicros
    have hcovered := fits_toInt s.coveredMicros
    have hu := fits_toInt u.coveredMicros
    cases hfirst : checkedAdd s.coveredMicros (if gap ≤ maxGapMicros then gap else 0) with
    | none =>
      rw [checkedAdd_eq_none, hcoverage] at hfirst
      simp only [Option.bind_none]
      constructor
      · intro h
        cases h
      · omega
    | some value =>
      rw [checkedAdd_eq_some, hcoverage] at hfirst
      have hvalue := fits_toInt value
      rw [Option.bind_some]
      cases hsecond : checkedAdd value t.coveredMicros with
      | none =>
        rw [checkedAdd_eq_none, hfirst] at hsecond
        constructor
        · intro h
          cases h
        · omega
      | some covered =>
        rw [checkedAdd_eq_some, hfirst] at hsecond
        rw [← joined_eq_iff hsecond, hfirst.symm, Except.ok.injEq]
        exact (and_iff_right hvalue.2).symm

/-- What the built states have in common. -/
def Covers (s : GaugeAggregate) : Prop := 0 ≤ s.coveredMicros.toInt

/-- In front of a state without negative coverage only the sum can overflow. -/
theorem merge_eq_ok_of_covers (ht : t.Covers) :
    s.merge t maxGapMicros = .ok u ↔ Follows s.last t.first ∧
      u.coveredMicros.toInt =
        s.coveredMicros.toInt + bridge maxGapMicros s.last t.first + t.coveredMicros.toInt ∧
      u = joined maxGapMicros s t u.coveredMicros := by
  have hu := fits_toInt u.coveredMicros
  rw [Covers] at ht
  rw [merge_eq_ok]
  constructor
  · rintro ⟨hfollows, -, hrest⟩
    exact ⟨hfollows, hrest⟩
  · rintro ⟨hfollows, hcovered, hjoined⟩
    exact ⟨hfollows, by omega, hcovered, hjoined⟩

theorem covers_joined {c : Int64} (hs : s.Covers) (ht : t.Covers)
    (hfollows : Follows s.last t.first) (hc : c.toInt =
      s.coveredMicros.toInt + bridge maxGapMicros s.last t.first + t.coveredMicros.toInt) :
    (joined maxGapMicros s t c).Covers := by
  have := hfollows.bridge_nonneg maxGapMicros
  rw [Covers] at *
  show 0 ≤ c.toInt
  omega

theorem covers_fromSample (x : Sample) : (fromSample x).Covers := Int.le_refl 0

/-- A sum of three parts without a negative one has partial sums in the range. -/
theorem exists_toInt {x : Int} {c : Int64} (hlow : 0 ≤ x) (hle : x ≤ c.toInt) :
    ∃ d : Int64, d.toInt = x := by
  have := fits_toInt c
  exact ⟨.ofInt x, Int64.toInt_ofInt_of_le (by omega) (by omega)⟩

theorem push_before_merge {x : Sample} (hs : s.Covers) (ht : t.Covers)
    (h : ∃ v, s.merge t maxGapMicros = .ok v ∧ accepted (v.push x maxGapMicros) = some u) :
    ∃ v, accepted (t.push x maxGapMicros) = some v ∧ s.merge v maxGapMicros = .ok u := by
  obtain ⟨v, hmerge, hpush⟩ := h
  obtain ⟨hfirst, hv, hvjoined⟩ := (merge_eq_ok_of_covers ht).mp hmerge
  obtain ⟨hlast, hu, hujoined⟩ := accepted_push.mp hpush
  have hvlast : v.last = t.last := by rw [hvjoined]; rfl
  rw [hvlast] at hlast hu
  have hbefore := hfirst.bridge_nonneg maxGapMicros
  have hbehind := hlast.bridge_nonneg maxGapMicros
  rw [Covers] at hs
  have htc : 0 ≤ t.coveredMicros.toInt := ht
  obtain ⟨c, hc⟩ : ∃ c : Int64, c.toInt = t.coveredMicros.toInt + bridge maxGapMicros t.last x :=
    exists_toInt (c := u.coveredMicros) (by omega) (by omega)
  have hcovers : (joined maxGapMicros t (fromSample x) c).Covers :=
    covers_joined ht (covers_fromSample x) hlast (by simpa [fromSample] using hc)
  refine ⟨joined maxGapMicros t (fromSample x) c, accepted_push.mpr ⟨hlast, hc, rfl⟩,
    (merge_eq_ok_of_covers hcovers).mpr ⟨hfirst, ?_, ?_⟩⟩
  · show u.coveredMicros.toInt =
      s.coveredMicros.toInt + bridge maxGapMicros s.last t.first + c.toInt
    omega
  · rw [← joined_assoc _ v.coveredMicros, ← hvjoined]
    exact hujoined

theorem merge_before_push {x : Sample} (hs : s.Covers) (ht : t.Covers)
    (h : ∃ v, accepted (t.push x maxGapMicros) = some v ∧ s.merge v maxGapMicros = .ok u) :
    ∃ v, s.merge t maxGapMicros = .ok v ∧ accepted (v.push x maxGapMicros) = some u := by
  obtain ⟨v, hpush, hmerge⟩ := h
  obtain ⟨hlast, hv, hvjoined⟩ := accepted_push.mp hpush
  have hbehind := hlast.bridge_nonneg maxGapMicros
  have htc : 0 ≤ t.coveredMicros.toInt := ht
  have hvc : v.Covers := by
    rw [Covers]
    omega
  obtain ⟨hfirst, hu, hujoined⟩ := (merge_eq_ok_of_covers hvc).mp hmerge
  have hvfirst : v.first = t.first := by rw [hvjoined]; rfl
  rw [hvfirst] at hfirst hu
  have hbefore := hfirst.bridge_nonneg maxGapMicros
  rw [Covers] at hs
  obtain ⟨c, hc⟩ : ∃ c : Int64, c.toInt =
      s.coveredMicros.toInt + bridge maxGapMicros s.last t.first + t.coveredMicros.toInt :=
    exists_toInt (c := u.coveredMicros) (by omega) (by omega)
  refine ⟨joined maxGapMicros s t c, (merge_eq_ok_of_covers ht).mpr ⟨hfirst, hc, rfl⟩,
    accepted_push.mpr ⟨hlast, ?_, ?_⟩⟩
  · show u.coveredMicros.toInt = c.toInt + bridge maxGapMicros t.last x
    omega
  · rw [joined_assoc _ c v.coveredMicros, ← hvjoined]
    exact hujoined

/-- Gauge states are mergeable. -/
theorem mergeable (maxGapMicros : Int64) :
    Mergeable fromSample (fun s x => accepted (s.push x maxGapMicros))
      (fun s t => (s.merge t maxGapMicros).toOption) Covers where
  ok_single := covers_fromSample
  ok_push s x t hs hpush := by
    obtain ⟨hfollows, hcovered, hjoined⟩ := accepted_push.mp hpush
    rw [hjoined]
    exact covers_joined hs (covers_fromSample x) hfollows (by simpa [fromSample] using hcovered)
  merge_single s x hs := by
    apply Option.ext
    intro u
    rw [toOption_eq_some, merge_eq_ok_of_covers (covers_fromSample x), accepted_push]
    simp [fromSample]
  merge_push s t x hs ht := by
    apply Option.ext
    intro u
    simp only [Option.bind_eq_some_iff, toOption_eq_some]
    exact ⟨push_before_merge hs ht, merge_before_push hs ht⟩

/-- The state of a non-empty list of samples, if every push succeeds. -/
def ofSamples (maxGapMicros : Int64) (x : Sample) (xs : List Sample) : Option GaugeAggregate :=
  Mergeable.fold fromSample (fun s x => accepted (s.push x maxGapMicros)) x xs

/-- Wherever both groupings are defined they agree. -/
theorem merge_assoc_of_ok {t' v' : GaugeAggregate} (hst : s.merge t maxGapMicros = .ok u)
    (hleft : u.merge w maxGapMicros = .ok v) (htw : t.merge w maxGapMicros = .ok t')
    (hright : s.merge t' maxGapMicros = .ok v') : v = v' := by
  obtain ⟨-, -, hu, hujoined⟩ := merge_eq_ok.mp hst
  obtain ⟨-, -, hv, hvjoined⟩ := merge_eq_ok.mp hleft
  obtain ⟨-, -, ht', htjoined⟩ := merge_eq_ok.mp htw
  obtain ⟨-, -, hv', hvjoined'⟩ := merge_eq_ok.mp hright
  have hlast : u.last = t.last := by rw [hujoined]; rfl
  have hfirst : t'.first = t.first := by rw [htjoined]; rfl
  rw [hlast] at hv
  rw [hfirst] at hv'
  have hcovered : v.coveredMicros = v'.coveredMicros := Int64.toInt_inj.mp (by omega)
  rw [hvjoined, hvjoined', hujoined, htjoined, hcovered, joined_assoc]

theorem push_error (s : GaugeAggregate) (x : Sample) {e : Error}
    (h : (s.push x maxGapMicros).1 = .error e) : (s.push x maxGapMicros).2 = s := by
  revert h
  unfold push
  repeat' split
  all_goals first | exact fun _ => rfl | exact nofun

/-- The sum of the gaps between neighbours that do not exceed the limit. -/
def coveredTime (maxGapMicros : Int64) : List Sample → Int
  | a :: b :: rest => bridge maxGapMicros a b + coveredTime maxGapMicros (b :: rest)
  | _ => 0

/-- The times of a state behind a run of pushes. -/
theorem foldlM_push {xs : List Sample}
    (h : xs.foldlM (fun s x => accepted (s.push x maxGapMicros)) s = some t) :
    t.first = s.first ∧ (s.last :: xs).getLast? = some t.last ∧
      t.coveredMicros.toInt =
        s.coveredMicros.toInt + coveredTime maxGapMicros (s.last :: xs) ∧
      coveredTime maxGapMicros (s.last :: xs) ≤
        t.last.timestamp.toInt - s.last.timestamp.toInt := by
  induction xs generalizing s with
  | nil =>
    cases h
    simp [coveredTime]
  | cons x xs ih =>
    obtain ⟨u, hpush, hrest⟩ := Option.bind_eq_some_iff.mp h
    obtain ⟨hfollows, hcovered, hjoined⟩ := accepted_push.mp hpush
    have hfirst : u.first = s.first := by rw [hjoined]; rfl
    have hlast : u.last = x := by rw [hjoined]; rfl
    obtain ⟨htfirst, htlast, htcovered, htbound⟩ := ih hrest
    rw [hlast] at htlast htcovered htbound
    have hbridge := hfollows.bridge_le maxGapMicros
    refine ⟨htfirst.trans hfirst, htlast, ?_, ?_⟩
    · rw [coveredTime]
      omega
    · rw [coveredTime]
      omega

end GaugeAggregate

/-! ## Counters -/

namespace CounterAggregate

variable {s t u : CounterAggregate}

theorem accepted_push {x : Sample} : accepted (s.push x) = some u ↔
    ¬ x.timestamp < s.last.timestamp ∧
      u = ⟨s.count + 1, s.first, x, s.positiveDelta + (counterStep s.last.value x.value).1,
        s.resets + (counterStep s.last.value x.value).2.toUInt64⟩ := by
  unfold push
  split
  · simp_all [accepted]
  · simp_all [accepted, eq_comm]

theorem merge_eq_ok : s.merge t = .ok u ↔
    ¬ t.first.timestamp < s.last.timestamp ∧
      u = ⟨s.count + t.count, s.first, t.last,
        s.positiveDelta + (counterStep s.last.value t.first.value).1 + t.positiveDelta,
        s.resets + (counterStep s.last.value t.first.value).2.toUInt64 + t.resets⟩ := by
  unfold merge
  split
  · simp_all
  · simp_all [eq_comm]

/-- Counter states are mergeable. -/
theorem mergeable : Mergeable fromSample (fun s x => accepted (s.push x))
    (fun s t => (s.merge t).toOption) fun _ => True where
  ok_single _ := trivial
  ok_push _ _ _ _ _ := trivial
  merge_single s x _ := by
    apply Option.ext
    intro u
    rw [toOption_eq_some, merge_eq_ok, accepted_push]
    simp [fromSample]
  merge_push s t x _ _ := by
    apply Option.ext
    intro u
    simp only [Option.bind_eq_some_iff, toOption_eq_some, merge_eq_ok, accepted_push]
    constructor
    · rintro ⟨v, ⟨hfirst, rfl⟩, hlast, rfl⟩
      refine ⟨_, ⟨hlast, rfl⟩, hfirst, ?_⟩
      simp only [add_assoc]
    · rintro ⟨v, ⟨hlast, rfl⟩, hfirst, rfl⟩
      refine ⟨_, ⟨hfirst, rfl⟩, hlast, ?_⟩
      simp only [add_assoc]

/-- The state after all samples. -/
def ofSamples (x : Sample) (xs : List Sample) : Option CounterAggregate :=
  Mergeable.fold fromSample (fun s x => accepted (s.push x)) x xs

theorem merge_assoc_of_ok {v w t' v' : CounterAggregate} (hst : s.merge t = .ok u)
    (hleft : u.merge w = .ok v) (htw : t.merge w = .ok t') (hright : s.merge t' = .ok v') :
    v = v' := by
  obtain ⟨-, rfl⟩ := merge_eq_ok.mp hst
  obtain ⟨-, rfl⟩ := merge_eq_ok.mp hleft
  obtain ⟨-, rfl⟩ := merge_eq_ok.mp htw
  obtain ⟨-, rfl⟩ := merge_eq_ok.mp hright
  simp only [add_assoc]

theorem push_error (s : CounterAggregate) (x : Sample) {e : Error} (h : (s.push x).1 = .error e) :
    (s.push x).2 = s := by
  revert h
  unfold push
  split
  · exact fun _ => rfl
  · exact nofun

/-- The readings below the one before them. -/
def descents : List Sample → Nat
  | a :: b :: rest => (if b.value < a.value then 1 else 0) + descents (b :: rest)
  | _ => 0

theorem counterStep_nonneg (previous next : ℚ) : 0 ≤ (counterStep previous next).1 := by
  unfold counterStep
  split
  · next h => exact sub_nonneg.mpr h
  · exact le_sup_right

theorem counterStep_reset (previous next : ℚ) :
    (counterStep previous next).2.toUInt64 = .ofNat (if next < previous then 1 else 0) := by
  unfold counterStep
  split
  · next h => rw [if_neg (not_lt.mpr h)]; rfl
  · next h => rw [if_pos (not_le.mp h)]; rfl

theorem foldlM_push {xs : List Sample} (h : xs.foldlM (fun s x => accepted (s.push x)) s = some t) :
    s.positiveDelta ≤ t.positiveDelta ∧ t.resets = s.resets + .ofNat (descents (s.last :: xs)) := by
  induction xs generalizing s with
  | nil =>
    cases h
    exact ⟨le_rfl, (UInt64.add_zero _).symm⟩
  | cons x xs ih =>
    obtain ⟨u, hpush, hrest⟩ := Option.bind_eq_some_iff.mp h
    obtain ⟨-, rfl⟩ := accepted_push.mp hpush
    obtain ⟨hdelta, hresets⟩ := ih hrest
    constructor
    · exact (le_add_of_nonneg_right (counterStep_nonneg _ _)).trans hdelta
    · rw [hresets, descents, counterStep_reset, UInt64.ofNat_add, UInt64.add_assoc]

end CounterAggregate

/-! ## Aggregates as homomorphisms -/

/-- What merging the parts of a list amounts to: `ofSamples` of an append is
defined exactly if both parts and their merge are, and gives the same state. -/
def FoldsInParts {σ : Type} (ofSamples : Sample → List Sample → Option σ)
    (merge : σ → σ → Except Error σ) : Prop :=
  ∀ x xs y ys u, ofSamples x (xs ++ y :: ys) = some u ↔
    ∃ s t, ofSamples x xs = some s ∧ ofSamples y ys = some t ∧ merge s t = .ok u

/-- Both groupings of three states agree where they are defined, and on states
made of samples one is defined exactly if the other is. -/
structure Associative {σ : Type} (ofSamples : Sample → List Sample → Option σ)
    (merge : σ → σ → Except Error σ) : Prop where
  agree : ∀ s t w u v t' v', merge s t = .ok u → merge u w = .ok v → merge t w = .ok t' →
    merge s t' = .ok v' → v = v'
  defined : ∀ x xs y ys z zs s t w, ofSamples x xs = some s → ofSamples y ys = some t →
    ofSamples z zs = some w → ∀ v, (∃ u, merge s t = .ok u ∧ merge u w = .ok v) ↔
      ∃ t', merge t w = .ok t' ∧ merge s t' = .ok v

theorem foldsInParts_of_mergeable {σ : Type} {single : Sample → σ} {push : σ → Sample → Option σ}
    {merge : σ → σ → Except Error σ} {ok : σ → Prop}
    (h : Mergeable single push (fun s t => (merge s t).toOption) ok) :
    FoldsInParts (Mergeable.fold single push) merge := by
  intro x xs y ys u
  rw [h.fold_append_eq_some]
  simp only [toOption_eq_some]

theorem associative_of_mergeable {σ : Type} {single : Sample → σ} {push : σ → Sample → Option σ}
    {merge : σ → σ → Except Error σ} {ok : σ → Prop}
    (h : Mergeable single push (fun s t => (merge s t).toOption) ok)
    (hagree : ∀ s t w u v t' v', merge s t = .ok u → merge u w = .ok v → merge t w = .ok t' →
      merge s t' = .ok v' → v = v') :
    Associative (Mergeable.fold single push) merge where
  agree := hagree
  defined x xs y ys z zs s t w hs ht hw v := by
    have hassoc := congrArg (· = some v) (h.merge_assoc hs ht hw)
    simpa only [Option.bind_eq_some_iff, toOption_eq_some, eq_iff_iff] using hassoc

/-- Aggregating is a homomorphism from lists of samples to states, for gauges and
for counters. -/
theorem aggregates_homomorphic (maxGapMicros : Int64) :
    FoldsInParts (GaugeAggregate.ofSamples maxGapMicros) (fun s t => s.merge t maxGapMicros) ∧
      FoldsInParts CounterAggregate.ofSamples CounterAggregate.merge ∧
      Associative (GaugeAggregate.ofSamples maxGapMicros) (fun s t => s.merge t maxGapMicros) ∧
      Associative CounterAggregate.ofSamples CounterAggregate.merge ∧
      (∀ (s : GaugeAggregate) x e, (s.push x maxGapMicros).1 = .error e →
        (s.push x maxGapMicros).2 = s) ∧
      (∀ (s : CounterAggregate) x e, (s.push x).1 = .error e → (s.push x).2 = s) ∧
      (∀ x xs s, GaugeAggregate.ofSamples maxGapMicros x xs = some s →
        s.first = x ∧ (x :: xs).getLast? = some s.last ∧
          s.coveredMicros.toInt = GaugeAggregate.coveredTime maxGapMicros (x :: xs) ∧
          s.coveredMicros.toInt ≤ s.last.timestamp.toInt - s.first.timestamp.toInt) ∧
      ∀ x xs s, CounterAggregate.ofSamples x xs = some s →
        0 ≤ s.positiveDelta ∧ s.resets = .ofNat (CounterAggregate.descents (x :: xs)) := by
  refine ⟨foldsInParts_of_mergeable (GaugeAggregate.mergeable maxGapMicros),
    foldsInParts_of_mergeable CounterAggregate.mergeable,
    associative_of_mergeable (GaugeAggregate.mergeable maxGapMicros)
      fun s t w u v t' v' => GaugeAggregate.merge_assoc_of_ok,
    associative_of_mergeable CounterAggregate.mergeable
      fun s t w u v t' v' => CounterAggregate.merge_assoc_of_ok,
    fun s x e => s.push_error x, fun s x e => s.push_error x, fun x xs s hs => ?_,
    fun x xs s hs => ?_⟩
  · obtain ⟨hfirst, hlast, hcovered, hbound⟩ := GaugeAggregate.foldlM_push hs
    have hzero : (GaugeAggregate.fromSample x).coveredMicros.toInt = 0 := rfl
    rw [hzero, zero_add] at hcovered
    refine ⟨hfirst, hlast, hcovered, ?_⟩
    rw [hcovered, hfirst]
    exact hbound
  · obtain ⟨hdelta, hresets⟩ := CounterAggregate.foldlM_push hs
    refine ⟨hdelta, ?_⟩
    rw [hresets]
    exact UInt64.zero_add _

/-- Two parts with a gap over the limit between them, and a counter that starts again. -/
theorem aggregates_homomorphic_parts :
    (∃ u s t, GaugeAggregate.ofSamples 10 ⟨0, 2⟩ ([⟨10, 4⟩] ++ ⟨30, 1⟩ :: [⟨35, 1⟩]) = some u ∧
      (GaugeAggregate.ofSamples 10 ⟨0, 2⟩ [⟨10, 4⟩] = some s ∧
        GaugeAggregate.ofSamples 10 ⟨30, 1⟩ [⟨35, 1⟩] = some t ∧ s.merge t 10 = .ok u) ∧
      (u.integralValueMicros, u.coveredMicros) = (25, 15)) ∧
    ∃ u, CounterAggregate.ofSamples ⟨0, 5⟩ [⟨1, 8⟩, ⟨2, 3⟩] = some u ∧
      u.positiveDelta = 6 ∧ u.resets = 1 := by
  have hgauge : (GaugeAggregate.ofSamples 10 ⟨0, 2⟩ ([⟨10, 4⟩] ++ ⟨30, 1⟩ :: [⟨35, 1⟩])).map
      (fun u => (u.integralValueMicros, u.coveredMicros)) = some (25, 15) := by decide +kernel
  have hcounter : (CounterAggregate.ofSamples ⟨0, 5⟩ [⟨1, 8⟩, ⟨2, 3⟩]).map (·.positiveDelta) =
      some 6 := by decide +kernel
  obtain ⟨hparts, -, -, -, -, -, -, hresets⟩ := aggregates_homomorphic 10
  obtain ⟨u, hu, hvalues⟩ := Option.map_eq_some_iff.mp hgauge
  obtain ⟨s, t, hmerged⟩ := (hparts _ _ _ _ _).mp hu
  obtain ⟨v, hv, hdelta⟩ := Option.map_eq_some_iff.mp hcounter
  refine ⟨⟨u, s, t, hu, hmerged, hvalues⟩, v, hv, hdelta, (hresets _ _ _ hv).2.trans ?_⟩
  decide +kernel

end Ftwdb
