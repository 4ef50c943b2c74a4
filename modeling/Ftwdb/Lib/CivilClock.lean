import Mathlib.Order.ConditionallyCompleteLattice.Basic
import Mathlib.Data.Int.ConditionallyCompleteOrder
import Mathlib.Tactic.IntervalCases
import Mathlib.Tactic.Linarith

/-!
# Clocks of time zones

The clock of a time zone shows a civil time at every instant.  Both are counted
in microseconds, so a day of the calendar is a block of readings.  A clock may
be set ahead, and some readings are never shown, or back, and some are shown
more than once.

A civil time is turned into an instant in the compatible way.  A reading that is
shown stands for the first instant that shows it.  A skipped reading is counted
on from the change with the clock that was in use before it.
-/

namespace CivilClock

/-- The readings of a clock, which stays within a bound of universal time. -/
structure Clock where
  reading : ℤ → ℤ
  near : ∃ bound, ∀ t, |reading t - t| ≤ bound
  /-- A reading that a change of the clock skips is not shown at another time. -/
  skips : ∀ t c, reading (t - 1) < c → c < reading t → ∀ t', reading t' ≠ c

/-- A day of the calendar, in microseconds. -/
def dayMicros : ℤ := 86400000000

/-- The day a reading is on, counted from 1970-01-01. -/
def dayOf (reading : ℤ) : ℤ := reading / dayMicros

/-- The clock time of a reading on its day. -/
def timeOfDay (reading : ℤ) : ℤ := reading % dayMicros

theorem dayOf_eq_iff {c d : ℤ} : dayOf c = d ↔ d * dayMicros ≤ c ∧ c < (d + 1) * dayMicros := by
  rw [dayOf, dayMicros]
  omega

theorem timeOfDay_bounds (c : ℤ) : 0 ≤ timeOfDay c ∧ timeOfDay c < dayMicros := by
  rw [timeOfDay, dayMicros]
  omega

namespace Clock

variable (clock : Clock)

/-- The first instant whose reading is in a set. -/
noncomputable def first (readings : Set ℤ) : ℤ := sInf {t | clock.reading t ∈ readings}

/-- The first instant of a day. -/
noncomputable def firstInstant (d : ℤ) : ℤ := clock.first {c | dayOf c = d}

/-- The first instant at which the clock shows `m` or more. -/
noncomputable def reach (m : ℤ) : ℤ := clock.first {c | m ≤ c}

open Classical in
/-- The instant of a civil time. -/
noncomputable def resolve (c : ℤ) : ℤ :=
  if ∃ t, clock.reading t = c then clock.first {c}
  else clock.reach (c + 1) + (c - (clock.reading (clock.reach (c + 1) - 1) + 1))

variable {clock}

/-- Instants with readings above some reading are bounded below. -/
theorem bddBelow {readings : Set ℤ} {c : ℤ} (hc : ∀ r ∈ readings, c ≤ r) :
    BddBelow {t | clock.reading t ∈ readings} := by
  obtain ⟨bound, hbound⟩ := clock.near
  refine ⟨c - bound, fun t ht => ?_⟩
  have hnear := abs_le.mp (hbound t)
  have hle := hc _ ht
  linarith [hnear.2]

/-- The first instant whose reading is in the set. -/
theorem reading_first {readings : Set ℤ} {c : ℤ} (hc : ∀ r ∈ readings, c ≤ r) {t : ℤ}
    (ht : clock.reading t ∈ readings) : clock.reading (clock.first readings) ∈ readings :=
  Int.csInf_mem ⟨t, ht⟩ (bddBelow hc)

/-! ## The instant a reading is reached at -/

theorem le_reading_reach (clock : Clock) (m : ℤ) : m ≤ clock.reading (clock.reach m) := by
  obtain ⟨bound, hbound⟩ := clock.near
  have hnear := abs_le.mp (hbound (m + bound))
  exact reading_first (fun _ => id) (show m ≤ clock.reading (m + bound) by linarith [hnear.1])

/-- An instant that shows `m` or more is not before the first one. -/
theorem reach_le {m t : ℤ} (h : m ≤ clock.reading t) : clock.reach m ≤ t :=
  csInf_le (bddBelow (fun _ => id)) h

theorem reading_lt {m t : ℤ} (h : t < clock.reach m) : clock.reading t < m := by
  by_contra hle
  exact absurd (reach_le (not_lt.mp hle)) (not_le.mpr h)

theorem reach_eq {m a : ℤ} (h : m ≤ clock.reading a) (hbefore : ∀ x < a, clock.reading x < m) :
    clock.reach m = a := by
  refine le_antisymm (reach_le h) ?_
  by_contra hlt
  exact absurd (hbefore _ (not_le.mp hlt)) (not_lt.mpr (le_reading_reach clock m))

/-- A day that is shown at all starts when its midnight is reached. -/
theorem firstInstant_eq {d t : ℤ} (ht : dayOf (clock.reading t) = d) :
    clock.firstInstant d = clock.reach (d * dayMicros) ∧
      dayOf (clock.reading (clock.reach (d * dayMicros))) = d := by
  have hlow := le_reading_reach clock (d * dayMicros)
  have hbefore := @reading_lt clock (d * dayMicros) (clock.reach (d * dayMicros) - 1) (by omega)
  have hday : dayOf (clock.reading (clock.reach (d * dayMicros))) = d := by
    refine dayOf_eq_iff.mpr ⟨hlow, ?_⟩
    -- otherwise a change of the clock skips the whole day
    by_contra hge
    have hshown := dayOf_eq_iff.mp ht
    exact clock.skips (clock.reach (d * dayMicros)) _ (by omega) (by omega) t rfl
  refine ⟨IsLeast.csInf_eq ⟨hday, fun t' ht' => ?_⟩, hday⟩
  exact reach_le (dayOf_eq_iff.mp ht').1

/-- A civil time from `m` on is resolved to the instant that reaches `m` exactly if
it is shown there, or is `m` itself and the clock runs up to it. -/
theorem reach_le_resolve {m c : ℤ} (hc : m ≤ c) : clock.reach m ≤ clock.resolve c ∧
    (clock.resolve c = clock.reach m ↔ clock.reading (clock.reach m) = c ∨
      c = m ∧ clock.reading (clock.reach m - 1) = m - 1) := by
  have hbefore := @reading_lt clock m (clock.reach m - 1) (by omega)
  have hreach := le_reading_reach clock m
  rw [Clock.resolve]
  split
  · next hshown =>
    obtain ⟨t, ht⟩ := hshown
    have hfirst : clock.reading (clock.first {c}) = c :=
      @reading_first clock {c} c (fun _ => ge_of_eq) t ht
    have hle : clock.reach m ≤ clock.first {c} := reach_le (by rwa [hfirst])
    refine ⟨hle, fun heq => .inl (heq ▸ hfirst), ?_⟩
    have hleast : clock.reading (clock.reach m) = c → clock.first {c} = clock.reach m :=
      fun h => le_antisymm (csInf_le (bddBelow (fun _ => ge_of_eq)) h) hle
    rintro (h | ⟨rfl, hup⟩)
    · exact hleast h
    · refine hleast (le_antisymm ?_ hreach)
      by_contra hgt
      exact clock.skips (clock.reach c) c (by omega) (not_le.mp hgt) t ht
  · next hskipped =>
    have hafter := le_reading_reach clock (c + 1)
    have hchange := @reading_lt clock (c + 1) (clock.reach (c + 1) - 1) (by omega)
    have hne : clock.reading (clock.reach (c + 1) - 1) ≠ c := fun h => hskipped ⟨_, h⟩
    have hle : clock.reach m ≤ clock.reach (c + 1) := reach_le (by omega)
    refine ⟨by omega, fun heq => ?_, ?_⟩
    · have hsame : clock.reach (c + 1) = clock.reach m := by omega
      rw [hsame] at heq
      exact .inr (by omega)
    · rintro (h | ⟨rfl, hup⟩)
      · exact absurd ⟨_, h⟩ hskipped
      · have hsame : clock.reach (c + 1) = clock.reach c := by
          refine reach_eq ?_ fun x hx => (reading_lt hx).trans (by omega)
          have hnot : clock.reading (clock.reach c) ≠ c := fun h => hskipped ⟨_, h⟩
          omega
        rw [hsame, hup]
        omega

/-! ## A reading that is passed once -/

/-- The clock shows `c` at `t`, earlier readings before and later ones behind. -/
def Passes (clock : Clock) (c t : ℤ) : Prop :=
  clock.reading t = c ∧ ∀ t', t ≤ t' ↔ c ≤ clock.reading t'

theorem Passes.reach {c t : ℤ} (h : clock.Passes c t) : clock.reach c = t :=
  reach_eq h.1.ge fun x hx => by
    by_contra hge
    exact absurd ((h.2 x).mpr (not_lt.mp hge)) (not_le.mpr hx)

/-- A reading that is passed once resolves to its instant. -/
theorem Passes.resolve {c t : ℤ} (h : clock.Passes c t) : clock.resolve c = t := by
  have hresolve := (@reach_le_resolve clock c c le_rfl).2.mpr (.inl (by rw [h.reach, h.1]))
  rw [hresolve, h.reach]

/-! ## Two midnights -/

/-- The clock shows the same time first behind the readings `m` and `m'`, or it
shows `m` and runs up to `m'`. -/
def Matches (clock : Clock) (m m' : ℤ) : Prop :=
  clock.reading (clock.reach m') - m' = clock.reading (clock.reach m) - m ∨
    clock.reading (clock.reach m) = m ∧ clock.reading (clock.reach m' - 1) = m' - 1

/-- How the clock runs around `t` between the readings `m` and `m'`: it is not set
back over the second to show `t` again, nor over the first. -/
structure Keeps (clock : Clock) (m m' t : ℤ) : Prop where
  before : t < clock.reach m'
  after : ∀ x, clock.reach m ≤ x → x < clock.reach m' → m ≤ clock.reading x
  matched : clock.Matches m m'

/-- The time first shown behind `m` is shown behind `m'` when `m'` is reached, or later. -/
theorem reach_le_resolve_later (clock : Clock) (m m' : ℤ) :
    clock.reach m' ≤ clock.resolve (m' + (clock.reading (clock.reach m) - m)) ∧
      (clock.resolve (m' + (clock.reading (clock.reach m) - m)) = clock.reach m' ↔
        clock.Matches m m') := by
  have hlow := le_reading_reach clock m
  obtain ⟨hle, hiff⟩ := @reach_le_resolve clock m' (m' + (clock.reading (clock.reach m) - m))
    (by omega)
  refine ⟨hle, hiff.trans ?_⟩
  rw [Matches]
  omega

/-- It is enough that the clock passes both readings once. -/
theorem Passes.keeps {m m' a b t : ℤ} (h : clock.Passes m a) (h' : clock.Passes m' b)
    (ht : clock.reading t < m') : clock.Keeps m m' t where
  before := by
    rw [h'.reach]
    by_contra hge
    exact absurd ((h'.2 t).mp (not_lt.mp hge)) (not_le.mpr ht)
  after x hx _ := (h.2 x).mp (h.reach ▸ hx)
  matched := by
    rw [Matches, h.reach, h'.reach, h.1, h'.1]
    exact .inl (by omega)

end Clock

/-- A calendar over the days: the first day of the unit of a day, and the day one
unit later.  Units are blocks of days. -/
structure Calendar (υ : Type) where
  first : υ → ℤ → ℤ
  later : υ → ℤ → ℤ
  block : ∀ u d d', first u d' = first u d ↔ first u d ≤ d' ∧ d' < later u (first u d)
  first_later : ∀ u d, first u (later u (first u d)) = later u (first u d)

/-! ## The Gregorian calendar

Days are counted from 1970-01-01, months from January of the year zero. -/

section Index

variable {f : ℤ → ℤ}

/-- The last index of a growing sequence up to `d`. -/
noncomputable def index (f : ℤ → ℤ) (d : ℤ) : ℤ := sSup {m | f m ≤ d}

theorem add_le_of_growing (hf : ∀ m, f m + 1 ≤ f (m + 1)) (m : ℤ) (n : ℕ) :
    f m + n ≤ f (m + n) := by
  induction n with
  | zero => simp
  | succ n ih =>
    have hstep := hf (m + n)
    push_cast
    rw [← add_assoc m]
    omega

theorem growing_le (hf : ∀ m, f m + 1 ≤ f (m + 1)) {m m' : ℤ} (h : m ≤ m') :
    f m + (m' - m) ≤ f m' := by
  have hadd := add_le_of_growing hf m (m' - m).toNat
  rw [Int.toNat_of_nonneg (by omega), add_sub_cancel] at hadd
  exact hadd

/-- The block of a growing sequence that a number lies in. -/
theorem index_spec (hf : ∀ m, f m + 1 ≤ f (m + 1)) (d : ℤ) :
    f (index f d) ≤ d ∧ d < f (index f d + 1) := by
  have hbdd : BddAbove {m | f m ≤ d} := by
    refine ⟨max 0 (d - f 0), fun m hm => ?_⟩
    rcases le_total 0 m with hpos | hneg
    · have hle := growing_le hf hpos
      have hm : f m ≤ d := hm
      omega
    · omega
  have hne : {m | f m ≤ d}.Nonempty := by
    refine ⟨min 0 (d - f 0), ?_⟩
    have hle := growing_le hf (min_le_left 0 (d - f 0))
    show f (min 0 (d - f 0)) ≤ d
    omega
  refine ⟨Int.csSup_mem hne hbdd, ?_⟩
  by_contra hge
  have hle : index f d + 1 ≤ index f d := le_csSup hbdd (not_lt.mp hge)
  omega

theorem index_eq_iff (hf : ∀ m, f m + 1 ≤ f (m + 1)) {d m : ℤ} :
    index f d = m ↔ f m ≤ d ∧ d < f (m + 1) := by
  have hspec := index_spec hf d
  constructor
  · rintro rfl
    exact hspec
  · rintro ⟨hlow, hhigh⟩
    rcases lt_trichotomy (index f d) m with hlt | heq | hgt
    · have hle := growing_le hf (show index f d + 1 ≤ m by omega)
      omega
    · exact heq
    · have hle := growing_le hf (show m + 1 ≤ index f d by omega)
      omega

end Index

/-- The leap days before a year. -/
def leapDays (y : ℤ) : ℤ := (y + 3) / 4 - (y + 99) / 100 + (y + 399) / 400

/-- The days of the year before a month. -/
def daysBefore (month leap : ℤ) : ℤ :=
  if month = 0 then 0 else if month = 1 then 31
  else leap + if month = 2 then 59 else if month = 3 then 90 else if month = 4 then 120
    else if month = 5 then 151 else if month = 6 then 181 else if month = 7 then 212
    else if month = 8 then 243 else if month = 9 then 273 else if month = 10 then 304 else 334

/-- The day on which a month starts, counted from the epoch. -/
def monthStart (m : ℤ) : ℤ :=
  365 * (m / 12) + leapDays (m / 12) - 719528 +
    daysBefore (m % 12) (leapDays (m / 12 + 1) - leapDays (m / 12))

example : monthStart (12 * 1970) = 0 ∧ monthStart (12 * 2024 + 2) = 19783 := by decide

theorem leapDays_growing (y : ℤ) :
    leapDays (y + 1) - leapDays y = 0 ∨ leapDays (y + 1) - leapDays y = 1 := by
  simp only [leapDays]
  omega

theorem daysBefore_growing {month leap : ℤ} (hlow : 0 ≤ month) (hhigh : month ≤ 10)
    (hleap : leap = 0 ∨ leap = 1) : daysBefore month leap + 28 ≤ daysBefore (month + 1) leap := by
  rcases hleap with rfl | rfl
  · interval_cases month <;> decide
  · interval_cases month <;> decide

/-- A month has at least 28 days. -/
theorem monthStart_growing (m : ℤ) : monthStart m + 28 ≤ monthStart (m + 1) := by
  have hleap := leapDays_growing (m / 12)
  simp only [monthStart]
  rcases (by omega : (m + 1) / 12 = m / 12 ∧ (m + 1) % 12 = m % 12 + 1 ∧ m % 12 ≤ 10 ∨
    (m + 1) / 12 = m / 12 + 1 ∧ (m + 1) % 12 = 0 ∧ m % 12 = 11) with
    ⟨hdiv, hmod, hle⟩ | ⟨hdiv, hmod, hlast⟩
  · have hstep := daysBefore_growing (by omega) hle hleap
    rw [hdiv, hmod]
    omega
  · have hjanuary : ∀ leap, daysBefore 0 leap = 0 := fun _ => rfl
    have hdecember : ∀ leap, daysBefore 11 leap = leap + 334 := fun _ => rfl
    rw [hdiv, hmod, hlast, hjanuary, hdecember]
    omega

/-- The month of a day. -/
noncomputable def monthOf (d : ℤ) : ℤ := index monthStart d

theorem monthStart_step (m : ℤ) : monthStart m + 1 ≤ monthStart (m + 1) := by
  have hgrows := monthStart_growing m
  omega

theorem monthStart_le_iff {d m : ℤ} : monthStart m ≤ d ↔ m ≤ monthOf d := by
  have hspec := index_spec monthStart_step d
  rw [← monthOf] at hspec
  constructor
  · intro hle
    by_contra hlt
    have hgrows := growing_le monthStart_step (show monthOf d + 1 ≤ m by omega)
    omega
  · intro hle
    have hgrows := growing_le monthStart_step hle
    omega

/-- A month starts on a day of its own. -/
theorem monthOf_monthStart (m : ℤ) : monthOf (monthStart m) = m := by
  have hgrows := monthStart_growing m
  exact (index_eq_iff monthStart_step).mpr ⟨le_rfl, by omega⟩

theorem monthStart_inj {m m' : ℤ} : monthStart m = monthStart m' ↔ m = m' := by
  refine ⟨fun h => ?_, congrArg monthStart⟩
  rw [← monthOf_monthStart m, h, monthOf_monthStart]

/-- The same day of the month `k` months later, or the last day of that month. -/
noncomputable def monthsLater (k d : ℤ) : ℤ :=
  min (monthStart (monthOf d + k) + (d - monthStart (monthOf d)))
    (monthStart (monthOf d + k + 1) - 1)

theorem monthsLater_monthStart (k m : ℤ) : monthsLater k (monthStart m) = monthStart (m + k) := by
  have hgrows := monthStart_growing (m + k)
  rw [monthsLater, monthOf_monthStart]
  omega

/-- The first month of the block of `k` months around `m`, counted from the year zero. -/
def firstMonth (k m : ℤ) : ℤ := m / k * k

theorem first_monthsLater {k : ℤ} (hk : 0 < k) (m : ℤ) :
    monthStart (firstMonth k (monthOf (monthsLater k (monthStart (firstMonth k m))))) =
      monthsLater k (monthStart (firstMonth k m)) := by
  have hnext : firstMonth k m + k = (m / k + 1) * k := by rw [firstMonth, Int.add_mul, Int.one_mul]
  rw [monthsLater_monthStart, monthOf_monthStart, hnext, firstMonth,
    Int.mul_ediv_cancel _ hk.ne']

/-- The days of a block of `k` months are an interval. -/
theorem month_block {k : ℤ} (hk : 0 < k) (d d' : ℤ) :
    monthStart (firstMonth k (monthOf d')) = monthStart (firstMonth k (monthOf d)) ↔
      monthStart (firstMonth k (monthOf d)) ≤ d' ∧
        d' < monthsLater k (monthStart (firstMonth k (monthOf d))) := by
  rw [monthsLater_monthStart, monthStart_inj, monthStart_le_iff, ← not_le, monthStart_le_iff,
    firstMonth, firstMonth]
  have hdown := Int.ediv_mul_le (monthOf d') hk.ne'
  have hup := Int.lt_ediv_add_one_mul_self (monthOf d') hk
  rw [Int.add_mul, Int.one_mul] at hup
  constructor
  · intro heq
    omega
  · rintro ⟨hlow, hhigh⟩
    congr 1
    apply le_antisymm
    · rw [← Int.lt_add_one_iff, Int.ediv_lt_iff_lt_mul hk, Int.add_mul, Int.one_mul]
      omega
    · rw [Int.le_ediv_iff_mul_le hk]
      omega

end CivilClock
