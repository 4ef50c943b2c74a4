import Ftwdb.Lib.CivilClock
import Ftwdb.Store.Tiling

/-!
# Calendar buckets

`calendar_bucket_bounds` over a time zone library of which only the documented
behaviour is assumed: the start of a day is its first instant, the first day of
a month or year keeps the clock time, and so does the addition of one unit.
Civil times are resolved in the compatible way.

A bucket starts when the clock reaches the midnight of its unit and ends when
the clock shows the same time one unit later.  If a change of the clock skips
the midnight a unit starts with, that time is not midnight, and the bucket
reaches into the next unit.  If the clock is set back over that midnight, the
unit before ends too early.
-/

namespace Ftwdb

open Check CivilClock Signed

/-! ## The library -/

/-- The calendar of the library, in which a unit of one day is that day. -/
structure CivilCalendar extends Calendar CalendarUnit where
  first_day : ∀ d, first .day d = d

theorem CivilCalendar.later_day (calendar : CivilCalendar) (d : ℤ) :
    calendar.later .day d = d + 1 := by
  have hblock := calendar.block .day d
  simp only [calendar.first_day] at hblock
  have hself := (hblock d).mp rfl
  have hnext := hblock (d + 1)
  omega

theorem day_block (d d' : ℤ) : d' = d ↔ d ≤ d' ∧ d' < d + 1 := by omega

theorem twelve_pos : (0 : ℤ) < 12 := by decide

/-- Days, months and years. -/
noncomputable def CivilCalendar.gregorian : CivilCalendar where
  first := fun unit d =>
    match unit with
    | .day => d
    | .month => monthStart (firstMonth 1 (monthOf d))
    | .year => monthStart (firstMonth 12 (monthOf d))
  later := fun unit d =>
    match unit with
    | .day => d + 1
    | .month => monthsLater 1 d
    | .year => monthsLater 12 d
  block := by
    intro unit d d'
    cases unit with
    | day => exact day_block d d'
    | month => exact month_block Int.one_pos d d'
    | year => exact month_block twelve_pos d d'
  first_later := by
    intro unit d
    cases unit with
    | day => rfl
    | month => exact first_monthsLater Int.one_pos _
    | year => exact first_monthsLater twelve_pos _
  first_day := fun _ => rfl

section Units

variable (calendar : CivilCalendar) (clock : Clock) (unit : CalendarUnit)

/-- The unit of an instant, by its first day. -/
def unitOf (t : ℤ) : ℤ := calendar.first unit (dayOf (clock.reading t))

/-- The midnight a unit starts with, given by its first day. -/
def midnight (d : ℤ) : ℤ := d * dayMicros

/-- The midnight one unit later. -/
def nextMidnight (d : ℤ) : ℤ := midnight (calendar.later unit d)

/-- The instant with the clock time of `t` on the first day of its unit. -/
noncomputable def onFirstDay (t : ℤ) : ℤ :=
  clock.resolve (midnight (unitOf calendar clock unit t) + timeOfDay (clock.reading t))

/-- The instant with the clock time of `t` one unit later. -/
noncomputable def oneLater (t : ℤ) : ℤ :=
  clock.resolve (nextMidnight calendar unit (dayOf (clock.reading t)) + timeOfDay (clock.reading t))

end Units

section Library

variable [Jiff]

/-- The library takes the instant `x` in the zone and represents it by `z`. -/
def IsAt (zone : String) (z : Jiff.Zoned) (x : ℤ) : Prop :=
  ∃ t : Int64, t.toInt = x ∧ Jiff.inTz t zone = some z

/-- What the library documents of its calls in a zone with the given clock.  A call
fails exactly if it would return an instant the library does not take. -/
structure Jiff.Laws (zone : String) (clock : Clock) (calendar : CivilCalendar) : Prop where
  asMicrosecond : ∀ {z x}, IsAt zone z x → (Jiff.asMicrosecond z).toInt = x
  /-- The instants the library takes are an interval. -/
  between : ∀ {z z' x x' y}, IsAt zone z x → IsAt zone z' x' → x ≤ y → y ≤ x' →
    ∃ z'', IsAt zone z'' y
  startOfDay : ∀ {z z' x}, IsAt zone z x →
    (Jiff.startOfDay z = some z' ↔ IsAt zone z' (clock.firstInstant (dayOf (clock.reading x))))
  firstOfMonth : ∀ {z z' x}, IsAt zone z x →
    (Jiff.firstOfMonth z = some z' ↔ IsAt zone z' (onFirstDay calendar clock .month x))
  firstOfYear : ∀ {z z' x}, IsAt zone z x →
    (Jiff.firstOfYear z = some z' ↔ IsAt zone z' (onFirstDay calendar clock .year x))
  addUnit : ∀ {z z' x unit}, IsAt zone z x →
    (Jiff.addUnit unit z = some z' ↔ IsAt zone z' (oneLater calendar clock unit x))

end Library

/-! ## The bounds of a bucket -/

section Bounds

variable {calendar : CivilCalendar} {clock : Clock} {unit : CalendarUnit} {zone : String}

/-- The clock time of an instant, on the first day of its unit, is on that day and
does not lie behind the instant. -/
def LandsOnFirstDay (calendar : CivilCalendar) (clock : Clock) (unit : CalendarUnit) : Prop :=
  ∀ t, dayOf (clock.reading (onFirstDay calendar clock unit t)) = unitOf calendar clock unit t ∧
    onFirstDay calendar clock unit t ≤ t

theorem midnight_add_timeOfDay (c : ℤ) : midnight (dayOf c) + timeOfDay c = c := by
  rw [midnight, dayOf, timeOfDay, mul_comm]
  exact Int.mul_ediv_add_emod c dayMicros

/-- A day is its own first day, so its clock times are already there. -/
theorem landsOnFirstDay_day : LandsOnFirstDay calendar clock .day := by
  intro t
  have hself : midnight (unitOf calendar clock .day t) + timeOfDay (clock.reading t) =
      clock.reading t := by
    rw [unitOf, calendar.first_day, midnight_add_timeOfDay]
  rw [onFirstDay, hself, Clock.resolve, if_pos ⟨t, rfl⟩, unitOf, calendar.first_day]
  have hshown := @Clock.reading_first clock {clock.reading t} _ (fun _ => ge_of_eq) t rfl
  refine ⟨by rw [hshown], csInf_le (Clock.bddBelow (fun _ => ge_of_eq)) rfl⟩

/-- An instant is in the unit of `t` if it shows a time between the two midnights. -/
theorem unitOf_eq_iff {t t' : ℤ} :
    unitOf calendar clock unit t' = unitOf calendar clock unit t ↔
      midnight (unitOf calendar clock unit t) ≤ clock.reading t' ∧
        clock.reading t' < nextMidnight calendar unit (unitOf calendar clock unit t) := by
  have hday := dayOf_eq_iff.mp (Eq.refl (dayOf (clock.reading t')))
  rw [unitOf, unitOf, calendar.block, nextMidnight, midnight, midnight]
  rw [dayMicros] at hday ⊢
  omega

theorem midnight_lt_next {t : ℤ} : midnight (unitOf calendar clock unit t) <
    nextMidnight calendar unit (unitOf calendar clock unit t) := by
  have hself := unitOf_eq_iff.mp (Eq.refl (unitOf calendar clock unit t))
  omega

theorem first_first (d : ℤ) :
    calendar.first unit (calendar.first unit d) = calendar.first unit d := by
  have hself := (calendar.block unit d d).mp rfl
  exact (calendar.block unit d _).mpr ⟨le_rfl, by omega⟩

/-- The first day of the unit of `t` starts when its midnight is reached. -/
theorem LandsOnFirstDay.firstInstant (hlands : LandsOnFirstDay calendar clock unit) (t : ℤ) :
    clock.firstInstant (unitOf calendar clock unit t) =
        clock.reach (midnight (unitOf calendar clock unit t)) ∧
      dayOf (clock.reading (clock.reach (midnight (unitOf calendar clock unit t)))) =
        unitOf calendar clock unit t :=
  Clock.firstInstant_eq (hlands t).1

/-- The instant at which the bucket of `t` ends. -/
noncomputable def bucketEnd (calendar : CivilCalendar) (clock : Clock) (unit : CalendarUnit)
    (t : ℤ) : ℤ :=
  oneLater calendar clock unit (clock.reach (midnight (unitOf calendar clock unit t)))

theorem LandsOnFirstDay.bucketEnd_eq (hlands : LandsOnFirstDay calendar clock unit) (t : ℤ) :
    bucketEnd calendar clock unit t =
      clock.resolve (nextMidnight calendar unit (unitOf calendar clock unit t) +
        (clock.reading (clock.reach (midnight (unitOf calendar clock unit t))) -
          midnight (unitOf calendar clock unit t))) := by
  have hday := (hlands.firstInstant t).2
  have htime := midnight_add_timeOfDay
    (clock.reading (clock.reach (midnight (unitOf calendar clock unit t))))
  rw [bucketEnd, oneLater]
  rw [hday] at htime ⊢
  congr 2
  omega

variable [Jiff]

variable {z : Jiff.Zoned} {t s e : Int64}

theorem startOfUnit_eq_some (hlaws : Jiff.Laws zone clock calendar)
    (hlands : LandsOnFirstDay calendar clock unit) {z' : Jiff.Zoned} {t : ℤ} (hz : IsAt zone z t) :
    startOfUnit unit z = some z' →
      IsAt zone z' (clock.firstInstant (unitOf calendar clock unit t)) := by
  have hday := (hlands t).1
  cases unit with
  | day =>
    intro h
    rw [unitOf, calendar.first_day]
    exact (hlaws.startOfDay hz).mp h
  | month =>
    intro h
    obtain ⟨z₁, hfirst, hstart⟩ := Option.bind_eq_some_iff.mp h
    exact hday ▸ (hlaws.startOfDay ((hlaws.firstOfMonth hz).mp hfirst)).mp hstart
  | year =>
    intro h
    obtain ⟨z₁, hfirst, hstart⟩ := Option.bind_eq_some_iff.mp h
    exact hday ▸ (hlaws.startOfDay ((hlaws.firstOfYear hz).mp hfirst)).mp hstart

theorem startOfUnit_of_isAt (hlaws : Jiff.Laws zone clock calendar)
    (hlands : LandsOnFirstDay calendar clock unit) {z₁ z' : Jiff.Zoned} {t : ℤ}
    (hz : IsAt zone z t) (hfirst : IsAt zone z₁ (onFirstDay calendar clock unit t))
    (hstart : IsAt zone z' (clock.firstInstant (unitOf calendar clock unit t))) :
    startOfUnit unit z = some z' := by
  have hday := (hlands t).1
  cases unit with
  | day =>
    rw [unitOf, calendar.first_day] at hstart
    exact (hlaws.startOfDay hz).mpr hstart
  | month =>
    rw [← hday] at hstart
    exact Option.bind_eq_some_iff.mpr
      ⟨z₁, (hlaws.firstOfMonth hz).mpr hfirst, (hlaws.startOfDay hfirst).mpr hstart⟩
  | year =>
    rw [← hday] at hstart
    exact Option.bind_eq_some_iff.mpr
      ⟨z₁, (hlaws.firstOfYear hz).mpr hfirst, (hlaws.startOfDay hfirst).mpr hstart⟩

theorem calendarBucketBounds_eq_ok :
    calendarBucketBounds t unit zone = .ok (s, e) ↔
      ∃ z zs ze, Jiff.inTz t zone = some z ∧ startOfUnit unit z = some zs ∧
        Jiff.addUnit unit zs = some ze ∧ Jiff.asMicrosecond zs = s ∧ Jiff.asMicrosecond ze = e := by
  have helim : ∀ {o : Option (Int64 × Int64)} {x : Int64 × Int64},
      o.elim (Except.error calendarError) Except.ok = .ok x ↔ o = some x := by
    intro o x
    cases o <;> simp
  rw [calendarBucketBounds, helim]
  simp [Option.bind_eq_some_iff]

/-- What a bucket is: the instants from the one that reaches the midnight of the unit
up to the one that shows the same clock time one unit later. -/
theorem bucket_spec (hlaws : Jiff.Laws zone clock calendar)
    (hlands : LandsOnFirstDay calendar clock unit)
    (h : calendarBucketBounds t unit zone = .ok (s, e)) :
    s.toInt = clock.reach (midnight (unitOf calendar clock unit t.toInt)) ∧
      e.toInt = bucketEnd calendar clock unit t.toInt ∧
      (∃ z, IsAt zone z s.toInt) ∧ ∃ z, IsAt zone z e.toInt := by
  obtain ⟨z, zs, ze, hz, hstart, hstop, rfl, rfl⟩ := calendarBucketBounds_eq_ok.mp h
  have hs := startOfUnit_eq_some hlaws hlands ⟨t, rfl, hz⟩ hstart
  rw [(hlands.firstInstant _).1] at hs
  have he := (hlaws.addUnit hs).mp hstop
  rw [hlaws.asMicrosecond hs, hlaws.asMicrosecond he]
  exact ⟨rfl, rfl, ⟨zs, hs⟩, ze, he⟩

theorem bucket_of_isAt (hlaws : Jiff.Laws zone clock calendar)
    (hlands : LandsOnFirstDay calendar clock unit) {zs ze : Jiff.Zoned} (hz : IsAt zone z t.toInt)
    (hzs : IsAt zone zs s.toInt) (hze : IsAt zone ze e.toInt)
    (hs : s.toInt = clock.reach (midnight (unitOf calendar clock unit t.toInt)))
    (he : e.toInt = bucketEnd calendar clock unit t.toInt) :
    calendarBucketBounds t unit zone = .ok (s, e) := by
  obtain ⟨hfirst, hbehind⟩ := hlands t.toInt
  have hreach : s.toInt ≤ onFirstDay calendar clock unit t.toInt := by
    rw [hs]
    exact Clock.reach_le (dayOf_eq_iff.mp hfirst).1
  obtain ⟨z₁, hz₁⟩ := hlaws.between hzs hz hreach hbehind
  obtain ⟨t', ht', hin⟩ := hz
  obtain rfl := Int64.toInt_inj.mp ht'
  have hstart : IsAt zone zs (clock.firstInstant (unitOf calendar clock unit t'.toInt)) := by
    rwa [(hlands.firstInstant _).1, ← hs]
  refine calendarBucketBounds_eq_ok.mpr ⟨z, zs, ze, hin,
    startOfUnit_of_isAt hlaws hlands ⟨t', rfl, hin⟩ hz₁ hstart, ?_, ?_, ?_⟩
  · refine (hlaws.addUnit hzs).mpr ?_
    rw [hs, ← bucketEnd, ← he]
    exact hze
  · exact Int64.toInt_inj.mp (hlaws.asMicrosecond hzs)
  · exact Int64.toInt_inj.mp (hlaws.asMicrosecond hze)

/-! ## The two midnights of a unit -/

/-- A bucket contains its instant and is the bucket of all its instants exactly if the
clock keeps the two midnights of the unit. -/
theorem tiles_iff_keeps (hlaws : Jiff.Laws zone clock calendar)
    (hlands : LandsOnFirstDay calendar clock unit)
    (h : calendarBucketBounds t unit zone = .ok (s, e)) :
    (s ≤ t ∧ t < e ∧ ∀ t', s ≤ t' → t' < e → calendarBucketBounds t' unit zone = .ok (s, e)) ↔
      clock.Keeps (midnight (unitOf calendar clock unit t.toInt))
        (nextMidnight calendar unit (unitOf calendar clock unit t.toInt)) t.toInt := by
  obtain ⟨hs, he, ⟨zs, hzs⟩, ze, hze⟩ := bucket_spec hlaws hlands h
  obtain ⟨hle, hiff⟩ := Clock.reach_le_resolve_later clock
    (midnight (unitOf calendar clock unit t.toInt))
    (nextMidnight calendar unit (unitOf calendar clock unit t.toInt))
  rw [← hlands.bucketEnd_eq, ← he] at hle hiff
  have hday := (hlands.firstInstant t.toInt).2
  have hself := unitOf_eq_iff.mp (Eq.refl (unitOf calendar clock unit t.toInt))
  rw [Int64.le_iff_toInt_le, Int64.lt_iff_toInt_lt]
  constructor
  · rintro ⟨hst, hte, hsame⟩
    -- whatever lies in the bucket starts in the same unit
    have hunit : ∀ x, s.toInt ≤ x → x < e.toInt →
        unitOf calendar clock unit x = unitOf calendar clock unit t.toInt := by
      intro x hsx hxe
      obtain ⟨zx, x', rfl, -⟩ := hlaws.between hzs hze hsx hxe.le
      obtain ⟨hs', -⟩ := bucket_spec hlaws hlands
        (hsame x' (Int64.le_iff_toInt_le.mpr hsx) (Int64.lt_iff_toInt_lt.mpr hxe))
      rw [← (hlands.firstInstant x'.toInt).2, ← hs', hs, hday]
    have hstop : e.toInt = clock.reach (nextMidnight calendar unit
        (unitOf calendar clock unit t.toInt)) := by
      refine le_antisymm ?_ hle
      by_contra hlt
      have hnext := Clock.le_reading_reach clock (nextMidnight calendar unit
        (unitOf calendar clock unit t.toInt))
      have hmidnights := @midnight_lt_next calendar clock unit t.toInt
      have hinside := unitOf_eq_iff.mp (hunit _ (by
        rw [hs]
        exact Clock.reach_le (by omega)) (not_le.mp hlt))
      omega
    refine ⟨hstop ▸ hte, fun x hsx hxe => ?_, hiff.mp hstop⟩
    exact (unitOf_eq_iff.mp (hunit x (by rwa [hs]) (by rwa [hstop]))).1
  · rintro ⟨hbefore, hafter, hmatched⟩
    have hstop := hiff.mpr hmatched
    refine ⟨hs ▸ Clock.reach_le hself.1, hstop ▸ hbefore, fun t' hst' hte' => ?_⟩
    rw [Int64.le_iff_toInt_le] at hst'
    rw [Int64.lt_iff_toInt_lt] at hte'
    have hunit : unitOf calendar clock unit t'.toInt = unitOf calendar clock unit t.toInt := by
      rw [hs] at hst'
      rw [hstop] at hte'
      exact unitOf_eq_iff.mpr ⟨hafter _ hst' hte', Clock.reading_lt hte'⟩
    obtain ⟨z, hz⟩ := hlaws.between hzs hze hst' hte'.le
    refine bucket_of_isAt hlaws hlands hz hzs hze ?_ ?_
    · rw [hunit, hs]
    · rw [bucketEnd, hunit]
      exact he

end Bounds

variable {zone : String} {clock : Clock} {calendar : CivilCalendar}

/-- The bucket of a day, by its two ends. -/
theorem Jiff.Laws.bucket_day [Jiff] (hlaws : Jiff.Laws zone clock calendar) {t s e : Int64}
    (ht : ∃ z, IsAt zone z t.toInt) (hst : ∃ z, IsAt zone z s.toInt)
    (het : ∃ z, IsAt zone z e.toInt)
    (hs : clock.reach (midnight (dayOf (clock.reading t.toInt))) = s.toInt)
    (he : oneLater calendar clock .day s.toInt = e.toInt) :
    calendarBucketBounds t .day zone = .ok (s, e) := by
  obtain ⟨⟨z, hz⟩, ⟨zs, hzs⟩, ze, hze⟩ := And.intro ht (And.intro hst het)
  refine bucket_of_isAt hlaws landsOnFirstDay_day hz hzs hze ?_ ?_
  · rw [unitOf, calendar.first_day, hs]
  · rw [bucketEnd, unitOf, calendar.first_day, hs, he]

/-! ## A library that keeps the laws -/

/-- An instant as a timestamp, if it is one. -/
def timestampAt (x : ℤ) : Option Int64 :=
  if Int64.minValue.toInt ≤ x ∧ x ≤ Int64.maxValue.toInt then some (Int64.ofInt x) else none

theorem timestampAt_eq_some {x : ℤ} {t : Int64} : timestampAt x = some t ↔ t.toInt = x := by
  rw [timestampAt]
  constructor
  · intro h
    split at h
    · next hin =>
      cases h
      exact Int64.toInt_ofInt_of_le hin.1 (Int.lt_add_one_of_le hin.2)
    · nomatch h
  · rintro rfl
    rw [if_pos ⟨Int64.minValue_le_toInt t, Int64.toInt_le t⟩, Int64.ofInt_toInt]

/-- A library with one clock for every zone that takes every timestamp. -/
@[reducible] noncomputable def Jiff.ofClock (calendar : CivilCalendar) (clock : Clock) : Jiff where
  Zoned := Int64
  zoneExists := fun _ => true
  inTz := fun t _ => some t
  startOfDay := fun z => timestampAt (clock.firstInstant (dayOf (clock.reading z.toInt)))
  firstOfMonth := fun z => timestampAt (onFirstDay calendar clock .month z.toInt)
  firstOfYear := fun z => timestampAt (onFirstDay calendar clock .year z.toInt)
  addUnit := fun unit z => timestampAt (oneLater calendar clock unit z.toInt)
  asMicrosecond := id

theorem Jiff.isAt_ofClock {z : Int64} {x : ℤ} :
    @IsAt (Jiff.ofClock calendar clock) zone z x ↔ z.toInt = x :=
  ⟨fun ⟨_, ht, hz⟩ => Option.some.inj hz ▸ ht, fun h => ⟨z, h, rfl⟩⟩

theorem Jiff.takes_ofClock (t : Int64) :
    ∃ z, @IsAt (Jiff.ofClock calendar clock) zone z t.toInt := ⟨t, Jiff.isAt_ofClock.mpr rfl⟩

theorem Jiff.laws_ofClock (calendar : CivilCalendar) (clock : Clock) (zone : String) :
    @Jiff.Laws (Jiff.ofClock calendar clock) zone clock calendar := by
  let _ := Jiff.ofClock calendar clock
  have hcall : ∀ (f : ℤ → ℤ) {z z' : Int64} {x : ℤ}, IsAt zone z x →
      (timestampAt (f z.toInt) = some z' ↔ IsAt zone z' (f x)) := by
    intro f z z' x hz
    rw [timestampAt_eq_some, isAt_ofClock.mp hz]
    exact isAt_ofClock.symm
  exact {
    asMicrosecond := isAt_ofClock.mp
    between := by
      intro z z' x x' y hz hz' hxy hyx
      have hx := Int64.minValue_le_toInt z
      have hx' := Int64.toInt_le z'
      rw [isAt_ofClock.mp hz] at hx
      rw [isAt_ofClock.mp hz'] at hx'
      have hy : timestampAt y = some (Int64.ofInt y) := if_pos ⟨hx.trans hxy, hyx.trans hx'⟩
      exact ⟨_, isAt_ofClock.mpr (timestampAt_eq_some.mp hy)⟩
    startOfDay := hcall fun x => clock.firstInstant (dayOf (clock.reading x))
    firstOfMonth := hcall (onFirstDay calendar clock .month)
    firstOfYear := hcall (onFirstDay calendar clock .year)
    addUnit := hcall (oneLater calendar clock _) }

/-- Universal time. -/
def utc : Clock where
  reading := id
  near := ⟨0, fun t => by simp⟩
  skips := fun t c hbefore hbehind => by
    simp only [id] at hbefore hbehind
    omega

theorem utc_passes (c : ℤ) : utc.Passes c c := ⟨rfl, fun _ => Iff.rfl⟩

theorem utc_lands (calendar : CivilCalendar) (unit : CalendarUnit) :
    LandsOnFirstDay calendar utc unit := by
  intro t
  have htime := timeOfDay_bounds (utc.reading t)
  have hself := midnight_add_timeOfDay (utc.reading t)
  have hfirst := ((calendar.block unit _ (dayOf (utc.reading t))).mp rfl).1
  rw [onFirstDay, (utc_passes _).resolve]
  constructor
  · show dayOf (_ + _) = _
    rw [dayOf_eq_iff, Int.add_mul, Int.one_mul, midnight]
    omega
  · show _ ≤ utc.reading t
    rw [unitOf]
    simp only [midnight, dayMicros] at hself ⊢
    omega

/-- The clock of America/Sao_Paulo around the first day of summer time in 2018: at
midnight it is set ahead by an hour. -/
def saoPaulo : Clock where
  reading := fun t => if t < 1541300400000000 then t - 10800000000 else t - 7200000000
  near := ⟨10800000000, fun t => by
    rw [abs_le]
    split <;> omega⟩
  skips := fun t c hbefore hbehind t' => by
    split at hbefore <;> split at hbehind <;> split <;> omega

theorem saoPaulo_reading (t : ℤ) : saoPaulo.reading t =
    if t < 1541300400000000 then t - 10800000000 else t - 7200000000 := rfl

/-- From the change on the clock is two hours behind universal time. -/
theorem saoPaulo_passes {c : ℤ} (hc : 1541293200000000 ≤ c) :
    saoPaulo.Passes c (c + 7200000000) := by
  refine ⟨?_, fun t' => ?_⟩
  · rw [saoPaulo_reading, if_neg (by omega)]
    omega
  · rw [saoPaulo_reading]
    split <;> omega

/-- The midnight of 2018-11-04 is skipped. -/
theorem saoPaulo_reach : saoPaulo.reach (midnight 17839) = 1541300400000000 := by
  refine Clock.reach_eq (by decide) fun x hx => ?_
  rw [saoPaulo_reading, if_pos hx, midnight, dayMicros]
  omega

theorem saoPaulo_reach_before : saoPaulo.reach (midnight 17838) = 1541214000000000 := by
  refine Clock.reach_eq (by decide) fun x hx => ?_
  rw [saoPaulo_reading, if_pos (by omega), midnight, dayMicros]
  omega

/-- The day before the change keeps its midnights. -/
theorem saoPaulo_keeps : saoPaulo.Keeps (midnight 17838) (midnight 17839) 1541250000000000 where
  before := by
    rw [saoPaulo_reach]
    decide
  after x hx hx' := by
    rw [saoPaulo_reach_before] at hx
    rw [saoPaulo_reach] at hx'
    rw [saoPaulo_reading, if_pos hx', midnight, dayMicros]
    omega
  matched := by
    rw [Clock.Matches, saoPaulo_reach, saoPaulo_reach_before]
    exact .inr (by decide)

/-- Under the laws alone, the bucket of 2018-11-04 ends at one o'clock of the next day,
whose first hour has a bucket of its own. -/
theorem Jiff.Laws.overlap [Jiff] (hlaws : Jiff.Laws zone saoPaulo calendar) {z z' : Jiff.Zoned}
    (hz : IsAt zone z 1541300400000000) (hz' : IsAt zone z' 1541469600000000) :
    calendarBucketBounds 1541300400000000 .day zone = .ok (1541300400000000, 1541386800000000) ∧
      calendarBucketBounds 1541386799999999 .day zone =
        .ok (1541383200000000, 1541469600000000) := by
  have htakes : ∀ x : Int64, 1541300400000000 ≤ x.toInt → x.toInt ≤ 1541469600000000 →
      ∃ z, IsAt zone z x.toInt := fun x hlow hhigh => hlaws.between hz hz' hlow hhigh
  have hlater : ∀ {c x : ℤ}, 1541293200000000 ≤ c → saoPaulo.reading x = c →
      midnight (dayOf c + 1) + timeOfDay c = c + dayMicros →
      oneLater calendar saoPaulo .day x = c + dayMicros + 7200000000 := by
    intro c x hc hx hnext
    rw [oneLater, nextMidnight, calendar.later_day, hx, hnext]
    exact (saoPaulo_passes (by rw [dayMicros]; omega)).resolve
  constructor
  · exact hlaws.bucket_day (htakes _ (by decide) (by decide)) (htakes _ (by decide) (by decide))
      (htakes _ (by decide) (by decide)) saoPaulo_reach
      (@hlater 1541293200000000 _ (by decide) (by decide) (by decide))
  · exact hlaws.bucket_day (htakes _ (by decide) (by decide)) (htakes _ (by decide) (by decide))
      (htakes _ (by decide) (by decide)) (@saoPaulo_passes (midnight 17840) (by decide)).reach
      (@hlater 1541376000000000 _ (by decide) (by decide) (by decide))

end Ftwdb
