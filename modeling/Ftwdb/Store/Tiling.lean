import Mathlib.Algebra.Group.Prod
import Mathlib.Algebra.BigOperators.Group.List.Lemmas
import Ftwdb.Lib.Tally
import Ftwdb.Store.Statistics

/-!
# Buckets that tile the time line

The two loops of `build` fill one map.  Each of their rounds is an update of the
entry of one bucket, so the map is the tally of a list of updates.  If the
buckets of the rule tile the line, the updates of one bucket are its samples
followed by its parts of the held stretches, and what stands in the map is the
statistics of each bucket that has either.
-/

namespace Ftwdb

open Check List Signed StableSort Tally

/-! ## Tilings -/

/-- A bucket lies around its instant, and is the bucket of every instant in it. -/
structure Tiling (bounds : Int64 → Except Error (Int64 × Int64)) : Prop where
  around : ∀ {t s e}, bounds t = .ok (s, e) → s ≤ t ∧ t < e
  same : ∀ {t s e}, bounds t = .ok (s, e) → ∀ t', s ≤ t' → t' < e → bounds t' = .ok (s, e)

/-- The bounds of a bucket of the rule. -/
def Cell (bounds : Int64 → Except Error (Int64 × Int64)) (start stop : Int64) : Prop :=
  bounds start = .ok (start, stop)

namespace Tiling

variable {bounds : Int64 → Except Error (Int64 × Int64)} {s e s' e' t : Int64}

theorem cell (h : Tiling bounds) (ht : bounds t = .ok (s, e)) : Cell bounds s e :=
  h.same ht s (Std.le_refl s) (Std.lt_of_le_of_lt (h.around ht).1 (h.around ht).2)

theorem lt (h : Tiling bounds) (hc : Cell bounds s e) : s < e := (h.around hc).2

theorem bounds_eq (h : Tiling bounds) (hc : Cell bounds s e) (hs : s ≤ t) (he : t < e) :
    bounds t = .ok (s, e) := h.same hc t hs he

theorem stop_unique (hc : Cell bounds s e) (hc' : Cell bounds s e') : e = e' := by
  rw [Cell] at hc hc'
  rw [hc] at hc'
  injection hc' with hc'
  exact congrArg Prod.snd hc'

/-- The bucket of an instant is the one it lies in. -/
theorem start_eq_iff (h : Tiling bounds) (hc : Cell bounds s e) (ht : bounds t = .ok (s', e')) :
    s' = s ↔ s ≤ t ∧ t < e := by
  constructor
  · rintro rfl
    rw [stop_unique hc (h.cell ht)]
    exact h.around ht
  · rintro ⟨hs, he⟩
    have hbounds := h.bounds_eq hc hs he
    rw [ht] at hbounds
    injection hbounds with hbounds
    exact congrArg Prod.fst hbounds

/-- Two buckets are the same or apart. -/
theorem disjoint (h : Tiling bounds) (hc : Cell bounds s e) (hc' : Cell bounds s' e')
    (hne : s' ≠ s) : e.toInt ≤ s'.toInt ∨ e'.toInt ≤ s.toInt := by
  by_contra hboth
  have hlt := Int64.lt_iff_toInt_lt.mp (h.lt hc)
  have hlt' := Int64.lt_iff_toInt_lt.mp (h.lt hc')
  rcases le_total s.toInt s'.toInt with hle | hle
  · exact hne ((h.start_eq_iff hc hc').mpr
      ⟨Int64.le_iff_toInt_le.mpr hle, Int64.lt_iff_toInt_lt.mpr (by omega)⟩)
  · exact hne.symm ((h.start_eq_iff hc' hc).mpr
      ⟨Int64.le_iff_toInt_le.mpr hle, Int64.lt_iff_toInt_lt.mpr (by omega)⟩)

/-- A bucket ends where the next one starts. -/
theorem next (h : Tiling bounds) (ht : bounds t = .ok (s, e)) (he : bounds e = .ok (s', e')) :
    s' = e := by
  have hcell := h.cell ht
  have hcell' := h.cell he
  have haround := h.around he
  have hlt := Int64.lt_iff_toInt_lt.mp (h.lt hcell)
  rw [Int64.le_iff_toInt_le, Int64.lt_iff_toInt_lt] at haround
  rw [← Int64.toInt_inj]
  by_cases hs : s' = s
  · obtain rfl := hs
    obtain rfl := stop_unique hcell hcell'
    omega
  · have hapart := h.disjoint hcell hcell' hs
    omega

end Tiling

/-! ## Updates -/

/-- What one round of a loop does to a bucket. -/
inductive Change where
  | sample (s : Sample)
  | hold (value : ℚ) (duration : Int64)

/-- A bucket after a change. -/
def Change.apply (b : GaugeBucket) : Change → GaugeBucket
  | .sample s => b.addSample s
  | .hold value duration => b.addCoveredInterval value duration

/-- The start of a bucket, its end, and the change. -/
abbrev Update := Int64 × (Int64 × Change)

/-- `or_insert_with(GaugeBucket::empty)` and the change. -/
def Update.step (b : Option GaugeBucket) (u : Update) : GaugeBucket :=
  u.2.2.apply (b.getD (.empty u.1 u.2.1))

/-- What an update adds to a rollup: samples, and covered time. -/
def Update.weight (u : Update) : ℕ × ℤ :=
  match u.2.2 with
  | .sample _ => (1, 0)
  | .hold _ duration => (0, duration.toInt)

/-- Updates at buckets of the rule lead from one map to another.  They have the
weight together, and each bucket gets its part of them. -/
def Fills (bounds : Int64 → Except Error (Int64 × Int64)) (m m' : Buckets) (weight : ℕ × ℤ)
    (part : Int64 → Int64 → List Update) : Prop :=
  ∃ us, m' = tally Update.step m us ∧ (∀ u ∈ us, Cell bounds u.1 u.2.1) ∧
    (us.map Update.weight).sum = weight ∧ ∀ s e, Cell bounds s e → ofKey s us = part s e

namespace Fills

variable {bounds : Int64 → Except Error (Int64 × Int64)} {m m₁ m' : Buckets} {w w' : ℕ × ℤ}
  {part part' : Int64 → Int64 → List Update}

theorem refl : Fills bounds m m 0 fun _ _ => [] :=
  ⟨[], rfl, forall_mem_nil _, rfl, fun _ _ _ => rfl⟩

/-- One round of a loop, and the rounds behind it. -/
theorem cons {u : Update} (hu : Cell bounds u.1 u.2.1)
    (h : Fills bounds (m.insert u.1 (u.step m[u.1]?)) m' w part) :
    Fills bounds m m' (u.weight + w)
      fun s e => if u.1 = s then u :: part s e else part s e := by
  obtain ⟨us, hm', hcells, rfl, hof⟩ := h
  refine ⟨u :: us, hm', forall_mem_cons.mpr ⟨hu, hcells⟩, ?_, fun s e hcell => ?_⟩
  · rw [map_cons, sum_cons]
  · rw [ofKey_cons, hof s e hcell]

theorem trans (h : Fills bounds m m₁ w part) (h' : Fills bounds m₁ m' w' part') :
    Fills bounds m m' (w + w') fun s e => part s e ++ part' s e := by
  obtain ⟨us, rfl, hcells, rfl, hof⟩ := h
  obtain ⟨vs, rfl, hcells', rfl, hof'⟩ := h'
  refine ⟨us ++ vs, (tally_append ..).symm, forall_mem_append.mpr ⟨hcells, hcells'⟩, ?_,
    fun s e hcell => ?_⟩
  · rw [map_append, sum_append]
  · rw [ofKey_append, hof s e hcell, hof' s e hcell]

theorem congr (h : Fills bounds m m' w part) (hw : w = w')
    (hpart : ∀ s e, Cell bounds s e → part s e = part' s e) : Fills bounds m m' w' part' := by
  obtain ⟨us, hm', hcells, hweight, hof⟩ := h
  exact ⟨us, hm', hcells, hweight.trans hw,
    fun s e hcell => (hof s e hcell).trans (hpart s e hcell)⟩

end Fills

/-- The entry of a bucket behind its updates. -/
theorem foldl_step {us : List Update} {start stop : Int64} (hne : us ≠ [])
    (hus : ∀ u ∈ us, u.1 = start ∧ u.2.1 = stop) :
    us.foldl (fun b u => some (Update.step b u)) none =
      some ((us.map (·.2.2)).foldl Change.apply (.empty start stop)) := by
  have hsome : ∀ (us : List Update) (b : GaugeBucket),
      us.foldl (fun b u => some (Update.step b u)) (some b) =
        some ((us.map (·.2.2)).foldl Change.apply b) := by
    intro us
    induction us with
    | nil => exact fun _ => rfl
    | cons u us ih => exact fun b => ih _
  cases us with
  | nil => exact absurd rfl hne
  | cons u us =>
    obtain ⟨hstart, hstop⟩ := hus u (mem_cons_self ..)
    rw [foldl_cons, hsome, map_cons, foldl_cons]
    rw [Update.step, Option.getD_none, hstart, hstop]

/-! ## The loops -/

/-- The update of a sample. -/
def sampleUpdate (start stop : Int64) (p : Point) : Update := (start, stop, .sample p.sample)

theorem BucketRule.addSamples_bounds {rule : BucketRule} {ps : List Point} {m m' : Buckets}
    (h : rule.addSamples m ps = .ok m') :
    ∀ p ∈ ps, ∃ s e, rule.bounds p.validTime = .ok (s, e) := by
  induction ps generalizing m with
  | nil => exact fun p hp => nomatch hp
  | cons p ps ih =>
    obtain ⟨⟨s, e⟩, hbounds, hrest⟩ := bind_eq_ok.mp h
    exact forall_mem_cons.mpr ⟨⟨s, e, hbounds⟩, ih hrest⟩

/-- The part of the stretch from `a` to `b` inside a bucket, if there is one. -/
def stretchUpdates (value : ℚ) (a b start stop : Int64) : List Update :=
  if 0 < overlap a b start stop then
    [(start, stop, .hold value (Int64.ofInt (overlap a b start stop)))]
  else []

namespace BucketRule

variable {rule : BucketRule}

variable {m m' : Buckets} {value : ℚ} {start stop : Int64}

theorem addSamples_eq_ok (htiling : Tiling rule.bounds) {ps : List Point}
    (h : rule.addSamples m ps = .ok m') :
    Fills rule.bounds m m' (ps.length, 0) fun s e => (samplesIn ps s e).map (sampleUpdate s e) := by
  induction ps generalizing m with
  | nil =>
    cases h
    exact .refl
  | cons p ps ih =>
    obtain ⟨⟨s₀, e₀⟩, hbounds, hrest⟩ := bind_eq_ok.mp h
    have hcell₀ := htiling.cell hbounds
    refine (Fills.cons (u := sampleUpdate s₀ e₀ p) hcell₀ (ih hrest)).congr ?_ fun s e hcell => ?_
    · exact Prod.ext (Nat.add_comm ..) rfl
    · have hiff : s₀ = s ↔ inRange s e p = true := by
        rw [htiling.start_eq_iff hcell hbounds, inRange, decide_eq_true_eq]
      rw [samplesIn, samplesIn]
      split
      · next hs =>
        obtain rfl : s₀ = s := hs
        obtain rfl := Tiling.stop_unique hcell hcell₀
        rw [filter_cons_of_pos (hiff.mp rfl), map_cons]
      · next hs => rw [filter_cons_of_neg fun hin => hs (hiff.mpr hin)]

theorem stretchUpdates_of_le {a b : Int64} (h : min b.toInt stop.toInt ≤ max a.toInt start.toInt) :
    stretchUpdates value a b start stop = [] := by
  rw [stretchUpdates, if_neg]
  rw [overlap]
  omega

theorem checkedSub_of_elim {a b d : Int64} {error : Error}
    (h : (checkedSub a b).elim (Except.error error) Except.ok = .ok d) :
    d.toInt = a.toInt - b.toInt := by
  cases hsub : checkedSub a b with
  | none =>
    rw [hsub] at h
    cases h
  | some d' =>
    rw [hsub] at h
    injection h with h
    rw [← h, checkedSub_eq_some.mp hsub]

/-- The first part of a stretch, and what is left of it in every bucket. -/
theorem stretchUpdates_split (htiling : Tiling rule.bounds) {a b c s₀ e₀ duration : Int64}
    (hab : a < b) (hbounds : rule.bounds a = .ok (s₀, e₀)) (hc : c.toInt = min b.toInt e₀.toInt)
    (hduration : duration.toInt = c.toInt - a.toInt) {s e : Int64} (hcell : Cell rule.bounds s e) :
    (if s₀ = s then (s₀, e₀, .hold value duration) :: stretchUpdates value c b s e
      else stretchUpdates value c b s e) = stretchUpdates value a b s e := by
  have haround := htiling.around hbounds
  rw [Int64.lt_iff_toInt_lt] at hab
  rw [Int64.le_iff_toInt_le, Int64.lt_iff_toInt_lt] at haround
  have hcell₀ := htiling.cell hbounds
  split
  · next hs =>
    obtain rfl := hs
    obtain rfl := Tiling.stop_unique hcell hcell₀
    have hoverlap : overlap a b s₀ e = duration.toInt := by
      rw [overlap]
      omega
    rw [stretchUpdates_of_le (by omega), stretchUpdates, if_pos (by omega), hoverlap,
      Int64.ofInt_toInt]
  · next hs =>
    have hsame : overlap a b s e = overlap c b s e := by
      have hapart := htiling.disjoint hcell hcell₀ hs
      have hlt := Int64.lt_iff_toInt_lt.mp (htiling.lt hcell)
      rw [overlap, overlap]
      omega
    rw [stretchUpdates, stretchUpdates, hsame]

/-- One hold is split at the ends of the buckets.  The induction is on the fuel, and
the part that is left starts where the bucket of the first part ends. -/
theorem addInterval_eq_ok (htiling : Tiling rule.bounds) {fuel : Nat}
    (h : rule.addInterval value stop fuel start m = .ok m') :
    Fills rule.bounds m m' (0, max 0 (stop.toInt - start.toInt))
      (stretchUpdates value start stop) := by
  have hdone : ∀ {start : Int64} {m : Buckets}, ¬ start < stop →
      Fills rule.bounds m m (0, max 0 (stop.toInt - start.toInt))
        (stretchUpdates value start stop) := by
    intro start m hge
    rw [Int64.lt_iff_toInt_lt] at hge
    refine Fills.refl.congr ?_ fun s e _ => ?_
    · rw [max_eq_left (by omega)]
      rfl
    · rw [stretchUpdates_of_le (by omega)]
  induction fuel generalizing start m with
  | zero =>
    rw [addInterval] at h
    split at h
    · cases h
    · next hge =>
      cases h
      exact hdone hge
  | succ fuel ih =>
    rw [addInterval] at h
    split at h
    · next hlt =>
      obtain ⟨⟨s₀, e₀⟩, hbounds, hrest⟩ := bind_eq_ok.mp h
      obtain ⟨duration, hduration, hrest⟩ := bind_eq_ok.mp hrest
      have hend : (if stop ≤ e₀ then stop else e₀).toInt = min stop.toInt e₀.toInt := by
        split
        · next hle => rw [Int64.le_iff_toInt_le] at hle; omega
        · next hle => rw [Int64.le_iff_toInt_le] at hle; omega
      have hexact := checkedSub_of_elim hduration
      refine (Fills.cons (u := (s₀, e₀, .hold value duration)) (htiling.cell hbounds)
        (ih hrest)).congr ?_ fun s e => stretchUpdates_split htiling hlt hbounds hend hexact
      have hafter := Int64.lt_iff_toInt_lt.mp (htiling.around hbounds).2
      rw [Int64.lt_iff_toInt_lt] at hlt
      rw [Update.weight, Prod.mk_add_mk, hexact, hend]
      exact congrArg (Prod.mk 0) (by omega)
    · next hge =>
      cases h
      exact hdone hge

/-- The part of the held stretches inside a bucket. -/
def heldUpdates (hs : List Hold) (s e : Int64) : List Update :=
  hs.flatMap fun h => stretchUpdates h.1.rat h.1.validTime h.2.validTime s e

/-- The round of one pair of neighbours. -/
theorem addGap_eq_ok (htiling : Tiling rule.bounds) {maxGap gap : Int64} {p q : Point}
    (hgap : gap.toInt = Hold.gap (p, q)) (h : rule.addGap maxGap gap p q m = .ok m') :
    Fills rule.bounds m m' (0, ((holds maxGap [p, q]).map Hold.gap).sum)
      (heldUpdates (holds maxGap [p, q])) := by
  have hholds : holds maxGap [p, q] =
      if 0 < Hold.gap (p, q) ∧ Hold.gap (p, q) ≤ maxGap.toInt then [(p, q)] else [] := by
    rw [holds, neighbours, filter_cons]
    simp only [decide_eq_true_eq]
    rfl
  have hzero : gap = 0 ↔ gap.toInt = 0 := by rw [← Int64.toInt_inj]; rfl
  simp only [addGap, hzero, Int64.lt_iff_toInt_lt, hgap] at h
  rw [hholds]
  split at h
  · next hskip =>
    cases h
    rw [if_neg (by omega)]
    exact .refl
  · next hkeep =>
    have hgap' : Hold.gap (p, q) = q.validTime.toInt - p.validTime.toInt := rfl
    refine (addInterval_eq_ok htiling h).congr ?_ fun s e _ => ?_
    · rw [← hgap']
      split
      · rw [max_eq_right (by omega), map_singleton, sum_singleton]
      · rw [max_eq_left (by omega), map_nil, sum_nil]
    · split
      · exact (append_nil _).symm
      · -- neighbours out of order have no stretch between them
        exact stretchUpdates_of_le (by omega)

theorem addGaps_eq_ok (htiling : Tiling rule.bounds) {maxGap : Int64} {ps : List Point}
    (h : rule.addGaps maxGap m ps = .ok m') :
    Fills rule.bounds m m' (0, ((holds maxGap ps).map Hold.gap).sum)
      (heldUpdates (holds maxGap ps)) := by
  induction ps generalizing m with
  | nil =>
    cases h
    exact .refl
  | cons p ps ih =>
    cases ps with
    | nil =>
      cases h
      exact .refl
    | cons q ps =>
      obtain ⟨gap, hgap, hrest⟩ := bind_eq_ok.mp h
      obtain ⟨m₁, hfirst, hrest⟩ := bind_eq_ok.mp hrest
      have hholds : holds maxGap (p :: q :: ps) = holds maxGap [p, q] ++ holds maxGap (q :: ps) :=
        filter_append [(p, q)] (neighbours (q :: ps))
      have hround := addGap_eq_ok htiling (checkedSub_of_elim hgap) hfirst
      rw [hholds, map_append, sum_append]
      refine (hround.trans (ih hrest)).congr (Prod.mk_add_mk ..) fun s e _ => ?_
      rw [heldUpdates, heldUpdates, heldUpdates, flatMap_append]

/-! ## Termination

The fuel of a hold is its length, and every round advances. -/

/-- The answer of a loop without fuel. -/
def stuck : Error := .invalidArgument "rollup interval does not advance"

/-- A rule whose own answers are never the one of a loop without fuel. -/
structure Advances (rule : BucketRule) : Prop where
  after : ∀ {t s e}, rule.bounds t = .ok (s, e) → t < e
  bounds : ∀ t, rule.bounds t ≠ .error stuck
  gap : rule.gapOverflows ≠ "rollup interval does not advance"
  coverage : rule.coverageOverflows ≠ "rollup interval does not advance"

theorem elim_ne_stuck {o : Option Int64} {text : String}
    (htext : text ≠ "rollup interval does not advance") :
    o.elim (Except.error (.invalidArgument text)) Except.ok ≠ .error stuck := by
  cases o with
  | none =>
    intro h
    injection h with h
    injection h with h
    exact htext h
  | some x => exact fun h => nomatch h

theorem addInterval_ne_stuck (hrule : rule.Advances) {fuel : Nat}
    (hfuel : stop.toInt - start.toInt ≤ fuel) :
    rule.addInterval value stop fuel start m ≠ .error stuck := by
  induction fuel generalizing start m with
  | zero =>
    rw [addInterval, if_neg]
    · exact fun h => nomatch h
    · rw [Int64.lt_iff_toInt_lt]
      omega
  | succ fuel ih =>
    rw [addInterval]
    split
    · next hlt =>
      refine bind_ne_error (hrule.bounds start) fun ⟨s, e⟩ hbounds =>
        bind_ne_error (elim_ne_stuck hrule.coverage) fun _ _ => ih ?_
      have hafter := Int64.lt_iff_toInt_lt.mp (hrule.after hbounds)
      rw [Int64.lt_iff_toInt_lt] at hlt
      split
      · omega
      · omega
    · exact fun h => nomatch h

theorem addSamples_ne_stuck (hrule : rule.Advances) (ps : List Point) (m : Buckets) :
    rule.addSamples m ps ≠ .error stuck := by
  induction ps generalizing m with
  | nil => exact fun h => nomatch h
  | cons p ps ih => exact bind_ne_error (hrule.bounds _) fun _ _ => ih _

theorem addGaps_ne_stuck (hrule : rule.Advances) (maxGap : Int64) (ps : List Point)
    (m : Buckets) : rule.addGaps maxGap m ps ≠ .error stuck := by
  induction ps generalizing m with
  | nil => exact fun h => nomatch h
  | cons p ps ih =>
    cases ps with
    | nil => exact fun h => nomatch h
    | cons q ps =>
      refine bind_ne_error (elim_ne_stuck hrule.gap) fun gap _ =>
        bind_ne_error ?_ fun _ _ => ih _
      rw [addGap]
      split
      · exact fun h => nomatch h
      · exact addInterval_ne_stuck hrule (Int.self_le_toNat _)

theorem build_ne_stuck (hrule : rule.Advances) (points : List Point) (maxGap : Int64) :
    rule.build points maxGap ≠ .error stuck :=
  bind_ne_error (addSamples_ne_stuck hrule _ _) fun _ _ =>
    bind_ne_error (addGaps_ne_stuck hrule _ _ _) fun _ _ h => nomatch h

end BucketRule

/-! ## What is in the map -/

/-- The update of a hold, by its overlap with the bucket. -/
def holdUpdate (start stop : Int64) (h : Hold) : Update :=
  (start, stop, .hold h.1.rat (Int64.ofInt (h.overlap start stop)))

/-- What falls to a bucket: its samples, then its parts of the holds. -/
def cellUpdates (maxGap : Int64) (points : List Point) (s e : Int64) : List Update :=
  (samplesIn points s e).map (sampleUpdate s e) ++ (holdsIn maxGap points s e).map (holdUpdate s e)

theorem heldUpdates_holds (maxGap : Int64) (points : List Point) (s e : Int64) :
    BucketRule.heldUpdates (holds maxGap points) s e =
      (holdsIn maxGap points s e).map (holdUpdate s e) := by
  rw [holdsIn]
  induction holds maxGap points with
  | nil => rfl
  | cons h hs ih =>
    have hone : stretchUpdates h.1.rat h.1.validTime h.2.validTime s e =
        if 0 < h.overlap s e then [holdUpdate s e h] else [] := rfl
    rw [BucketRule.heldUpdates] at ih ⊢
    rw [flatMap_cons, ih, hone, filter_cons]
    by_cases hin : 0 < h.overlap s e
    · rw [if_pos hin, if_pos (decide_eq_true hin), map_cons, singleton_append]
    · rw [if_neg hin, if_neg (by simpa using hin), nil_append]

/-- The overlap of a stretch is at most its own length, so it fits a duration. -/
theorem toInt_ofInt_overlap (h : Hold) (s e : Int64) (hgap : h.gap < 2 ^ 63) :
    (Int64.ofInt (h.overlap s e)).toInt = h.overlap s e := by
  have hlt : h.overlap s e < 2 ^ 63 := by
    rw [Hold.overlap, overlap]
    rw [Hold.gap] at hgap
    omega
  have hnonneg : 0 ≤ h.overlap s e := by
    rw [Hold.overlap, overlap]
    omega
  exact Int64.toInt_ofInt_of_le (by omega) hlt

variable {maxGap : Int64} {points : List Point}

theorem gap_lt_of_mem_holdsIn {s e : Int64} {h : Hold} (hh : h ∈ holdsIn maxGap points s e) :
    h.gap < 2 ^ 63 := by
  have hfilter := (mem_filter.mp (mem_filter.mp hh).1).2
  rw [decide_eq_true_eq] at hfilter
  exact lt_of_le_of_lt hfilter.2 maxGap.toInt_lt

/-- The accumulated bucket has the statistics of its interval. -/
theorem foldl_apply_eq_statistics (maxGap : Int64) (points : List Point) (s e : Int64) :
    ((cellUpdates maxGap points s e).map (·.2.2)).foldl Change.apply (.empty s e) =
      statistics maxGap points s e := by
  have hsamples : ((samplesIn points s e).map (sampleUpdate s e)).foldl
      (fun b u => Change.apply b u.2.2) (.empty s e) =
      ((samplesIn points s e).map Point.sample).foldl GaugeBucket.addSample (.empty s e) := by
    rw [foldl_map, foldl_map]
    rfl
  have hholds : ∀ b : GaugeBucket, ((holdsIn maxGap points s e).map (holdUpdate s e)).foldl
        (fun b u => Change.apply b u.2.2) b =
      ((holdsIn maxGap points s e).map fun h => (h.1.rat, Int64.ofInt (h.overlap s e))).foldl
        (fun b h => b.addCoveredInterval h.1 h.2) b := by
    intro b
    rw [foldl_map, foldl_map]
    rfl
  have hints : ∀ {M : Type} (f : Hold → Int → M), ((holdsIn maxGap points s e).map fun h =>
      f h (Int64.ofInt (h.overlap s e)).toInt) =
      (holdsIn maxGap points s e).map fun h => f h (h.overlap s e) := by
    intro M f
    exact map_congr_left fun h hh => by rw [toInt_ofInt_overlap h s e (gap_lt_of_mem_holdsIn hh)]
  rw [foldl_map, cellUpdates, foldl_append, hsamples, hholds, GaugeBucket.foldl_addSample,
    GaugeBucket.foldl_addCoveredInterval]
  simp only [statistics, valuesIn, GaugeBucket.empty, map_map, Function.comp_def,
    hints fun h x => h.1.rat * x, hints fun _ x => x, ← mergeWith_min, ← mergeWith_max,
    mergeWith_append, length_map, head?_map, getLast?_map, UInt64.zero_add,
    Rat.zero_add, Int.zero_add, Option.none_or, Option.or_none, Int64.toInt_zero]
  rfl

/-- The buckets of a rollup: in the order of time, one for each cell of the rule
with a sample or a part of a hold, with the statistics of the cell. -/
structure Rolled (bounds : Int64 → Except Error (Int64 × Int64)) (maxGap : Int64)
    (points : List Point) (buckets : List GaugeBucket) : Prop where
  ordered : buckets.Pairwise fun a b => a.start < b.start
  mem : ∀ b, b ∈ buckets ↔ ∃ s e, Cell bounds s e ∧
    (samplesIn points s e ≠ [] ∨ holdsIn maxGap points s e ≠ []) ∧
    b = statistics maxGap points s e
  sampled : ∀ p ∈ points, ∃ s e, bounds p.validTime = .ok (s, e)
  -- no sample and no held time is lost or counted twice
  total : (buckets.map fun b => ((samplesIn points b.start b.stop).length,
      ((holdsIn maxGap points b.start b.stop).map (Hold.overlap b.start b.stop)).sum)).sum =
    (points.length, ((holds maxGap points).map Hold.gap).sum)

/-- What the updates of one cell add. -/
theorem sum_weight (maxGap : Int64) (points : List Point) (s e : Int64) :
    ((cellUpdates maxGap points s e).map Update.weight).sum =
      ((samplesIn points s e).length,
        ((holdsIn maxGap points s e).map (Hold.overlap s e)).sum) := by
  have hsamples : ∀ l : List Point,
      ((l.map (sampleUpdate s e)).map Update.weight).sum = (l.length, 0) := by
    intro l
    induction l with
    | nil => rfl
    | cons p l ih =>
      rw [map_cons, map_cons, sum_cons, ih, length_cons, add_comm]
      rfl
  have hholds : ∀ l : List Hold, (∀ h ∈ l, h.gap < 2 ^ 63) →
      ((l.map (holdUpdate s e)).map Update.weight).sum = (0, (l.map (Hold.overlap s e)).sum) := by
    intro l hl
    induction l with
    | nil => rfl
    | cons h l ih =>
      obtain ⟨hh, hl⟩ := forall_mem_cons.mp hl
      rw [map_cons, map_cons, sum_cons, ih hl, map_cons, sum_cons,
        ← toInt_ofInt_overlap h s e hh]
      rfl
  rw [cellUpdates, map_append, sum_append, hsamples, hholds _ fun h hh => gap_lt_of_mem_holdsIn hh,
    Prod.mk_add_mk, add_zero, zero_add]

/-- The entries of a map whose updates are those of the samples and holds of the cells. -/
theorem getElem?_tally_statistics {bounds : Int64 → Except Error (Int64 × Int64)}
    {us : List Update} (hcells : ∀ u ∈ us, Cell bounds u.1 u.2.1)
    (hof : ∀ s e, Cell bounds s e → ofKey s us = cellUpdates maxGap points s e) {s : Int64}
    {b : GaugeBucket} :
    (tally Update.step ∅ us)[s]? = some b ↔ ∃ e, Cell bounds s e ∧
      (samplesIn points s e ≠ [] ∨ holdsIn maxGap points s e ≠ []) ∧
      b = statistics maxGap points s e := by
  have hentry : ∀ e, Cell bounds s e →
      (samplesIn points s e ≠ [] ∨ holdsIn maxGap points s e ≠ []) →
      (tally Update.step ∅ us)[s]? = some (statistics maxGap points s e) := by
    intro e hcell hne
    rw [getElem?_tally, hof s e hcell, Std.ExtTreeMap.getElem?_empty, foldl_step,
      foldl_apply_eq_statistics]
    · intro hnil
      rw [cellUpdates, append_eq_nil_iff, map_eq_nil_iff, map_eq_nil_iff] at hnil
      exact hne.elim (· hnil.1) (· hnil.2)
    · intro u hu
      rcases mem_append.mp hu with hu | hu
      · obtain ⟨p, _, rfl⟩ := mem_map.mp hu
        exact ⟨rfl, rfl⟩
      · obtain ⟨h, _, rfl⟩ := mem_map.mp hu
        exact ⟨rfl, rfl⟩
  constructor
  · intro hb
    have hne : ofKey s us ≠ [] := mem_tally.mp (KeyedMap.mem_of_getElem? hb)
    obtain ⟨u, hof'⟩ := exists_mem_of_ne_nil _ hne
    obtain ⟨hu, rfl⟩ := mem_ofKey.mp hof'
    have hcell := hcells u hu
    rw [hof _ _ hcell, ne_eq, cellUpdates, append_eq_nil_iff, map_eq_nil_iff, map_eq_nil_iff,
      not_and_or] at hne
    rw [hentry _ hcell hne] at hb
    exact ⟨u.2.1, hcell, hne, (Option.some.inj hb).symm⟩
  · rintro ⟨e, hcell, hne, rfl⟩
    exact hentry e hcell hne

theorem BucketRule.build_eq_ok {rule : BucketRule} (htiling : Tiling rule.bounds)
    {buckets : List GaugeBucket} (h : rule.build points maxGap = .ok buckets) :
    Rolled rule.bounds maxGap (stableSort byValidTime points) buckets := by
  obtain ⟨m₁, hsamples, hrest⟩ := bind_eq_ok.mp h
  obtain ⟨m₂, hgaps, hrest⟩ := bind_eq_ok.mp hrest
  injection hrest with hrest
  obtain ⟨us, hm, hcells, hweight, hof⟩ :=
    (addSamples_eq_ok htiling hsamples).trans (addGaps_eq_ok htiling hgaps)
  have hall : ∀ s e, Cell rule.bounds s e →
      ofKey s us = cellUpdates maxGap (stableSort byValidTime points) s e := by
    intro s e hcell
    rw [hof s e hcell, cellUpdates, ← heldUpdates_holds]
  have hentry : ∀ {s : Int64} {b : GaugeBucket}, m₂[s]? = some b ↔ ∃ e, Cell rule.bounds s e ∧
      (samplesIn (stableSort byValidTime points) s e ≠ [] ∨
        holdsIn maxGap (stableSort byValidTime points) s e ≠ []) ∧
      b = statistics maxGap (stableSort byValidTime points) s e := by
    intro s b
    rw [hm]
    exact getElem?_tally_statistics hcells hall
  have hcell : ∀ u ∈ m₂.toList, u.2.start = u.1 ∧ Cell rule.bounds u.1 u.2.stop := by
    intro u hu
    obtain ⟨e, hcell, _, hb⟩ := hentry.mp (Std.ExtTreeMap.mem_toList_iff_getElem?_eq_some.mp hu)
    rw [hb]
    exact ⟨rfl, hcell⟩
  subst hrest
  constructor
  · rw [pairwise_map]
    refine Std.ExtTreeMap.ordered_keys_toList.imp_of_mem fun {u v} hu hv hlt => ?_
    rw [(hcell u hu).1, (hcell v hv).1]
    exact Std.compare_eq_lt.mp hlt
  · intro b
    rw [mem_map]
    constructor
    · rintro ⟨u, hu, rfl⟩
      exact ⟨u.1, hentry.mp (Std.ExtTreeMap.mem_toList_iff_getElem?_eq_some.mp hu)⟩
    · rintro ⟨s, hs⟩
      exact ⟨(s, b), Std.ExtTreeMap.mem_toList_iff_getElem?_eq_some.mpr (hentry.mpr hs), rfl⟩
  · exact addSamples_bounds hsamples
  · have hkeys : ∀ u ∈ us, u.1 ∈ m₂.toList.map Prod.fst := by
      intro u hu
      rw [Std.ExtTreeMap.map_fst_toList_eq_keys, Std.ExtTreeMap.mem_keys, hm, mem_tally]
      exact ne_nil_of_mem (mem_ofKey.mpr ⟨hu, rfl⟩)
    have hnodup : (m₂.toList.map Prod.fst).Nodup := by
      rw [Std.ExtTreeMap.map_fst_toList_eq_keys]
      exact Std.ExtTreeMap.nodup_keys
    have htotal := sum_ofKey Update.weight hnodup hkeys
    rw [hweight, length_stableSort, Prod.mk_add_mk, add_zero, zero_add, map_map] at htotal
    rw [length_stableSort, ← htotal, map_map]
    refine congrArg List.sum (map_congr_left fun u hu => ?_)
    obtain ⟨hstart, hu⟩ := hcell u hu
    rw [Function.comp_apply, Function.comp_apply, hall _ _ hu, sum_weight, hstart]

namespace Rolled

variable {bounds : Int64 → Except Error (Int64 × Int64)} {maxGap : Int64} {points : List Point}
  {buckets : List GaugeBucket}

theorem of_mem (h : Rolled bounds maxGap points buckets) {b : GaugeBucket} (hb : b ∈ buckets) :
    Cell bounds b.start b.stop ∧
      (samplesIn points b.start b.stop ≠ [] ∨ holdsIn maxGap points b.start b.stop ≠ []) ∧
      b = statistics maxGap points b.start b.stop := by
  obtain ⟨s, e, hcell, hne, rfl⟩ := (h.mem b).mp hb
  exact ⟨hcell, hne, rfl⟩

theorem mem_of_cell (h : Rolled bounds maxGap points buckets) {s e : Int64}
    (hcell : Cell bounds s e) (hne : samplesIn points s e ≠ [] ∨ holdsIn maxGap points s e ≠ []) :
    statistics maxGap points s e ∈ buckets := (h.mem _).mpr ⟨s, e, hcell, hne, rfl⟩

/-- The buckets follow each other without overlap. -/
theorem apart (h : Rolled bounds maxGap points buckets) (htiling : Tiling bounds) :
    buckets.Pairwise fun a b => a.stop ≤ b.start := by
  refine h.ordered.imp_of_mem fun {a b} ha hb hlt => ?_
  obtain ⟨hcell, _, _⟩ := h.of_mem ha
  obtain ⟨hcell', _, _⟩ := h.of_mem hb
  have hstop := Int64.lt_iff_toInt_lt.mp (htiling.lt hcell')
  rcases htiling.disjoint hcell hcell' (Std.ne_of_lt hlt).symm with hle | hle
  · exact Int64.le_iff_toInt_le.mpr hle
  · rw [Int64.lt_iff_toInt_lt] at hlt
    omega

theorem samples_total (h : Rolled bounds maxGap points buckets) :
    (buckets.map fun b => (samplesIn points b.start b.stop).length).sum = points.length := by
  have hfst := congrArg (AddMonoidHom.fst ℕ ℤ) h.total
  rw [map_list_sum, map_map] at hfst
  exact hfst

theorem covered_total (h : Rolled bounds maxGap points buckets) :
    (buckets.map fun b => ((holdsIn maxGap points b.start b.stop).map
      (Hold.overlap b.start b.stop)).sum).sum = ((holds maxGap points).map Hold.gap).sum := by
  have hsnd := congrArg (AddMonoidHom.snd ℕ ℤ) h.total
  rw [map_list_sum, map_map] at hsnd
  exact hsnd

end Rolled

/-- Buckets one behind the other with the statistics of their intervals are a valid file. -/
theorem validateBuckets_eq_ok {maxGap : Int64} {points : List Point} {buckets : List GaugeBucket}
    (hsorted : Sorted byValidTime points) (hlength : points.length < 2 ^ 64)
    (hapart : buckets.Pairwise fun a b => a.stop ≤ b.start)
    (hbuckets : ∀ b ∈ buckets, b.start < b.stop ∧ b.stop.toInt - b.start.toInt < 2 ^ 63 ∧
      b = statistics maxGap points b.start b.stop)
    {previous : Option GaugeBucket} (hprevious : ∀ a ∈ previous, ∀ b ∈ buckets, a.stop ≤ b.start)
    (offset : Nat) : validateBuckets previous buckets offset = .ok () := by
  induction buckets generalizing previous offset with
  | nil => rfl
  | cons b bs ih =>
    obtain ⟨hb, hapart⟩ := pairwise_cons.mp hapart
    obtain ⟨⟨hlt, hwidth, heq⟩, hbs⟩ := forall_mem_cons.mp hbuckets
    refine bind_eq_ok.mpr ⟨(), ?_, ih hapart hbs ?_ _⟩
    · rw [heq]
      exact validateBucket_statistics hsorted hlt hwidth hlength
        (fun a ha => hprevious a ha b (mem_cons_self ..)) offset
    · intro a ha
      cases ha
      exact hb

end Ftwdb
