import Mathlib.Algebra.Ring.Nat
import Mathlib.Data.List.Basic
import Mathlib.Data.List.MinMax
import Mathlib.Data.Nat.Find
import Std.Data.ExtTreeMap

/-!
# Dependency orders

Three algorithms over a finite graph whose edges lead from a node to what it
depends on.  `chain` follows single links and fails when it meets a node again.
`visitAll` is an iterative depth-first search that fails on a node that is
still being visited.  `layers` peels off, again and again, the nodes that
depend on no remaining one, which leaves a list in dependency order
(`layers_behind`).

The first two are tests for cycles.  A run that succeeds leaves a rank, that
is, a number for every node that falls along each edge (`chain_ok_ends` with
`exists_rank_of_ends`, and `exists_rank_of_visitAll`), and with a rank the third one always finishes
(`layers_isSome`).
-/

namespace DependencyOrder

open List

variable {ν : Type}

/-! ## Chains of single links -/

section Chain

/-- The node `k` links after `n`, if the chain is that long. -/
def follow (next : ν → Option ν) : Nat → ν → Option ν
  | 0, n => some n
  | k + 1, n => (next n).bind (follow next k)

/-- Nodes whose chains end have a rank. -/
theorem exists_rank_of_ends (next : ν → Option ν) :
    ∃ rank : ν → Nat, ∀ n m, next n = some m → (∃ k, follow next k n = none) →
      rank m < rank n := by
  classical
  refine ⟨fun n => if h : ∃ k, follow next k n = none then Nat.find h else 0, ?_⟩
  intro n m hnm hn
  have hpos : Nat.find hn ≠ 0 := by
    intro hzero
    have := Nat.find_spec hn
    rw [hzero] at this
    simp [follow] at this
  obtain ⟨j, hj⟩ := Nat.exists_eq_succ_of_ne_zero hpos
  have hm : follow next j m = none := by
    have := Nat.find_spec hn
    rw [hj] at this
    simpa [follow, hnm] using this
  have hend : ∃ k, follow next k m = none := ⟨j, hm⟩
  have hle : Nat.find hend ≤ j := Nat.find_min' hend hm
  simp only [dif_pos hend, dif_pos hn, hj]
  omega

variable [DecidableEq ν]

/-- Follow `next` from `current`, collecting the nodes met.  The fuel bounds the
number of steps; running out of it counts as a cycle. -/
def chain (next : ν → Option ν) : Nat → List ν → Option ν → Except ν Unit
  | _, _, none => .ok ()
  | 0, _, some n => .error n
  | fuel + 1, seen, some n => if n ∈ seen then .error n else chain next fuel (n :: seen) (next n)

/-- A chain that passes the check ends. -/
theorem chain_ok_ends {next : ν → Option ν} {fuel : Nat} {seen : List ν} {n : ν}
    (h : chain next fuel seen (some n) = .ok ()) : ∃ k, follow next k n = none := by
  induction fuel generalizing seen n with
  | zero => simp [chain] at h
  | succ fuel ih =>
    rw [chain] at h
    split at h
    · simp at h
    · cases hn : next n with
      | none => exact ⟨1, by simp [follow, hn]⟩
      | some m =>
        rw [hn] at h
        obtain ⟨k, hk⟩ := ih h
        exact ⟨k + 1, by simp [follow, hn, hk]⟩

end Chain

/-! ## Completion orders -/

section Completion

/-- Nodes in the order they were completed, last one first: each depends on
nodes further down only. -/
inductive Completed (links : ν → List ν) : List ν → Prop where
  | nil : Completed links []
  | cons {n : ν} {done : List ν} (hnew : n ∉ done) (hlinks : ∀ m ∈ links n, m ∈ done)
      (hdone : Completed links done) : Completed links (n :: done)

theorem Completed.links_mem {links : ν → List ν} {done : List ν} (h : Completed links done) :
    ∀ n ∈ done, ∀ m ∈ links n, m ∈ done := by
  induction h with
  | nil => simp
  | cons hnew hlinks hdone ih =>
    intro n hn m hm
    rcases mem_cons.mp hn with rfl | hn
    · exact mem_cons_of_mem _ (hlinks m hm)
    · exact mem_cons_of_mem _ (ih n hn m hm)

variable [DecidableEq ν]

/-- The height of a node in a completion order. -/
def height : List ν → ν → Nat
  | [], _ => 0
  | m :: done, n => if n = m then done.length + 1 else height done n

theorem height_le (done : List ν) (n : ν) : height done n ≤ done.length := by
  induction done with
  | nil => exact Nat.le_refl 0
  | cons m done ih =>
    rw [height, length_cons]
    split <;> omega

/-- Completed nodes are ranked above what they link to. -/
theorem Completed.height_lt {links : ν → List ν} {done : List ν} (h : Completed links done) :
    ∀ n ∈ done, ∀ m ∈ links n, height done m < height done n := by
  induction h with
  | nil => simp
  | @cons top done hnew hlinks hdone ih =>
    intro n hn m hm
    have hbelow : ∀ k ∈ done, height (top :: done) k = height done k := by
      intro k hk
      rw [height, if_neg]
      rintro rfl
      exact hnew hk
    rcases mem_cons.mp hn with rfl | hn
    · rw [hbelow m (hlinks m hm), height, if_pos rfl]
      exact Nat.lt_succ_of_le (height_le done m)
    · rw [hbelow n hn, hbelow m (hdone.links_mem n hn m hm)]
      exact ih n hn m hm

end Completion

/-! ## Depth-first search -/

section Search

variable [Ord ν] [Std.TransOrd ν]

/-- The mark of a node: on the path, or done. -/
inductive VisitState where
  | active
  | complete
deriving DecidableEq

/-- The search from a stack of nodes.  A node is met once to be opened and once,
behind everything it depends on, to be closed (`true`).  Links are pushed so
that the first of `links n` is visited first. -/
def visit (links : ν → List ν) :
    Nat → Std.ExtTreeMap ν VisitState → List (ν × Bool) → Except ν (Std.ExtTreeMap ν VisitState)
  | _, states, [] => .ok states
  | 0, _, (n, _) :: _ => .error n
  | fuel + 1, states, (n, true) :: stack => visit links fuel (states.insert n .complete) stack
  | fuel + 1, states, (n, false) :: stack =>
    match states[n]? with
    | some .complete => visit links fuel states stack
    | some .active => .error n
    | none =>
      visit links fuel (states.insert n .active)
        ((links n).map (fun m => (m, false)) ++ (n, true) :: stack)

/-- The search from every root that is not complete yet. -/
def visitAll (links : ν → List ν) (fuel : Nat) :
    Std.ExtTreeMap ν VisitState → List ν → Except ν (Std.ExtTreeMap ν VisitState)
  | states, [] => .ok states
  | states, root :: roots =>
    if states[root]? = some .complete then visitAll links fuel states roots
    else (visit links fuel states [(root, false)]).bind fun states =>
      visitAll links fuel states roots

/-- What an open node of the stack depends on is complete or above it.  `above`
collects the nodes already passed. -/
def Above (links : ν → List ν) (states : Std.ExtTreeMap ν VisitState) :
    List ν → List (ν × Bool) → Prop
  | _, [] => True
  | above, (n, opened) :: stack =>
    (opened = true → ∀ m ∈ links n, states[m]? = some .complete ∨ m ∈ above) ∧
      Above links states (n :: above) stack

theorem Above.mono {links : ν → List ν} {states states' : Std.ExtTreeMap ν VisitState}
    {stack : List (ν × Bool)} {above above' : List ν} (h : Above links states above stack)
    (hsub : ∀ m : ν, states[m]? = some VisitState.complete ∨ m ∈ above →
      states'[m]? = some VisitState.complete ∨ m ∈ above') : Above links states' above' stack := by
  induction stack generalizing above above' with
  | nil => trivial
  | cons top stack ih =>
    obtain ⟨n, opened⟩ := top
    refine ⟨fun hopen m hm => hsub m (h.1 hopen m hm), ih h.2 fun m hm => ?_⟩
    rcases hm with hm | hm
    · exact (hsub m (Or.inl hm)).imp id (mem_cons_of_mem n)
    · rcases mem_cons.mp hm with rfl | hm
      · exact Or.inr mem_cons_self
      · exact (hsub m (Or.inr hm)).imp id (mem_cons_of_mem n)

theorem above_push {links : ν → List ν} {states : Std.ExtTreeMap ν VisitState}
    {stack : List (ν × Bool)} (new above : List ν)
    (h : Above links states (new.reverse ++ above) stack) :
    Above links states above (new.map (fun m => (m, false)) ++ stack) := by
  induction new generalizing above with
  | nil => exact h
  | cons n new ih =>
    refine ⟨fun hopen => absurd hopen Bool.false_ne_true, ih (n :: above) ?_⟩
    rwa [reverse_cons, append_assoc, singleton_append] at h

/-- The search invariant: complete nodes are listed in completion order, open
nodes are active, and each open node waits for what it depends on. -/
structure VisitInv (links : ν → List ν) (states : Std.ExtTreeMap ν VisitState)
    (stack : List (ν × Bool)) (done : List ν) : Prop where
  completed : Completed links done
  mem_done : ∀ n, states[n]? = some .complete ↔ n ∈ done
  open_active : ∀ n, (n, true) ∈ stack → states[n]? = some .active
  open_nodup : (stack.filter fun p => p.2).Nodup
  above : Above links states [] stack

section Step

variable {links : ν → List ν} {states : Std.ExtTreeMap ν VisitState}
  {stack : List (ν × Bool)} {done : List ν} {n : ν}

theorem VisitInv.skip (h : VisitInv links states ((n, false) :: stack) done)
    (hn : states[n]? = some .complete) : VisitInv links states stack done := by
  refine ⟨h.completed, h.mem_done, fun m hm => h.open_active m (mem_cons_of_mem _ hm),
    by simpa using h.open_nodup, h.above.2.mono fun m hm => Or.inl ?_⟩
  rcases hm with hm | hm
  · exact hm
  · rwa [mem_singleton.mp hm]

variable [Std.LawfulEqOrd ν]

theorem VisitInv.close (h : VisitInv links states ((n, true) :: stack) done) :
    VisitInv links (states.insert n .complete) stack (n :: done) := by
  have hactive : states[n]? = some .active := h.open_active n mem_cons_self
  have hnew : n ∉ done := by
    rw [← h.mem_done, hactive]
    simp
  obtain ⟨hlinks, habove⟩ := h.above
  have hnodup := h.open_nodup
  rw [filter_cons_of_pos rfl, nodup_cons] at hnodup
  refine ⟨.cons hnew (fun m hm => ?_) h.completed, fun m => ?_, fun m hm => ?_, hnodup.2, ?_⟩
  · exact (h.mem_done m).mp ((hlinks rfl m hm).resolve_right (not_mem_nil))
  · rw [Std.ExtTreeMap.getElem?_insert, mem_cons, ← h.mem_done]
    split
    · next heq => simp [Std.LawfulEqOrd.eq_of_compare heq]
    · next hne =>
      have : m ≠ n := fun heq => hne (heq ▸ Std.ReflOrd.compare_self)
      simp [this]
  · have hne : ¬ compare n m = .eq := by
      intro heq
      obtain rfl := Std.LawfulEqOrd.eq_of_compare heq
      exact hnodup.1 (mem_filter.mpr ⟨hm, rfl⟩)
    rw [Std.ExtTreeMap.getElem?_insert, if_neg hne]
    exact h.open_active m (mem_cons_of_mem _ hm)
  · refine habove.mono fun m hm => Or.inl ?_
    rw [Std.ExtTreeMap.getElem?_insert]
    split
    · rfl
    · next hne =>
      refine hm.resolve_right fun hmem => hne ?_
      obtain rfl := mem_singleton.mp hmem
      exact Std.ReflOrd.compare_self

theorem VisitInv.openNode (h : VisitInv links states ((n, false) :: stack) done)
    (hn : states[n]? = none) :
    VisitInv links (states.insert n .active)
      ((links n).map (fun m => (m, false)) ++ (n, true) :: stack) done := by
  have hother : ∀ m : ν, states[m]? ≠ none → (states.insert n .active)[m]? = states[m]? := by
    intro m hm
    rw [Std.ExtTreeMap.getElem?_insert, if_neg]
    intro heq
    exact hm (Std.LawfulEqOrd.eq_of_compare heq ▸ hn)
  refine ⟨h.completed, fun m => ?_, fun m hm => ?_, ?_, ?_⟩
  · rw [← h.mem_done]
    by_cases hm : states[m]? = none
    · rw [hm, Std.ExtTreeMap.getElem?_insert]
      split <;> simp [hm]
    · rw [hother m hm]
  · rcases mem_append.mp hm with hm | hm
    · obtain ⟨k, -, hk⟩ := mem_map.mp hm
      simp at hk
    · rcases mem_cons.mp hm with heq | hm
      · cases heq
        exact Std.ExtTreeMap.getElem?_insert_self
      · have hact := h.open_active m (mem_cons_of_mem _ hm)
        rw [hother m (by rw [hact]; simp), hact]
  · have hfresh : (n, true) ∉ stack.filter fun p => p.2 := by
      intro hmem
      have := h.open_active n (mem_cons_of_mem _ (mem_filter.mp hmem).1)
      rw [hn] at this
      simp at this
    have hlinks : ((links n).map fun m => (m, false)).filter (fun p => p.2) = [] := by simp
    have hnodup := h.open_nodup
    rw [filter_cons_of_neg (by simp)] at hnodup
    rw [filter_append, hlinks, nil_append, filter_cons_of_pos rfl]
    exact nodup_cons.mpr ⟨hfresh, hnodup⟩
  · refine above_push (links n) [] ⟨fun _ m hm => Or.inr (by simpa using hm), ?_⟩
    refine h.above.2.mono fun m hm => ?_
    rcases hm with hm | hm
    · exact Or.inl (by rw [hother m (by rw [hm]; simp), hm])
    · exact Or.inr (by rw [mem_singleton.mp hm]; exact mem_cons_self)

end Step

variable [Std.LawfulEqOrd ν]

/-- A search that succeeds completes every node of its stack. -/
theorem visit_ok {links : ν → List ν} {fuel : Nat} {states states' : Std.ExtTreeMap ν VisitState}
    {stack : List (ν × Bool)} {done : List ν} (hinv : VisitInv links states stack done)
    (h : visit links fuel states stack = .ok states') :
    ∃ done', VisitInv links states' [] done' ∧ (∀ n ∈ done, n ∈ done') ∧
      ∀ p ∈ stack, p.1 ∈ done' := by
  induction fuel generalizing states stack done with
  | zero =>
    cases stack with
    | nil =>
      obtain rfl : states = states' := by simpa [visit] using h
      exact ⟨done, hinv, fun _ hn => hn, by simp⟩
    | cons top stack => simp [visit] at h
  | succ fuel ih =>
    cases stack with
    | nil =>
      obtain rfl : states = states' := by simpa [visit] using h
      exact ⟨done, hinv, fun _ hn => hn, by simp⟩
    | cons top stack =>
      obtain ⟨n, opened⟩ := top
      cases opened with
      | true =>
        rw [visit] at h
        obtain ⟨done', hinv', hdone, hstack⟩ := ih hinv.close h
        refine ⟨done', hinv', fun m hm => hdone m (mem_cons_of_mem n hm), ?_⟩
        exact forall_mem_cons.mpr ⟨hdone n mem_cons_self, hstack⟩
      | false =>
        rw [visit] at h
        split at h
        · next hn =>
          obtain ⟨done', hinv', hdone, hstack⟩ := ih (hinv.skip hn) h
          refine ⟨done', hinv', hdone, forall_mem_cons.mpr ⟨?_, hstack⟩⟩
          exact hdone n ((hinv.mem_done n).mp hn)
        · simp at h
        · next hn =>
          obtain ⟨done', hinv', hdone, hstack⟩ := ih (hinv.openNode hn) h
          have htail := fun p hp => hstack p (mem_append_right _ hp)
          refine ⟨done', hinv', hdone, forall_mem_cons.mpr ⟨?_, fun p hp => ?_⟩⟩
          · exact htail (n, true) mem_cons_self
          · exact htail p (mem_cons_of_mem _ hp)

/-- A search that succeeds has completed every root. -/
theorem visitAll_ok {links : ν → List ν} {fuel : Nat} {roots : List ν}
    {states states' : Std.ExtTreeMap ν VisitState} {done : List ν}
    (hinv : VisitInv links states [] done) (h : visitAll links fuel states roots = .ok states') :
    ∃ done', Completed links done' ∧ (∀ n ∈ done, n ∈ done') ∧ ∀ n ∈ roots, n ∈ done' := by
  induction roots generalizing states done with
  | nil => exact ⟨done, hinv.completed, fun _ hn => hn, by simp⟩
  | cons root roots ih =>
    rw [visitAll] at h
    split at h
    · next hroot =>
      obtain ⟨done', hcompleted, hdone, hroots⟩ := ih hinv h
      refine ⟨done', hcompleted, hdone, forall_mem_cons.mpr ⟨?_, hroots⟩⟩
      exact hdone root ((hinv.mem_done root).mp hroot)
    · cases hvisit : visit links fuel states [(root, false)] with
      | error e => simp [hvisit, Except.bind] at h
      | ok states₁ =>
        rw [hvisit] at h
        have hstart : VisitInv links states [(root, false)] done :=
          ⟨hinv.completed, hinv.mem_done, by simp, by simp, by simp [Above]⟩
        obtain ⟨done₁, hinv₁, hdone₁, hroot⟩ := visit_ok hstart hvisit
        obtain ⟨done', hcompleted, hdone, hroots⟩ := ih hinv₁ h
        refine ⟨done', hcompleted, fun n hn => hdone n (hdone₁ n hn), ?_⟩
        exact forall_mem_cons.mpr
          ⟨hdone root (hroot (root, false) mem_cons_self), hroots⟩

/-- A search that succeeds from every root leaves a rank of the roots. -/
theorem exists_rank_of_visitAll {links : ν → List ν} {fuel : Nat} {roots : List ν}
    {states : Std.ExtTreeMap ν VisitState} (h : visitAll links fuel ∅ roots = .ok states) :
    ∃ rank : ν → Nat, ∀ n ∈ roots, ∀ m ∈ links n, rank m < rank n := by
  have hempty : VisitInv links ∅ [] [] := ⟨.nil, by simp, by simp, by simp, trivial⟩
  obtain ⟨done, hcompleted, -, hroots⟩ := visitAll_ok hempty h
  classical
  exact ⟨height done, fun n hn => hcompleted.height_lt n (hroots n hn)⟩

end Search

/-! ## Layers -/

section Layers

variable [DecidableEq ν]

/-- The nodes of `remaining` that depend on none of them. -/
def readyNodes (deps : ν → List ν) (remaining : List ν) : List ν :=
  remaining.filter fun n => (deps n).all fun m => decide (m ∉ remaining)

/-- The nodes in layers, each layer depending on earlier ones only; `none` if
some nodes never become ready.  The fuel is the number of nodes. -/
def layers (deps : ν → List ν) : Nat → List ν → Option (List ν)
  | _, [] => some []
  | 0, _ :: _ => none
  | fuel + 1, remaining =>
    let ready := readyNodes deps remaining
    if ready = [] then none
    else (layers deps fuel (remaining.filter fun n => decide (n ∉ ready))).map (ready ++ ·)

theorem perm_ready_append (deps : ν → List ν) (remaining : List ν) :
    (readyNodes deps remaining ++
      remaining.filter fun n => decide (n ∉ readyNodes deps remaining)).Perm remaining := by
  have hsplit := filter_append_perm
    (fun n => (deps n).all fun m => decide (m ∉ remaining)) remaining
  have hrest : (remaining.filter fun n => decide (n ∉ readyNodes deps remaining)) =
      remaining.filter fun n => !((deps n).all fun m => decide (m ∉ remaining)) := by
    refine filter_congr fun n hn => ?_
    simp only [readyNodes, mem_filter, hn, true_and]
    cases (deps n).all fun m => decide (m ∉ remaining) <;> rfl
  rw [hrest]
  exact hsplit

/-- The layers put all nodes in an order. -/
theorem layers_perm {deps : ν → List ν} {fuel : Nat} {remaining out : List ν}
    (h : layers deps fuel remaining = some out) : out.Perm remaining := by
  induction fuel generalizing remaining out with
  | zero =>
    cases remaining with
    | nil => simp_all [layers]
    | cons n ns => simp [layers] at h
  | succ fuel ih =>
    cases remaining with
    | nil => simp_all [layers]
    | cons n ns =>
      rw [layers] at h
      · split at h
        · simp at h
        · obtain ⟨rest, hrest, rfl⟩ := Option.map_eq_some_iff.mp h
          exact ((ih hrest).append_left _).trans (perm_ready_append deps (n :: ns))
      · simp

/-- With a rank the layers exhaust the nodes. -/
theorem layers_isSome {deps : ν → List ν} (rank : ν → Nat) {fuel : Nat} {remaining : List ν}
    (hrank : ∀ n ∈ remaining, ∀ m ∈ deps n, m ∈ remaining → rank m < rank n)
    (hfuel : remaining.length ≤ fuel) : (layers deps fuel remaining).isSome := by
  induction fuel generalizing remaining with
  | zero =>
    obtain rfl := length_eq_zero_iff.mp (Nat.le_zero.mp hfuel)
    rfl
  | succ fuel ih =>
    cases remaining with
    | nil => rfl
    | cons n ns =>
      -- A node of least rank depends on no remaining node.
      obtain ⟨least, hleast⟩ := Option.ne_none_iff_exists'.mp
        (mt argmin_eq_none.mp (cons_ne_nil n ns) : List.argmin rank (n :: ns) ≠ none)
      have hmem : least ∈ n :: ns := argmin_mem hleast
      have hready : least ∈ readyNodes deps (n :: ns) := by
        refine mem_filter.mpr ⟨hmem, all_eq_true.mpr fun m hm => ?_⟩
        rw [decide_eq_true_eq]
        intro hmr
        have hlt := hrank least hmem m hm hmr
        have hle := le_of_mem_argmin hmr hleast
        omega
      have hne : readyNodes deps (n :: ns) ≠ [] := ne_nil_of_mem hready
      rw [layers, if_neg hne, Option.isSome_map]
      · refine ih (fun k hk m hm hmr => ?_) ?_
        · exact hrank k (mem_of_mem_filter hk) m hm (mem_of_mem_filter hmr)
        · have hlen := (perm_ready_append deps (n :: ns)).length_eq
          have hpos := length_pos_iff.mpr hne
          rw [length_append] at hlen
          omega
      · simp

end Layers

/-! ## Lists in dependency order -/

section Behind

variable {α κ : Type} {names deps : α → List κ}

/-- Every element stands behind what it depends on: the names in `known` and
those of the elements before it. -/
def Behind (names deps : α → List κ) : List κ → List α → Prop
  | _, [] => True
  | known, a :: rest =>
    (∀ d ∈ deps a, d ∈ known) ∧ Behind names deps (names a ++ known) rest

/-- More may be known, and what is known may be depended on. -/
theorem Behind.extend {deps' : α → List κ} {known known' : List κ} {l : List α}
    (h : Behind names deps known l) (hsub : ∀ d ∈ known, d ∈ known')
    (hdeps : ∀ a ∈ l, ∀ d ∈ deps' a, d ∈ deps a ∨ d ∈ known') :
    Behind names deps' known' l := by
  induction l generalizing known known' with
  | nil => trivial
  | cons a rest ih =>
    refine ⟨fun d hd => ?_, ih h.2 (fun d hd => ?_) fun b hb d hd => ?_⟩
    · rcases hdeps a mem_cons_self d hd with hd | hd
      · exact hsub d (h.1 d hd)
      · exact hd
    · rcases mem_append.mp hd with hd | hd
      · exact mem_append_left _ hd
      · exact mem_append_right _ (hsub d hd)
    · exact (hdeps b (mem_cons_of_mem a hb) d hd).imp_right (mem_append_right _)

theorem Behind.mono {known known' : List κ} {l : List α} (hsub : ∀ d ∈ known, d ∈ known')
    (h : Behind names deps known l) : Behind names deps known' l :=
  h.extend hsub fun _ _ _ => .inl

theorem Behind.append {known : List κ} {l l' : List α} (h : Behind names deps known l)
    (h' : Behind names deps (l.flatMap names ++ known) l') :
    Behind names deps known (l ++ l') := by
  induction l generalizing known with
  | nil => exact h'
  | cons a rest ih =>
    refine ⟨h.1, ih h.2 (h'.mono fun d hd => ?_)⟩
    simp only [flatMap_cons, mem_append] at hd ⊢
    tauto

theorem Behind.of_append {known : List κ} {l l' : List α}
    (h : Behind names deps known (l ++ l')) : Behind names deps known l := by
  induction l generalizing known with
  | nil => trivial
  | cons a rest ih => exact ⟨h.1, ih h.2⟩

theorem Behind.mem_of_deps {known : List κ} {l : List α} (h : Behind names deps known l) {a : α}
    (ha : a ∈ l) {d : κ} (hd : d ∈ deps a) : d ∈ l.flatMap names ∨ d ∈ known := by
  induction l generalizing known with
  | nil => cases ha
  | cons b rest ih =>
    rw [flatMap_cons, mem_append]
    rcases mem_cons.mp ha with rfl | ha
    · exact .inr (h.1 d hd)
    · have hmem := ih h.2 ha
      rw [mem_append] at hmem
      tauto

theorem behind_of_forall {known : List κ} {l : List α} (h : ∀ a ∈ l, ∀ d ∈ deps a, d ∈ known) :
    Behind names deps known l := by
  induction l generalizing known with
  | nil => trivial
  | cons a rest ih =>
    refine ⟨h a mem_cons_self, ih fun b hb d hd => mem_append_right _ ?_⟩
    exact h b (mem_cons_of_mem a hb) d hd

theorem behind_map {β : Type} {f : β → α} {known : List κ} {l : List β} :
    Behind names deps known (l.map f) ↔
      Behind (fun b => names (f b)) (fun b => deps (f b)) known l := by
  induction l generalizing known with
  | nil => exact Iff.rfl
  | cons b rest ih => exact and_congr_right fun _ => ih

theorem Behind.rename {κ' : Type} (g : κ → κ') {known : List κ} {l : List α}
    (h : Behind names deps known l) :
    Behind (fun a => (names a).map g) (fun a => (deps a).map g) (known.map g) l := by
  induction l generalizing known with
  | nil => trivial
  | cons a rest ih =>
    refine ⟨fun d hd => ?_, by rw [← map_append]; exact ih h.2⟩
    obtain ⟨k, hk, rfl⟩ := mem_map.mp hd
    exact mem_map_of_mem (h.1 k hk)

/-- The layers come in dependency order. -/
theorem layers_behind [DecidableEq ν] {deps : ν → List ν} {fuel : Nat}
    {remaining out known : List ν} (h : layers deps fuel remaining = some out)
    (hdeps : ∀ n ∈ remaining, ∀ d ∈ deps n, d ∈ remaining ∨ d ∈ known) :
    Behind (fun n => [n]) deps known out := by
  induction fuel generalizing remaining out known with
  | zero =>
    cases remaining with
    | nil =>
      obtain rfl : [] = out := by simpa [layers] using h
      trivial
    | cons n ns => simp [layers] at h
  | succ fuel ih =>
    cases remaining with
    | nil =>
      obtain rfl : [] = out := by simpa [layers] using h
      trivial
    | cons n ns =>
      rw [layers] at h
      · split at h
        · simp at h
        · obtain ⟨rest, hrest, rfl⟩ := Option.map_eq_some_iff.mp h
          refine Behind.append (behind_of_forall fun k hk d hd => ?_) (ih hrest ?_)
          · obtain ⟨hmem, hready⟩ := mem_filter.mp hk
            have hgone := of_decide_eq_true (all_eq_true.mp hready d hd)
            exact (hdeps k hmem d hd).resolve_left hgone
          · intro k hk d hd
            rcases hdeps k (mem_of_mem_filter hk) d hd with hd | hd
            · by_cases hready : d ∈ readyNodes deps (n :: ns)
              · exact .inr (mem_append_left _ (by simpa using hready))
              · exact .inl (mem_filter.mpr ⟨hd, decide_eq_true hready⟩)
            · exact .inr (mem_append_right _ hd)
      · simp

end Behind

end DependencyOrder
