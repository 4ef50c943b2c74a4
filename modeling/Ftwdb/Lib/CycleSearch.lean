import Mathlib.Algebra.Order.BigOperators.Group.List
import Mathlib.Algebra.Order.Group.Nat
import Mathlib.Logic.Relation
import Mathlib.Data.List.Nodup
import Mathlib.Data.List.Perm.Subperm
import Ftwdb.Lib.Check
import Ftwdb.Lib.DependencyOrder

/-!
# Exact cycle tests

`chain` and `visitAll` fail exactly on graphs with a cycle, and the node they
report lies on one (`chain_spec`, `visitAll_spec`).  For the search this rests
on the invariant that the open nodes of the stack are the active ones and form
the path to its top (`PathInv`).

Both functions carry fuel.  With as much of it as there are nodes and links the
answer is the one of every larger amount, so the loops they stand for end.
-/

namespace DependencyOrder

open Check List Relation

variable {ν : Type}

/-- `m` is one of the nodes that `n` depends on. -/
def Link (links : ν → List ν) (n m : ν) : Prop := m ∈ links n

/-- Some node depends on itself, at a distance. -/
def Cyclic (links : ν → List ν) : Prop := ∃ n, TransGen (Link links) n n

/-- Links that go down in rank have no cycle. -/
theorem not_transGen_of_rank {link : ν → ν → Prop} (rank : ν → Nat)
    (h : ∀ a b, link a b → rank b < rank a) (a : ν) : ¬ TransGen link a a := by
  have hdown : ∀ b, TransGen link a b → rank b < rank a := by
    intro b hab
    induction hab with
    | single hlink => exact h _ _ hlink
    | tail _ hlink ih => exact Nat.lt_trans (h _ _ hlink) ih
  exact fun hcycle => Nat.lt_irrefl _ (hdown a hcycle)

/-! ## Chains -/

section Chain

variable {next : ν → Option ν} {nodes : List ν}

/-- The nodes seen are distinct and lead to the current one. -/
structure ChainInv (next : ν → Option ν) (seen : List ν) (current : Option ν) : Prop where
  nodup : seen.Nodup
  leads : ∀ n, current = some n → ∀ k ∈ seen, TransGen (Link fun n => (next n).toList) k n

theorem ChainInv.advance {seen : List ν} {n : ν} (h : ChainInv next seen (some n))
    (hn : n ∉ seen) : ChainInv next (n :: seen) (next n) := by
  refine ⟨nodup_cons.mpr ⟨hn, h.nodup⟩, fun m hm => ?_⟩
  have hlink : Link (fun n => (next n).toList) n m := Option.mem_toList.mpr hm
  intro k hk
  rcases mem_cons.mp hk with rfl | hk
  · exact .single hlink
  · exact (h.leads n rfl k hk).tail hlink

/-- A node that leads anywhere is one of the nodes with a link. -/
theorem mem_of_transGen (hnodes : ∀ n m, next n = some m → n ∈ nodes) {k n : ν}
    (h : TransGen (Link fun n => (next n).toList) k n) : k ∈ nodes := by
  obtain ⟨m, hm, -⟩ := TransGen.head'_iff.mp h
  exact hnodes k m (Option.mem_toList.mp hm)

variable [DecidableEq ν]

/-- A chain that fails has met a cycle, and more fuel does not change it. -/
theorem chain_spec (hnodes : ∀ n m, next n = some m → n ∈ nodes) {fuel : Nat} {seen : List ν}
    {current : Option ν} (hinv : ChainInv next seen current)
    (hfuel : nodes.length + 1 ≤ fuel + seen.length) :
    Either (fun _ => True) (fun n => TransGen (Link fun n => (next n).toList) n n)
      (chain next fuel seen current) ∧
    Settled (fun fuel => chain next fuel seen current) fuel := by
  induction fuel generalizing seen current with
  | zero =>
    cases current with
    | none => exact ⟨trivial, fun extra => by cases extra <;> rfl⟩
    | some n =>
      have hsub : seen ⊆ nodes := fun k hk => mem_of_transGen hnodes (hinv.leads n rfl k hk)
      have hle := (hinv.nodup.subperm hsub).length_le
      omega
  | succ fuel ih =>
    cases current with
    | none => exact ⟨trivial, fun extra => by rw [Nat.add_right_comm]; rfl⟩
    | some n =>
      by_cases hn : n ∈ seen
      · have hstop : ∀ fuel, chain next (fuel + 1) seen (some n) = .error n :=
          fun fuel => by rw [chain, if_pos hn]
        refine ⟨?_, .of_step hstop fun _ => rfl⟩
        rw [hstop]
        exact hinv.leads n rfl n hn
      · have hstep : ∀ fuel, chain next (fuel + 1) seen (some n) =
            chain next fuel (n :: seen) (next n) := fun fuel => by rw [chain, if_neg hn]
        obtain ⟨hend, hmore⟩ := ih (hinv.advance hn) (by rw [length_cons]; omega)
        refine ⟨?_, .of_step hstep hmore⟩
        rw [hstep]
        exact hend

/-- Chains from all nodes go through exactly if there is no cycle. -/
theorem chain_ok_iff (hnodes : ∀ n m, next n = some m → n ∈ nodes) {fuel : Nat}
    (hfuel : nodes.length + 1 ≤ fuel) :
    (∀ n ∈ nodes, chain next fuel [] (some n) = .ok ()) ↔
      ¬ Cyclic fun n => (next n).toList := by
  constructor
  · intro hok hcyclic
    obtain ⟨rank, hrank⟩ := exists_rank_of_ends next
    obtain ⟨n, hn⟩ := hcyclic
    refine not_transGen_of_rank rank (fun a b hab => ?_) n hn
    have hb : next a = some b := Option.mem_toList.mp hab
    exact hrank a b hb (chain_ok_ends (hok a (hnodes a b hb)))
  · intro hacyclic n _
    have hinv : ChainInv next [] (some n) := ⟨nodup_nil, by simp⟩
    have hspec := (chain_spec hnodes hinv hfuel).1
    cases hchain : chain next fuel [] (some n) with
    | ok u => rfl
    | error e =>
      rw [hchain] at hspec
      exact absurd ⟨e, hspec⟩ hacyclic

end Chain

/-! ## Depth-first search -/

section Search

variable {links : ν → List ν}

/-- The first open node of a stack. -/
def nextOpen (stack : List (ν × Bool)) : Option ν := (stack.find? Prod.snd).map Prod.fst

/-- Every node of the stack is a link of the first open one below it. -/
def Hangs (links : ν → List ν) : List (ν × Bool) → Prop
  | [] => True
  | (n, _) :: stack => (∀ k, nextOpen stack = some k → Link links k n) ∧ Hangs links stack

theorem hangs_push {n : ν} {stack : List (ν × Bool)} (new : List ν)
    (hnew : ∀ m ∈ new, Link links n m) (h : Hangs links ((n, true) :: stack)) :
    Hangs links (new.map (fun m => (m, false)) ++ (n, true) :: stack) ∧
      nextOpen (new.map (fun m => (m, false)) ++ (n, true) :: stack) = some n := by
  induction new with
  | nil => exact ⟨h, rfl⟩
  | cons m new ih =>
    obtain ⟨hrest, hopen⟩ := ih fun k hk => hnew k (mem_cons_of_mem m hk)
    refine ⟨⟨fun k hk => ?_, hrest⟩, hopen⟩
    obtain rfl : n = k := Option.some.inj (hopen.symm.trans hk)
    exact hnew m mem_cons_self

/-- An open node leads to every node that hangs above it. -/
theorem transGen_of_open {n m : ν} {b : Bool} {stack : List (ν × Bool)}
    (h : Hangs links ((m, b) :: stack)) (hn : (n, true) ∈ stack) :
    TransGen (Link links) n m := by
  induction stack generalizing m b with
  | nil => cases hn
  | cons top stack ih =>
    obtain ⟨k, opened⟩ := top
    cases opened with
    | true =>
      have hlink : Link links k m := h.1 k rfl
      rcases mem_cons.mp hn with heq | hn
      · cases heq
        exact .single hlink
      · exact (ih h.2 hn).tail hlink
    | false =>
      rcases mem_cons.mp hn with heq | hn
      · cases heq
      · exact ih (b := b) ⟨h.1, h.2.2⟩ hn

variable [Ord ν] [Std.TransOrd ν]

/-- The active nodes are open on the stack, and the open ones form a path. -/
structure PathInv (links : ν → List ν) (states : Std.ExtTreeMap ν VisitState)
    (stack : List (ν × Bool)) : Prop where
  active_open : ∀ n, states[n]? = some .active → (n, true) ∈ stack
  hangs : Hangs links stack

theorem PathInv.empty : PathInv links ∅ [] := ⟨by simp, trivial⟩

theorem PathInv.skip {states : Std.ExtTreeMap ν VisitState} {stack : List (ν × Bool)} {n : ν}
    (h : PathInv links states ((n, false) :: stack)) :
    PathInv links states stack := by
  refine ⟨fun m hm => ?_, h.hangs.2⟩
  rcases mem_cons.mp (h.active_open m hm) with heq | hmem
  · cases heq
  · exact hmem

/-- The pops still to come from nodes that have not been met: one to close each
and one for each of its links. -/
def pending (links : ν → List ν) (nodes : List ν) (states : Std.ExtTreeMap ν VisitState) : Nat :=
  (nodes.map fun n => if states[n]?.isNone then (links n).length + 1 else 0).sum

theorem pending_le (links : ν → List ν) (nodes : List ν) (states : Std.ExtTreeMap ν VisitState) :
    pending links nodes states ≤ (nodes.map fun n => (links n).length + 1).sum := by
  refine sum_le_sum fun n _ => ?_
  split
  · exact Nat.le_refl _
  · exact Nat.zero_le _

theorem pending_insert_le (links : ν → List ν) (nodes : List ν)
    (states : Std.ExtTreeMap ν VisitState) (n : ν) (state : VisitState) :
    pending links nodes (states.insert n state) ≤ pending links nodes states := by
  refine sum_le_sum fun m _ => ?_
  rw [Std.ExtTreeMap.getElem?_insert]
  split
  · exact Nat.zero_le _
  · exact Nat.le_refl _

variable [Std.LawfulEqOrd ν]

section Step

variable {states : Std.ExtTreeMap ν VisitState} {stack : List (ν × Bool)} {n : ν}

theorem PathInv.close (h : PathInv links states ((n, true) :: stack)) :
    PathInv links (states.insert n .complete) stack := by
  refine ⟨fun m hm => ?_, h.hangs.2⟩
  rw [Std.ExtTreeMap.getElem?_insert] at hm
  split at hm
  · cases hm
  · next hne =>
    rcases mem_cons.mp (h.active_open m hm) with heq | hmem
    · cases heq
      exact absurd Std.ReflOrd.compare_self hne
    · exact hmem

theorem PathInv.openNode (h : PathInv links states ((n, false) :: stack)) :
    PathInv links (states.insert n .active)
      ((links n).map (fun m => (m, false)) ++ (n, true) :: stack) := by
  refine ⟨fun m hm => mem_append_right _ ?_, (hangs_push (links n) (fun _ hm => hm) ?_).1⟩
  · rw [Std.ExtTreeMap.getElem?_insert] at hm
    split at hm
    · next heq =>
      obtain rfl := Std.LawfulEqOrd.eq_of_compare heq
      exact mem_cons_self
    · exact mem_cons_of_mem _ (h.skip.active_open m hm)
  · exact h.hangs

end Step

theorem pending_insert (links : ν → List ν) {nodes : List ν}
    {states : Std.ExtTreeMap ν VisitState} {n : ν} (state : VisitState) (hn : n ∈ nodes)
    (hnew : states[n]? = none) :
    pending links nodes (states.insert n state) + ((links n).length + 1) ≤
      pending links nodes states := by
  induction nodes with
  | nil => cases hn
  | cons k nodes ih =>
    have hrest := pending_insert_le links nodes states n state
    rw [pending, pending, map_cons, map_cons, sum_cons, sum_cons,
      ← pending, ← pending, Std.ExtTreeMap.getElem?_insert]
    rcases mem_cons.mp hn with rfl | hn
    · rw [if_pos Std.ReflOrd.compare_self, hnew]
      simp only [Option.isNone_some, Option.isNone_none, if_true, Bool.false_eq_true, if_false]
      omega
    · have := ih hn
      split
      · simp only [Option.isNone_some, Bool.false_eq_true, if_false]
        omega
      · omega

/-- A search that fails has met a cycle, one that succeeds leaves no active node
behind, and more fuel does not change it. -/
theorem visit_spec {nodes : List ν} (hclosed : ∀ n, ∀ m ∈ links n, m ∈ nodes) {fuel : Nat}
    {states : Std.ExtTreeMap ν VisitState} {stack : List (ν × Bool)}
    (hinv : PathInv links states stack) (hstack : ∀ p ∈ stack, p.1 ∈ nodes)
    (hfuel : stack.length + pending links nodes states ≤ fuel) :
    Either (fun states' => PathInv links states' []) (fun n => TransGen (Link links) n n)
      (visit links fuel states stack) ∧
    Settled (fun fuel => visit links fuel states stack) fuel := by
  induction fuel generalizing states stack with
  | zero =>
    cases stack with
    | nil => exact ⟨hinv, fun extra => by cases extra <;> rfl⟩
    | cons top stack => simp at hfuel
  | succ fuel ih =>
    cases stack with
    | nil => exact ⟨hinv, fun extra => by rw [Nat.add_right_comm]; rfl⟩
    | cons top stack =>
      obtain ⟨n, opened⟩ := top
      rw [length_cons] at hfuel
      have htail : ∀ p ∈ stack, p.1 ∈ nodes := fun p hp => hstack p (mem_cons_of_mem _ hp)
      cases opened with
      | true =>
        have hle := pending_insert_le links nodes states n .complete
        obtain ⟨hend, hmore⟩ := ih hinv.close htail (by omega)
        exact ⟨hend, .of_step (fun _ => rfl) hmore⟩
      | false =>
        cases hn : states[n]? with
        | none =>
          have hnode : n ∈ nodes := hstack (n, false) mem_cons_self
          have hle := pending_insert links .active hnode hn
          obtain ⟨hend, hmore⟩ := ih hinv.openNode
            (fun p hp => by
              rcases mem_append.mp hp with hp | hp
              · obtain ⟨m, hm, rfl⟩ := mem_map.mp hp
                exact hclosed n m hm
              · rcases mem_cons.mp hp with rfl | hp
                · exact hnode
                · exact htail p hp)
            (by
              rw [length_append, length_map, length_cons]
              omega)
          exact ⟨by rw [visit, hn]; exact hend, .of_step (fun _ => by rw [visit, hn]) hmore⟩
        | some state =>
          cases state with
          | complete =>
            obtain ⟨hend, hmore⟩ := ih hinv.skip htail (by omega)
            exact ⟨by rw [visit, hn]; exact hend, .of_step (fun _ => by rw [visit, hn]) hmore⟩
          | active =>
            -- An active node is open further down, so it leads back to itself.
            have hopen : (n, true) ∈ stack := hinv.skip.active_open n hn
            have hstop : ∀ fuel, visit links (fuel + 1) states ((n, false) :: stack) = .error n :=
              fun fuel => by rw [visit, hn]
            refine ⟨?_, .of_step hstop fun _ => rfl⟩
            rw [hstop]
            exact transGen_of_open hinv.hangs hopen

theorem visitAll_spec {nodes : List ν} (hclosed : ∀ n, ∀ m ∈ links n, m ∈ nodes) {fuel : Nat}
    (hfuel : 1 + (nodes.map fun n => (links n).length + 1).sum ≤ fuel) {roots : List ν}
    (hroots : ∀ n ∈ roots, n ∈ nodes) {states : Std.ExtTreeMap ν VisitState}
    (hinv : PathInv links states []) :
    Either (fun states' => PathInv links states' []) (fun n => TransGen (Link links) n n)
      (visitAll links fuel states roots) ∧
    Settled (fun fuel => visitAll links fuel states roots) fuel := by
  induction roots generalizing states with
  | nil => exact ⟨hinv, fun _ => rfl⟩
  | cons root roots ih =>
    have ih := fun states => @ih (fun n hn => hroots n (mem_cons_of_mem root hn)) states
    by_cases hroot : states[root]? = some .complete
    · obtain ⟨hend, hmore⟩ := ih states hinv
      refine ⟨by rw [visitAll, if_pos hroot]; exact hend, fun extra => ?_⟩
      show visitAll links (fuel + extra) states (root :: roots) =
        visitAll links fuel states (root :: roots)
      rw [visitAll, visitAll, if_pos hroot, if_pos hroot]
      exact hmore extra
    · have hstart : PathInv links states [(root, false)] := by
        refine ⟨fun n hn => ?_, fun k hk => ?_, trivial⟩
        · cases hinv.active_open n hn
        · cases hk
      have hle := pending_le links nodes states
      obtain ⟨hend, hmore⟩ := @visit_spec _ links _ _ _ nodes hclosed fuel _ _ hstart
        (by simpa using hroots root mem_cons_self)
        (by rw [length_singleton]; omega)
      refine ⟨?_, fun extra => ?_⟩
      · rw [visitAll, if_neg hroot]
        exact hend.bind fun states' hstates' => (ih states' hstates').1
      · have hmore : visit links (fuel + extra) states [(root, false)] =
            visit links fuel states [(root, false)] := hmore extra
        show visitAll links (fuel + extra) states (root :: roots) =
          visitAll links fuel states (root :: roots)
        rw [visitAll, visitAll, if_neg hroot, if_neg hroot, hmore]
        cases hvisit : visit links fuel states [(root, false)] with
        | error e => rfl
        | ok states' =>
          rw [hvisit] at hend
          exact (ih states' hend).2 extra

/-- The search from all nodes goes through exactly if there is no cycle. -/
theorem visitAll_ok_iff {nodes : List ν} (hclosed : ∀ n, ∀ m ∈ links n, m ∈ nodes)
    (hnodes : ∀ n m, m ∈ links n → n ∈ nodes) {fuel : Nat}
    (hfuel : 1 + (nodes.map fun n => (links n).length + 1).sum ≤ fuel) :
    (∃ states, visitAll links fuel ∅ nodes = .ok states) ↔ ¬ Cyclic links := by
  constructor
  · rintro ⟨states, hok⟩ ⟨n, hn⟩
    obtain ⟨rank, hrank⟩ := exists_rank_of_visitAll hok
    exact not_transGen_of_rank rank (fun a b hab => hrank a (hnodes a b hab) b hab) n hn
  · intro hacyclic
    have hspec := (visitAll_spec hclosed hfuel (fun _ hn => hn) PathInv.empty).1
    cases hvisit : visitAll links fuel ∅ nodes with
    | ok states => exact ⟨states, rfl⟩
    | error e =>
      rw [hvisit] at hspec
      exact absurd ⟨e, hspec⟩ hacyclic

end Search

end DependencyOrder
