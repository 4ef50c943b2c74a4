import Mathlib.Data.List.Forall2

/-!
# Checks that fail with an error

A validation is a chain of tests in `Except`, each of which stops the chain
with its own error.  The lemmas say when such a chain goes through.  A loop that
is bounded by fuel has settled where more of it makes no difference.
-/

namespace Check

open List

variable {ε α β : Type}

/-- Stop with `e` if `p` holds. -/
def failIf (p : Prop) [Decidable p] (e : ε) : Except ε Unit := if p then .error e else .ok ()

/-- A test of the value, if there is one. -/
def ifSome (o : Option α) (f : α → Except ε Unit) : Except ε Unit :=
  match o with
  | none => .ok ()
  | some a => f a

/-- Every element passes, the first failure being the one reported. -/
def each (f : α → Except ε Unit) : List α → Except ε Unit
  | [] => .ok ()
  | a :: as => f a >>= fun _ => each f as

/-- More fuel than this does not change the answer of a loop. -/
def Settled {α : Type} (loop : Nat → α) (fuel : Nat) : Prop :=
  ∀ extra, loop (fuel + extra) = loop fuel

/-- A loop that takes one step and goes on like a settled one. -/
theorem Settled.of_step {loop rest : Nat → α} {fuel : Nat} (hstep : ∀ n, loop (n + 1) = rest n)
    (h : Settled rest fuel) : Settled loop (fuel + 1) := by
  intro extra
  rw [Nat.add_right_comm, hstep, hstep, h extra]

@[simp] theorem bind_eq_ok {x : Except ε α} {f : α → Except ε β} {b : β} :
    (x >>= f) = .ok b ↔ ∃ a, x = .ok a ∧ f a = .ok b := by
  cases x with
  | error e => simp [bind, Except.bind]
  | ok a => simp [bind, Except.bind]

/-- A chain fails with `e` only where one of its parts does. -/
theorem bind_ne_error {x : Except ε α} {f : α → Except ε β} {e : ε} (hx : x ≠ .error e)
    (hf : ∀ a, x = .ok a → f a ≠ .error e) : (x >>= f) ≠ .error e := by
  cases x with
  | error e' => exact fun h => hx (congrArg Except.error (Except.error.inj h))
  | ok a => exact hf a rfl

theorem exists_error_of_ne_ok {x : Except ε α} (h : ∀ a, x ≠ .ok a) : ∃ e, x = .error e := by
  cases x with
  | error e => exact ⟨e, rfl⟩
  | ok a => exact absurd rfl (h a)

@[simp] theorem map_eq_ok {x : Except ε α} {f : α → β} {b : β} :
    x.map f = .ok b ↔ ∃ a, x = .ok a ∧ f a = b := by
  cases x <;> simp [Except.map]

@[simp] theorem mapError_eq_ok {ε' : Type} {x : Except ε α} {f : ε → ε'} {a : α} :
    x.mapError f = .ok a ↔ x = .ok a := by
  cases x <;> simp [Except.mapError]

@[simp] theorem failIf_eq_ok {p : Prop} [Decidable p] {e : ε} {u : Unit} :
    failIf p e = .ok u ↔ ¬ p := by
  unfold failIf
  split <;> simp [*]

@[simp] theorem ifSome_eq_ok {o : Option α} {f : α → Except ε Unit} {u : Unit} :
    ifSome o f = .ok u ↔ ∀ a ∈ o, f a = .ok () := by
  cases o <;> simp [ifSome]

@[simp] theorem each_eq_ok {f : α → Except ε Unit} {as : List α} {u : Unit} :
    each f as = .ok u ↔ ∀ a ∈ as, f a = .ok () := by
  induction as with
  | nil => simp [each]
  | cons a as ih =>
    rw [each, bind_eq_ok, forall_mem_cons, ← ih]
    exact ⟨fun ⟨(), ha, has⟩ => ⟨ha, has⟩, fun ⟨ha, has⟩ => ⟨(), ha, has⟩⟩

/-- What every successful step of a fold preserves, the whole fold preserves. -/
theorem foldlM_invariant {f : β → α → Except ε β} (P : β → Prop) {as : List α} {b b' : β}
    (hstep : ∀ b a b', a ∈ as → P b → f b a = .ok b' → P b') (hb : P b)
    (h : as.foldlM f b = .ok b') : P b' := by
  induction as generalizing b with
  | nil =>
    obtain rfl : b = b' := by simpa [pure, Except.pure] using h
    exact hb
  | cons a as ih =>
    rw [foldlM_cons, bind_eq_ok] at h
    obtain ⟨c, hc, hrest⟩ := h
    refine ih (fun b a b' ha => hstep b a b' (mem_cons_of_mem _ ha)) ?_ hrest
    exact hstep b a c mem_cons_self hb hc

/-- A fold whose steps take in one element each takes in the list. -/
theorem foldlM_collect {f : β → α → Except ε β} {P : β → List α → Prop}
    (hstep : ∀ {b b' done a}, P b done → f b a = .ok b' → P b' (done ++ [a])) {as : List α}
    {b b' : β} {done : List α} (hb : P b done) (h : as.foldlM f b = .ok b') :
    P b' (done ++ as) := by
  induction as generalizing b done with
  | nil =>
    cases h
    rwa [append_nil]
  | cons a as ih =>
    rw [foldlM_cons, bind_eq_ok] at h
    obtain ⟨c, hc, hrest⟩ := h
    have hall := ih (hstep hb hc) hrest
    rwa [append_assoc] at hall

/-- A fold along the states that its beginnings lead to. -/
theorem foldlM_trace {f : β → α → Except ε β} {state : List α → β} {as : List α}
    (hstep : ∀ before a after, as = before ++ a :: after →
      f (state before) a = .ok (state (before ++ [a]))) :
    as.foldlM f (state []) = .ok (state as) := by
  suffices hrun : ∀ before after, as = before ++ after →
      after.foldlM f (state before) = .ok (state as) from hrun [] as rfl
  intro before after
  induction after generalizing before with
  | nil =>
    rintro rfl
    rw [append_nil]
    rfl
  | cons a after ih =>
    intro has
    rw [foldlM_cons, hstep before a after has]
    exact ih (before ++ [a]) (by rw [has, append_assoc]; rfl)

/-- What holds of the value of a chain, or of its error. -/
def Either (ok : α → Prop) (error : ε → Prop) : Except ε α → Prop
  | .ok a => ok a
  | .error e => error e

theorem Either.bind {ok : α → Prop} {ok' : β → Prop} {error : ε → Prop} {x : Except ε α}
    {f : α → Except ε β} (hx : Either ok error x) (hf : ∀ a, ok a → Either ok' error (f a)) :
    Either ok' error (x >>= f) := by
  cases x with
  | error e => exact hx
  | ok a => exact hf a hx

theorem Either.foldlM {ok : β → Prop} {error : ε → Prop} {f : β → α → Except ε β} {as : List α}
    (hstep : ∀ b a, ok b → Either ok error (f b a)) {b : β} (hb : ok b) :
    Either ok error (as.foldlM f b) := by
  induction as generalizing b with
  | nil => exact hb
  | cons a as ih =>
    rw [foldlM_cons]
    exact (hstep b a hb).bind fun _ => ih

theorem mapM_eq_ok {f : α → Except ε β} {as : List α} {bs : List β} :
    as.mapM f = .ok bs ↔ List.Forall₂ (fun a b => f a = .ok b) as bs := by
  induction as generalizing bs with
  | nil =>
    rw [mapM_nil, forall₂_nil_left_iff]
    exact ⟨fun h => (Except.ok.inj h).symm, fun h => congrArg Except.ok h.symm⟩
  | cons a as ih =>
    simp only [mapM_cons, bind_eq_ok, pure, Except.pure, Except.ok.injEq,
      forall₂_cons_left_iff, ih]
    constructor
    · rintro ⟨b, hb, bs', hbs', rfl⟩
      exact ⟨b, bs', hb, hbs', rfl⟩
    · rintro ⟨b, bs', hb, hbs', rfl⟩
      exact ⟨b, hb, bs', hbs', rfl⟩

theorem exists_mem_of_mapM {f : α → Except ε β} {as : List α} {bs : List β}
    (h : as.mapM f = .ok bs) {a : α} (ha : a ∈ as) : ∃ b ∈ bs, f a = .ok b := by
  have hall := mapM_eq_ok.mp h
  clear h
  induction hall with
  | nil => cases ha
  | cons hab _ ih =>
    rcases mem_cons.mp ha with rfl | ha
    · exact ⟨_, mem_cons_self, hab⟩
    · obtain ⟨b, hb, hfb⟩ := ih ha
      exact ⟨b, mem_cons_of_mem _ hb, hfb⟩

/-- The results as a function of the elements. -/
theorem exists_map_of_mapM [Inhabited β] {f : α → Except ε β} {as : List α} {bs : List β}
    (h : as.mapM f = .ok bs) : ∃ g : α → β, (∀ a ∈ as, f a = .ok (g a)) ∧ bs = as.map g := by
  let g : α → β := fun a => (f a).toOption.getD default
  have hg : ∀ {a : α} {b : β}, f a = .ok b → g a = b := by
    intro a b hab
    show (f a).toOption.getD default = b
    rw [hab]
    rfl
  refine ⟨g, fun a ha => ?_, ?_⟩
  · obtain ⟨b, -, hab⟩ := exists_mem_of_mapM h ha
    rw [hab, hg hab]
  · have hall := mapM_eq_ok.mp h
    clear h
    induction hall with
    | nil => rfl
    | cons hab _ ih => rw [map_cons, ← ih, hg hab]

/-! ## Collecting the parts of a result -/

/-- The parts one after the other, up to the first error. -/
def gather (f : α → Except ε (List β)) : List α → Except ε (List β)
  | [] => .ok []
  | a :: as => (f a).bind fun part => (gather f as).map (part ++ ·)

theorem gather_eq_mapM (f : α → Except ε (List β)) (as : List α) :
    gather f as = (as.mapM f).map List.flatten := by
  induction as with
  | nil => rfl
  | cons a as ih =>
    rw [gather, ih, mapM_cons]
    cases f a with
    | error e => rfl
    | ok part => cases as.mapM f <;> rfl

/-- What has nothing to give may be left out. -/
theorem gather_filter {f : α → Except ε (List β)} {p : α → Bool}
    (h : ∀ a, p a = false → f a = .ok []) (as : List α) :
    gather f (as.filter p) = gather f as := by
  induction as with
  | nil => rfl
  | cons a as ih =>
    cases ha : p a with
    | true => rw [filter_cons_of_pos ha, gather, gather, ih]
    | false =>
      rw [filter_cons_of_neg (by simp [ha]), gather, ih, h a ha]
      cases gather f as <;> rfl

theorem gather_of_forall₂ {γ : Type} {f : α → Except ε (List β)} {g : γ → List β} {as : List α}
    {cs : List γ} (h : List.Forall₂ (fun a c => f a = .ok (g c)) as cs) :
    gather f as = .ok (cs.flatMap g) := by
  induction h with
  | nil => rfl
  | cons hac _ ih =>
    rw [gather, hac, ih, flatMap_cons]
    rfl

end Check
