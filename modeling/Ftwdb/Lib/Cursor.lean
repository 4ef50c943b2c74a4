import Ftwdb.Lib.Bytes
import Ftwdb.Lib.Check
import Ftwdb.Lib.Postcard
import Mathlib.Data.List.Perm.Subperm

/-!
# Writers and readers of a byte stream

A writer gives the bytes it appends, or an error.  A reader takes a value from a
byte string at a cursor and moves the cursor behind it; it can fail, and where
the program it stands for would stop with a panic it panics.

`Accepts get R` is all there is to say about a reader: it succeeds exactly where
`R` relates the value to the bytes it takes and to the bytes left behind them,
and it never panics.  A reader made of others accepts what the rules below
compose, and it undoes a writer in both directions if the relation that comes
out is the graph of the writer (`Undoes`).
-/

namespace ByteCodec

open Check List

/-! ## Big-endian words -/

/-- A 16-bit word in big-endian order. -/
def beU16 (x : UInt16) : Bytes := (leU16 x).reverse

/-- A 32-bit word. -/
def beU32 (x : UInt32) : Bytes := (leU32 x).reverse

/-- A 64-bit word. -/
def beU64 (x : UInt64) : Bytes := (leU64 x).reverse

/-- A 128-bit word. -/
def beU128 (x : BitVec 128) : Bytes := (leU128 x).reverse

/-- A signed 64-bit word, in two's complement. -/
def beI64 (x : Int64) : Bytes := beU64 x.toUInt64

/-- The word that two bytes spell. -/
def readBeU16 (bs : Bytes) : UInt16 := readU16 bs.reverse

/-- The word that four bytes spell. -/
def readBeU32 (bs : Bytes) : UInt32 := readU32 bs.reverse

/-- The word that eight bytes spell. -/
def readBeU64 (bs : Bytes) : UInt64 := readU64 bs.reverse

/-- The word that sixteen bytes spell. -/
def readBeU128 (bs : Bytes) : BitVec 128 := readU128 bs.reverse

/-- The signed word that eight bytes spell. -/
def readBeI64 (bs : Bytes) : Int64 := (readBeU64 bs).toInt64

@[simp] theorem length_beU16 (x : UInt16) : (beU16 x).length = 2 := by simp [beU16]

@[simp] theorem length_beU32 (x : UInt32) : (beU32 x).length = 4 := by simp [beU32]

@[simp] theorem length_beU64 (x : UInt64) : (beU64 x).length = 8 := by simp [beU64]

@[simp] theorem length_beU128 (x : BitVec 128) : (beU128 x).length = 16 := by simp [beU128]

@[simp] theorem length_beI64 (x : Int64) : (beI64 x).length = 8 := length_beU64 _

/-- Bytes of the right length are the word they spell backwards. -/
theorem eq_read_reverse {α : Type} {k : Nat} {spell : α → Bytes} {read : Bytes → α}
    (hlength : ∀ x, (spell x).length = k) (hread : ∀ x, read (spell x) = x)
    (hspell : ∀ {bs}, bs.length = k → spell (read bs) = bs) {bs : Bytes} {x : α} :
    bs.length = k ∧ read bs.reverse = x ↔ (spell x).reverse = bs := by
  constructor
  · rintro ⟨hbs, rfl⟩
    rw [hspell (by rwa [length_reverse]), reverse_reverse]
  · rintro rfl
    rw [length_reverse, reverse_reverse]
    exact ⟨hlength x, hread x⟩

variable {bs : Bytes}

theorem eq_readBeU16 {x : UInt16} : bs.length = 2 ∧ readBeU16 bs = x ↔ beU16 x = bs :=
  eq_read_reverse length_leU16 readU16_leU16 leU16_readU16

theorem eq_readBeU32 {x : UInt32} : bs.length = 4 ∧ readBeU32 bs = x ↔ beU32 x = bs :=
  eq_read_reverse length_leU32 readU32_leU32 leU32_readU32

theorem eq_readBeU64 {x : UInt64} : bs.length = 8 ∧ readBeU64 bs = x ↔ beU64 x = bs :=
  eq_read_reverse length_leU64 readU64_leU64 leU64_readU64

theorem eq_readBeU128 {x : BitVec 128} : bs.length = 16 ∧ readBeU128 bs = x ↔ beU128 x = bs :=
  eq_read_reverse length_leU128 readU128_leU128 leU128_readU128

theorem eq_readBeI64 {x : Int64} :
    bs.length = 8 ∧ readBeI64 bs = x ↔ beI64 x = bs := by
  rw [beI64, ← eq_readBeU64, readBeI64]
  constructor
  · rintro ⟨hlength, rfl⟩
    exact ⟨hlength, (UInt64.toUInt64_toInt64 _).symm⟩
  · rintro ⟨hlength, hx⟩
    exact ⟨hlength, by rw [hx, Int64.toInt64_toUInt64]⟩

/-! ## Writers -/

/-- The bytes that are appended, or an error. -/
structure Writer (ε : Type) where
  run : Except ε Bytes

namespace Writer

variable {ε α : Type}

/-- The writer succeeds with these bytes. -/
def Writes (w : Writer ε) (bs : Bytes) : Prop := w.run = .ok bs

/-- The writer of some bytes. -/
def put (bs : Bytes) : Writer ε := ⟨.ok bs⟩

/-- Nothing, unless the check fails. -/
def check (x : Except ε Unit) : Writer ε := ⟨x.map fun _ => []⟩

/-- One after the other; the first error is the one reported. -/
instance : Append (Writer ε) := ⟨fun p q => ⟨do
  let first ← p.run
  let second ← q.run
  .ok (first ++ second)⟩⟩

/-- The values one after the other. -/
def each (w : α → Writer ε) : List α → Writer ε
  | [] => put []
  | a :: as => w a ++ each w as

@[simp] theorem writes_put {bs bs' : Bytes} : (put bs : Writer ε).Writes bs' ↔ bs' = bs :=
  ⟨fun h => (Except.ok.inj h).symm, fun h => congrArg Except.ok h.symm⟩

/-- Two writers succeed together or not at all. -/
theorem writes_append {p q : Writer ε} {bs : Bytes} :
    (p ++ q).Writes bs ↔ ∃ first second, p.Writes first ∧ q.Writes second ∧
      bs = first ++ second := by
  show (p.run >>= fun first => q.run >>= fun second => .ok (first ++ second)) = .ok bs ↔ _
  simp only [bind_eq_ok, Except.ok.injEq]
  constructor
  · rintro ⟨first, hp, second, hq, rfl⟩
    exact ⟨first, second, hp, hq, rfl⟩
  · rintro ⟨first, second, hp, hq, rfl⟩
    exact ⟨first, hp, second, hq, rfl⟩

theorem Writes.append {p q : Writer ε} {first second : Bytes} (hp : p.Writes first)
    (hq : q.Writes second) : (p ++ q).Writes (first ++ second) :=
  writes_append.mpr ⟨first, second, hp, hq, rfl⟩

@[simp] theorem writes_check {x : Except ε Unit} {bs : Bytes} :
    (check x).Writes bs ↔ x = .ok () ∧ bs = [] := by
  rw [check, Writes, map_eq_ok]
  exact ⟨fun ⟨(), hx, h⟩ => ⟨hx, h.symm⟩, fun ⟨hx, h⟩ => ⟨(), hx, h.symm⟩⟩

@[simp] theorem writes_check_append {x : Except ε Unit} {q : Writer ε} {bs : Bytes} :
    (check x ++ q).Writes bs ↔ x = .ok () ∧ q.Writes bs := by
  rw [writes_append]
  constructor
  · rintro ⟨first, second, hfirst, hq, rfl⟩
    obtain ⟨hx, rfl⟩ := writes_check.mp hfirst
    exact ⟨hx, hq⟩
  · rintro ⟨hx, hq⟩
    exact ⟨[], bs, writes_check.mpr ⟨hx, rfl⟩, hq, rfl⟩

/-- A check in the middle. -/
theorem writes_append_check_append {p q : Writer ε} {x : Except ε Unit} {bs : Bytes} :
    (p ++ (check x ++ q)).Writes bs ↔ x = .ok () ∧ (p ++ q).Writes bs := by
  rw [writes_append, writes_append]
  constructor
  · rintro ⟨first, second, hp, hsecond, rfl⟩
    obtain ⟨hx, hq⟩ := writes_check_append.mp hsecond
    exact ⟨hx, first, second, hp, hq, rfl⟩
  · rintro ⟨hx, first, second, hp, hq, rfl⟩
    exact ⟨first, second, hp, writes_check_append.mpr ⟨hx, hq⟩, rfl⟩

theorem writes_put_append {b : Bytes} {q : Writer ε} {bs : Bytes} :
    (put b ++ q).Writes bs ↔ ∃ second, q.Writes second ∧ bs = b ++ second := by
  rw [writes_append]
  constructor
  · rintro ⟨first, second, hp, hq, rfl⟩
    exact ⟨second, hq, by rw [writes_put.mp hp]⟩
  · rintro ⟨second, hq, rfl⟩
    exact ⟨b, second, rfl, hq, rfl⟩

theorem append_assoc (p q r : Writer ε) : p ++ q ++ r = p ++ (q ++ r) := by
  obtain ⟨p⟩ := p
  obtain ⟨q⟩ := q
  obtain ⟨r⟩ := r
  cases p with
  | error e => rfl
  | ok bp =>
    cases q with
    | error e => rfl
    | ok bq =>
      cases r with
      | error e => rfl
      | ok br => exact congrArg (fun bs => Writer.mk (.ok bs)) (List.append_assoc bp bq br)

end Writer

/-! ## Cursors -/

/-- A place in a byte string. -/
structure Cursor where
  bytes : Bytes
  position : Nat
  inside : position ≤ bytes.length

namespace Cursor

/-- The cursor before a byte string. -/
def start (bytes : Bytes) : Cursor := ⟨bytes, 0, Nat.zero_le _⟩

/-- The bytes from the cursor on. -/
def rest (c : Cursor) : Bytes := c.bytes.drop c.position

theorem length_rest (c : Cursor) : c.rest.length = c.bytes.length - c.position := length_drop

theorem ext_rest {c c' : Cursor} (hbytes : c.bytes = c'.bytes) (hrest : c.rest = c'.rest) :
    c = c' := by
  have hlength := congrArg List.length hrest
  rw [length_rest, length_rest] at hlength
  have hc := c.inside
  have hc' := c'.inside
  obtain ⟨bytes, position, inside⟩ := c
  obtain ⟨bytes', position', inside'⟩ := c'
  simp only at hbytes hlength hc hc'
  subst hbytes
  obtain rfl : position = position' := by omega
  rfl

/-- The cursor moves over `bs`. -/
structure Passes (c : Cursor) (bs : Bytes) (c' : Cursor) : Prop where
  bytes : c'.bytes = c.bytes
  rest : c.rest = bs ++ c'.rest

theorem passes_nil {c c' : Cursor} : c.Passes [] c' ↔ c' = c := by
  constructor
  · intro h
    exact ext_rest h.bytes h.rest.symm
  · rintro rfl
    exact ⟨rfl, rfl⟩

/-- A cursor can pass what lies ahead of it. -/
theorem exists_passes {c : Cursor} {bs rest : Bytes} (h : c.rest = bs ++ rest) :
    ∃ c', c.Passes bs c' ∧ c'.rest = rest := by
  have hlength := congrArg List.length h
  have hinside := c.inside
  rw [length_rest, length_append] at hlength
  have hrest : c.bytes.drop (c.position + bs.length) = rest := by
    rw [← drop_drop, ← Cursor.rest, h, drop_left]
  exact ⟨⟨c.bytes, c.position + bs.length, by omega⟩, ⟨rfl, by rw [h, Cursor.rest, hrest]⟩, hrest⟩

theorem passes_append {c c' : Cursor} {first second : Bytes} :
    c.Passes (first ++ second) c' ↔
      ∃ between, c.Passes first between ∧ between.Passes second c' := by
  constructor
  · intro h
    have hrest := h.rest
    rw [List.append_assoc] at hrest
    obtain ⟨between, hfirst, hsecond⟩ := exists_passes hrest
    exact ⟨between, hfirst, h.bytes.trans hfirst.bytes.symm, hsecond⟩
  · rintro ⟨between, hfirst, hsecond⟩
    exact ⟨hsecond.bytes.trans hfirst.bytes, by
      rw [hfirst.rest, hsecond.rest, List.append_assoc]⟩

end Cursor

/-! ## Readers -/

/-- Why a reader stops. -/
inductive Fault (ε : Type) where
  | error (e : ε)
  | panic
deriving DecidableEq

/-- A computation that moves a cursor. -/
abbrev Reader (ε : Type) := StateT Cursor (Except (Fault ε))

section Reader

variable {ε α β γ : Type}

/-- The reader that always fails. -/
def fail (e : ε) : Reader ε α := fun _ => .error (.error e)

/-- A check that reads nothing. -/
def ensure (x : Except ε α) : Reader ε α := fun c =>
  match x with
  | .ok a => .ok (a, c)
  | .error e => .error (.error e)

/-- The next `n` bytes.  The error is told where they would have ended and how many
bytes there are. -/
def takeBytes (truncated : Nat → Nat → ε) (n : Nat) : Reader ε Bytes := fun c =>
  if h : c.position + n ≤ c.bytes.length then
    .ok (slice c.bytes c.position (c.position + n), ⟨c.bytes, c.position + n, h⟩)
  else .error (.error (truncated (c.position + n) c.bytes.length))

/-- How many bytes are left. -/
def remaining : Reader ε Nat := fun c => .ok (c.bytes.length - c.position, c)

/-- A byte string of a known length as an array; the conversion panics on another
length. -/
def ofLength (n : Nat) (bs : Bytes) : Reader ε Bytes := fun c =>
  if bs.length = n then .ok (bs, c) else .error .panic

/-- A value of a fixed width. -/
def fixed (truncated : Nat → Nat → ε) (n : Nat) (of : Bytes → α) : Reader ε α := do
  let raw ← takeBytes truncated n
  return of (← ofLength n raw)

/-- `n` values one after the other. -/
def times (get : Reader ε α) : Nat → Reader ε (List α)
  | 0 => return []
  | n + 1 => do
      let a ← get
      let as ← times get n
      return a :: as

/-- `n` entries of a map; a key that is not greater than the one before it is an error. -/
def entries {κ : Type} [Ord κ] [Std.TransOrd κ] (key : Reader ε κ) (value : Reader ε α)
    (disorder : ε) : Nat → Option κ → Std.ExtTreeMap κ α → Reader ε (Std.ExtTreeMap κ α)
  | 0, _, m => return m
  | n + 1, previous, m => do
      let k ← key
      ensure (failIf (previous.any fun p => decide (compare p k ≠ .lt)) disorder)
      let a ← value
      entries key value disorder n (some k) (m.insert k a)

/-- The reader succeeds exactly on what the relation allows, and never panics. -/
structure Accepts (get : Reader ε α) (R : α → Bytes → Bytes → Prop) : Prop where
  iff : ∀ {c c' : Cursor} {a : α}, get c = .ok (a, c') ↔ ∃ bs, c.Passes bs c' ∧ R a bs c'.rest
  safe : ∀ c, get c ≠ .error .panic

/-- The reader takes back what the writer has written, and nothing else. -/
def Undoes (get : Reader ε α) (w : α → Writer ε) : Prop :=
  Accepts get fun a bs _ => (w a).Writes bs

namespace Accepts

variable {g : Reader ε α} {f : α → Reader ε β} {R : α → Bytes → Bytes → Prop}

theorem congr {S : α → Bytes → Bytes → Prop} (h : Accepts g R)
    (hsame : ∀ a bs rest, R a bs rest ↔ S a bs rest) : Accepts g S where
  iff := by
    intro c c' a
    rw [h.iff]
    exact exists_congr fun bs => and_congr_right fun _ => hsame a bs c'.rest
  safe := h.safe

/-- A reader that moves nowhere. -/
theorem of_still (x : Cursor → Except (Fault ε) α) (P : α → Bytes → Prop)
    (hok : ∀ c a, x c = .ok a ↔ P a c.rest) (hsafe : ∀ c, x c ≠ .error .panic) :
    Accepts (fun c => (x c).map fun a => (a, c)) fun a bs rest => bs = [] ∧ P a rest where
  iff := by
    intro c c' a
    simp only [map_eq_ok, Prod.mk.injEq]
    constructor
    · rintro ⟨a, hx, rfl, rfl⟩
      exact ⟨[], Cursor.passes_nil.mpr rfl, rfl, (hok c a).mp hx⟩
    · rintro ⟨_, hpasses, rfl, hP⟩
      obtain rfl := Cursor.passes_nil.mp hpasses
      exact ⟨a, (hok c' a).mpr hP, rfl, rfl⟩
  safe := by
    intro c h
    cases hx : x c with
    | ok a => simp [hx, Except.map] at h
    | error e =>
      simp only [hx, Except.map, Except.error.injEq] at h
      exact hsafe c (hx.trans (congrArg _ h))

protected theorem pure (a : α) : Accepts (pure a : Reader ε α) fun b bs _ => b = a ∧ bs = [] :=
  (of_still (fun _ => .ok a) (fun b _ => b = a)
    (fun _ _ => ⟨fun h => (Except.ok.inj h).symm, fun h => congrArg _ h.symm⟩) nofun).congr
    fun _ _ _ => and_comm

protected theorem fail (e : ε) : Accepts (fail e : Reader ε α) fun _ _ _ => False where
  iff := ⟨nofun, fun ⟨_, _, h⟩ => h.elim⟩
  safe := nofun

/-- A reader that fails accepts a relation that holds of nothing. -/
theorem refuse {e : ε} (h : ∀ a bs rest, ¬ R a bs rest) : Accepts (ByteCodec.fail e) R :=
  (Accepts.fail e).congr fun a bs rest => ⟨False.elim, h a bs rest⟩

protected theorem ensure (x : Except ε α) :
    Accepts (ensure x) fun a bs _ => x = .ok a ∧ bs = [] := by
  cases x with
  | ok a =>
    refine (Accepts.pure a).congr fun _ _ _ => and_congr_left' ?_
    exact ⟨fun h => congrArg _ h.symm, fun h => (Except.ok.inj h).symm⟩
  | error e => exact (Accepts.fail e).congr fun _ _ _ => by simp

theorem ofLength {n : Nat} {bs : Bytes} (h : bs.length = n) :
    Accepts (ofLength n bs : Reader ε Bytes) fun b taken _ => b = bs ∧ taken = [] := by
  have hpure : (ByteCodec.ofLength n bs : Reader ε Bytes) = pure bs := by
    funext c
    exact if_pos h
  rw [hpure]
  exact Accepts.pure bs

protected theorem remaining :
    Accepts (remaining : Reader ε Nat) fun n bs rest => n = rest.length ∧ bs = [] :=
  (of_still (fun c => .ok (c.bytes.length - c.position)) (fun n rest => n = rest.length)
    (fun c n => by
      rw [c.length_rest]
      exact ⟨fun h => (Except.ok.inj h).symm, fun h => congrArg _ h.symm⟩) nofun).congr
    fun _ _ _ => and_comm

theorem takeBytes (truncated : Nat → Nat → ε) (n : Nat) :
    Accepts (takeBytes truncated n) fun a bs _ => bs.length = n ∧ a = bs where
  iff := by
    intro c c' a
    rw [ByteCodec.takeBytes]
    have hinside := c.inside
    have hlength := c.length_rest
    constructor
    · intro h
      split at h
      · next hroom =>
        cases h
        refine ⟨_, ⟨rfl, ?_⟩, ?_, rfl⟩
        · rw [Cursor.rest, Cursor.rest, slice, ← drop_drop, Nat.add_sub_cancel_left,
            take_append_drop]
        · rw [length_slice hroom, Nat.add_sub_cancel_left]
      · cases h
    · rintro ⟨bs, hpasses, rfl, rfl⟩
      have hrest := congrArg List.length hpasses.rest
      rw [length_append] at hrest
      have hroom : c.position + a.length ≤ c.bytes.length := by omega
      have htake : slice c.bytes c.position (c.position + a.length) = a := by
        rw [slice, Nat.add_sub_cancel_left, ← Cursor.rest, hpasses.rest, take_left]
      have hmoved : (⟨c.bytes, c.position + a.length, hroom⟩ : Cursor) = c' := by
        refine Cursor.ext_rest hpasses.bytes.symm ?_
        rw [Cursor.rest, ← drop_drop, ← Cursor.rest, hpasses.rest, drop_left]
      rw [dif_pos hroom, htake, hmoved]
  safe := by
    intro c
    rw [ByteCodec.takeBytes]
    split <;> (intro hpanic; cases hpanic)

/-- One reader after the other. -/
theorem bind {S : α → β → Bytes → Bytes → Prop} (hg : Accepts g R)
    (hf : ∀ a, (∃ bs rest, R a bs rest) → Accepts (f a) (S a)) :
    Accepts (g >>= f) fun b bs rest => ∃ a first second, bs = first ++ second ∧
      R a first (second ++ rest) ∧ S a b second rest where
  iff := by
    intro c c' b
    show (g c >>= fun p => f p.1 p.2) = _ ↔ _
    rw [bind_eq_ok]
    constructor
    · rintro ⟨⟨a, between⟩, hfirst, hsecond⟩
      obtain ⟨first, hpasses, hR⟩ := hg.iff.mp hfirst
      obtain ⟨second, hpasses', hS⟩ := (hf a ⟨_, _, hR⟩).iff.mp hsecond
      rw [hpasses'.rest] at hR
      exact ⟨_, Cursor.passes_append.mpr ⟨between, hpasses, hpasses'⟩, a, first, second, rfl, hR,
        hS⟩
    · rintro ⟨bs, hpasses, a, first, second, rfl, hR, hS⟩
      obtain ⟨between, hpasses₁, hpasses₂⟩ := Cursor.passes_append.mp hpasses
      rw [← hpasses₂.rest] at hR
      exact ⟨⟨a, between⟩, hg.iff.mpr ⟨first, hpasses₁, hR⟩,
        (hf a ⟨_, _, hR⟩).iff.mpr ⟨second, hpasses₂, hS⟩⟩
  safe := by
    intro c h
    have hbind : (g c >>= fun p => f p.1 p.2) = .error .panic := h
    cases hgc : g c with
    | error e =>
      rw [hgc] at hbind
      exact hg.safe c (hgc.trans (congrArg _ (Except.error.inj hbind)))
    | ok p =>
      obtain ⟨a, between⟩ := p
      rw [hgc] at hbind
      obtain ⟨bs, -, hR⟩ := hg.iff.mp hgc
      exact (hf a ⟨_, _, hR⟩).safe between hbind

protected theorem map (hg : Accepts g R) (mk : α → β) :
    Accepts (do return mk (← g)) fun b bs rest => ∃ a, b = mk a ∧ R a bs rest := by
  refine (hg.bind fun a _ => .pure (mk a)).congr fun b bs rest => ?_
  constructor
  · rintro ⟨a, first, _, rfl, hR, hb, rfl⟩
    exact ⟨a, hb, by simpa using hR⟩
  · rintro ⟨a, rfl, hR⟩
    exact ⟨a, bs, [], (append_nil _).symm, hR, rfl, rfl⟩

/-- A check behind a reader. -/
theorem checked (hg : Accepts g R) (x : α → Except ε Unit) :
    Accepts (do let a ← g; ensure (x a); return a) fun a bs rest => x a = .ok () ∧ R a bs rest := by
  refine (hg.bind fun a _ => (Accepts.ensure (x a)).bind fun _ _ => .pure a).congr ?_
  intro a bs rest
  constructor
  · rintro ⟨_, first, _, rfl, hR, _, _, _, rfl, ⟨hx, rfl⟩, rfl, rfl⟩
    exact ⟨hx, by simpa using hR⟩
  · rintro ⟨hx, hR⟩
    exact ⟨a, bs, [], (append_nil _).symm, hR, (), [], [], rfl, ⟨hx, rfl⟩, rfl, rfl⟩

/-- A check between two readers. -/
theorem checkedBind {S : α → β → Bytes → Bytes → Prop} (hg : Accepts g R) (x : α → Except ε Unit)
    (hf : ∀ a, Accepts (f a) (S a)) :
    Accepts (do let a ← g; ensure (x a); f a) fun b bs rest => ∃ a first second,
      bs = first ++ second ∧ (x a = .ok () ∧ R a first (second ++ rest)) ∧ S a b second rest := by
  have h := (hg.checked x).bind fun a _ => hf a
  simpa only [bind_assoc, pure_bind] using h

/-- A check before the value is made. -/
theorem checkedMap (hg : Accepts g R) (x : α → Except ε Unit) (mk : α → β) :
    Accepts (do let a ← g; ensure (x a); return mk a) fun b bs rest =>
      ∃ a, x a = .ok () ∧ b = mk a ∧ R a bs rest := by
  have h := (hg.checked x).map mk
  simp only [bind_assoc, pure_bind] at h
  exact h.congr fun b bs rest => exists_congr fun a => and_left_comm

/-- A reader that takes all of its input. -/
theorem run_eq_ok
    (h : Accepts g fun m bs rest => rest = [] ∧ R m bs rest) {bytes : Bytes} {m : α} :
    (g (.start bytes)).map Prod.fst = .ok m ↔ R m bytes [] := by
  rw [map_eq_ok]
  constructor
  · rintro ⟨⟨_, c⟩, hg, rfl⟩
    obtain ⟨bs, hpasses, hend, hR⟩ := h.iff.mp hg
    have hall := hpasses.rest
    rw [hend, append_nil] at hall
    rwa [hend, ← hall] at hR
  · intro hR
    obtain ⟨c, hpasses, hend⟩ := Cursor.exists_passes
      (show (Cursor.start bytes).rest = bytes ++ [] from (append_nil _).symm)
    exact ⟨(m, c), h.iff.mpr ⟨bytes, hpasses, hend, hend.symm ▸ hR⟩, rfl⟩

/-- A whole run does not panic. -/
theorem run_safe (h : Accepts g R) (bytes : Bytes) :
    (g (.start bytes)).map Prod.fst ≠ .error .panic := by
  intro hpanic
  cases hg : g (.start bytes) with
  | ok p => simp [hg, Except.map] at hpanic
  | error e =>
    simp only [hg, Except.map, Except.error.injEq] at hpanic
    exact h.safe _ (hg.trans (congrArg _ hpanic))

end Accepts

namespace Undoes

variable {g : Reader ε α} {w : α → Writer ε}

theorem fixed (truncated : Nat → Nat → ε) {n : Nat} {of : Bytes → α} {spell : α → Bytes}
    (h : ∀ {bs a}, bs.length = n ∧ of bs = a ↔ spell a = bs) :
    Undoes (fixed truncated n of) fun a => .put (spell a) := by
  refine ((Accepts.takeBytes truncated n).bind fun raw ⟨_, _, hlength, hraw⟩ =>
    (Accepts.ofLength (hraw ▸ hlength)).bind fun bs _ => .pure (of bs)).congr ?_
  intro a bs rest
  rw [Writer.writes_put, eq_comm, ← h]
  constructor
  · rintro ⟨_, _, _, rfl, ⟨hlength, rfl⟩, _, _, _, rfl, ⟨rfl, rfl⟩, rfl, rfl⟩
    rw [append_nil, append_nil]
    exact ⟨hlength, rfl⟩
  · rintro ⟨hlength, rfl⟩
    exact ⟨bs, bs, [], (append_nil _).symm, ⟨hlength, rfl⟩, bs, [], [], rfl, ⟨rfl, rfl⟩, rfl,
      rfl⟩

/-- The next field of a record.  `P` holds the fields before it. -/
theorem field {f : α → Reader ε β} {P : β → Prop} {more : β → Writer ε} (hg : Undoes g w)
    (project : β → α)
    (hf : ∀ a, Accepts (f a) fun b bs _ => (project b = a ∧ P b) ∧ (more b).Writes bs) :
    Accepts (g >>= f) fun b bs _ => P b ∧ (w (project b) ++ more b).Writes bs := by
  refine (Accepts.bind hg fun a _ => hf a).congr ?_
  intro b bs rest
  rw [Writer.writes_append]
  constructor
  · rintro ⟨_, first, second, rfl, hfirst, ⟨rfl, hP⟩, hsecond⟩
    exact ⟨hP, first, second, hfirst, hsecond, rfl⟩
  · rintro ⟨hP, first, second, hfirst, hsecond, rfl⟩
    exact ⟨_, first, second, rfl, hfirst, ⟨rfl, hP⟩, hsecond⟩

/-- The last field of a record. -/
theorem last {mk : α → β} {P : β → Prop} (hg : Undoes g w) (project : β → α)
    (hmk : ∀ a b, b = mk a ↔ project b = a ∧ P b) :
    Accepts (do return mk (← g)) fun b bs _ => P b ∧ (w (project b)).Writes bs := by
  refine (Accepts.map hg mk).congr fun b bs rest => ?_
  constructor
  · rintro ⟨a, hb, hbs⟩
    obtain ⟨rfl, hP⟩ := (hmk a b).mp hb
    exact ⟨hP, hbs⟩
  · rintro ⟨hP, hbs⟩
    exact ⟨_, (hmk _ b).mpr ⟨rfl, hP⟩, hbs⟩

/-- A whole record. -/
theorem of_fields {f : Reader ε β} {wr more : β → Writer ε}
    (h : Accepts f fun b bs _ => True ∧ (more b).Writes bs) (hsame : ∀ b, wr b = more b) :
    Undoes f wr :=
  h.congr fun b _ _ => by rw [true_and, hsame]

theorem times (hg : Undoes g w) (n : Nat) :
    Accepts (times g n) fun as bs _ => as.length = n ∧ (Writer.each w as).Writes bs := by
  induction n with
  | zero =>
    refine (Accepts.pure []).congr fun as bs _ => ?_
    rw [length_eq_zero_iff]
    exact and_congr_right fun h => by rw [h, Writer.each, Writer.writes_put]
  | succ n ih =>
    refine (Accepts.bind hg fun a _ => ih.bind fun as _ => .pure (a :: as)).congr ?_
    intro as bs rest
    constructor
    · rintro ⟨a, first, _, rfl, hfirst, tail, second, _, rfl, ⟨rfl, hsecond⟩, rfl, rfl⟩
      rw [append_nil, Writer.each, Writer.writes_append]
      exact ⟨rfl, first, second, hfirst, hsecond, rfl⟩
    · rintro ⟨hlength, hbs⟩
      obtain ⟨a, tail, rfl⟩ := exists_cons_of_length_eq_add_one hlength
      obtain ⟨first, second, hfirst, hsecond, rfl⟩ := Writer.writes_append.mp hbs
      exact ⟨a, first, second, rfl, hfirst, tail, second, [], (append_nil _).symm,
        ⟨Nat.succ.inj hlength, hsecond⟩, rfl, rfl⟩

/-- A byte that says how to go on. -/
theorem tagged {u8 : Reader ε UInt8} (hu8 : Undoes u8 fun b => .put [b]) {f : UInt8 → Reader ε α}
    (hne : ∀ a, ¬ (w a).Writes [])
    (hf : ∀ tag, Accepts (f tag) fun a bs _ => (w a).Writes (tag :: bs)) : Undoes (u8 >>= f) w := by
  refine (Accepts.bind hu8 fun tag _ => hf tag).congr ?_
  intro a bs rest
  constructor
  · rintro ⟨tag, _, second, rfl, hfirst, hsecond⟩
    obtain rfl := Writer.writes_put.mp hfirst
    exact hsecond
  · intro hbs
    cases bs with
    | nil => exact absurd hbs (hne a)
    | cons tag bs => exact ⟨tag, [tag], bs, rfl, Writer.writes_put.mpr rfl, hbs⟩

/-! ### Maps -/

section Map

variable {κ : Type} [Ord κ] [Std.TransOrd κ] {key : Reader ε κ} {value : Reader ε α}
  {wk : κ → Writer ε} {wv : α → Writer ε}

/-- Entries in strictly increasing key order. -/
def Increasing (l : List (κ × α)) : Prop := l.Pairwise fun p q => compare p.1 q.1 = .lt

/-- Entries in increasing order are those of the map made of them. -/
theorem toList_insertMany [Std.LawfulEqOrd κ] {l : List (κ × α)} (h : Increasing l) :
    ((∅ : Std.ExtTreeMap κ α).insertMany l).toList = l := by
  have hdistinct : l.Pairwise fun p q => ¬ compare p.1 q.1 = .eq :=
    h.imp fun hlt heq => by rw [hlt] at heq; cases heq
  have hnodup : l.Nodup := by
    refine h.imp fun hlt heq => ?_
    rw [heq, Std.ReflOrd.compare_self] at hlt
    cases hlt
  rw [← Std.ExtTreeMap.ofList_eq_insertMany_empty]
  have hmem : l ⊆ (Std.ExtTreeMap.ofList l).toList := by
    intro p hp
    rw [Std.ExtTreeMap.mem_toList_iff_getElem?_eq_some]
    exact Std.ExtTreeMap.getElem?_ofList_of_mem Std.ReflOrd.compare_self hdistinct hp
  have hlength : (Std.ExtTreeMap.ofList l).toList.length = l.length := by
    rw [Std.ExtTreeMap.length_toList, Std.ExtTreeMap.size_ofList hdistinct]
  have hperm := (subperm_of_subset hnodup hmem).perm_of_length_le hlength.le
  refine List.Perm.eq_of_pairwise (fun p q _ _ hpq hqp => ?_)
    Std.ExtTreeMap.ordered_keys_toList h hperm.symm
  rw [Std.OrientedOrd.eq_swap, hqp] at hpq
  cases hpq

/-- Entries behind the key `previous` -/
theorem entries_go (hkey : Undoes key wk) (hvalue : Undoes value wv) (disorder : ε) (n : Nat)
    (previous : Option κ) (m : Std.ExtTreeMap κ α) :
    Accepts (entries key value disorder n previous m) fun m' bs _ => ∃ l : List (κ × α),
      l.length = n ∧ Increasing l ∧ (∀ p ∈ previous, ∀ q ∈ l, compare p q.1 = .lt) ∧
      m' = m.insertMany l ∧ (Writer.each (fun p => wk p.1 ++ wv p.2) l).Writes bs := by
  induction n generalizing previous m with
  | zero =>
    refine (Accepts.pure m).congr fun m' bs _ => ?_
    constructor
    · rintro ⟨rfl, rfl⟩
      exact ⟨[], rfl, .nil, by simp, Std.ExtTreeMap.insertMany_nil.symm, rfl⟩
    · rintro ⟨l, hlength, -, -, rfl, hbs⟩
      obtain rfl := length_eq_zero_iff.mp hlength
      exact ⟨Std.ExtTreeMap.insertMany_nil, Writer.writes_put.mp hbs⟩
  | succ n ih =>
    refine (Accepts.checkedBind hkey _ fun k => Accepts.bind hvalue fun a _ =>
      ih (some k) (m.insert k a)).congr fun m' bs rest => ?_
    constructor
    · rintro ⟨k, first, _, rfl, ⟨horder, hfirst⟩, a, second, third, rfl, hsecond, l, rfl, hl, hk,
        rfl, hthird⟩
      rw [failIf_eq_ok] at horder
      refine ⟨(k, a) :: l, rfl, pairwise_cons.mpr ⟨fun q hq => hk k rfl q hq, hl⟩, ?_,
        Std.ExtTreeMap.insertMany_cons.symm, ?_⟩
      · intro p hp q hq
        have hpk : compare p k = .lt := by
          obtain rfl := hp
          simpa using horder
        rcases mem_cons.mp hq with rfl | hq
        · exact hpk
        · exact Std.TransCmp.lt_trans hpk (hk k rfl q hq)
      · rw [Writer.each, Writer.append_assoc, Writer.writes_append]
        exact ⟨first, _, hfirst, Writer.writes_append.mpr ⟨second, third, hsecond, hthird, rfl⟩,
          rfl⟩
    · rintro ⟨l, hlength, hl, hprevious, rfl, hbs⟩
      obtain ⟨⟨k, a⟩, l, rfl⟩ := exists_cons_of_length_eq_add_one hlength
      rw [Writer.each, Writer.append_assoc, Writer.writes_append] at hbs
      obtain ⟨first, _, hfirst, hmore, rfl⟩ := hbs
      obtain ⟨second, third, hsecond, hthird, rfl⟩ := Writer.writes_append.mp hmore
      obtain ⟨hk, hl⟩ := pairwise_cons.mp hl
      refine ⟨k, first, _, rfl, ⟨?_, hfirst⟩, a, second, third, rfl, hsecond, l,
        Nat.succ.inj hlength, hl, ?_, Std.ExtTreeMap.insertMany_cons, hthird⟩
      · rw [failIf_eq_ok]
        cases previous with
        | none => simp
        | some p => simpa using hprevious p rfl (k, a) mem_cons_self
      · intro p hp q hq
        cases hp
        exact hk q hq

/-- A map is read in the order it is written. -/
theorem entries [Std.LawfulEqOrd κ] (hkey : Undoes key wk) (hvalue : Undoes value wv)
    (disorder : ε) (n : Nat) :
    Accepts (entries key value disorder n none ∅) fun m bs _ => m.size = n ∧
      (Writer.each (fun p => wk p.1 ++ wv p.2) m.toList).Writes bs := by
  refine (entries_go hkey hvalue disorder n none ∅).congr ?_
  intro m bs rest
  constructor
  · rintro ⟨l, rfl, hl, -, rfl, hbs⟩
    rw [← Std.ExtTreeMap.length_toList, toList_insertMany hl]
    exact ⟨rfl, hbs⟩
  · rintro ⟨hsize, hbs⟩
    refine ⟨m.toList, by rw [Std.ExtTreeMap.length_toList, hsize],
      Std.ExtTreeMap.ordered_keys_toList, by simp, ?_, hbs⟩
    rw [← Std.ExtTreeMap.ofList_eq_insertMany_empty]
    exact (Codec.ofList_toList m).symm

end Map

end Undoes

end Reader

end ByteCodec
