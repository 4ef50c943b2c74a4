import Mathlib.Data.List.Induction

/-!
# Images and the writes over them

An image has a value at every position.  A patch has a value where it writes.  A
position holds the value of the last patch that writes there, and keeps its value
if none does (`putAll_apply`).  Which patches are put down early and which wait
in a queue is therefore nothing a reader of the whole can tell (`putAll_append`).

Their order it can tell.  `putAll_partition_iff` says when marked patches may be
moved behind the others without a trace.
-/

namespace Overlay

open List

variable {ι β : Type}

/-- The image with one patch over it. -/
def put (image : ι → β) (patch : ι → Option β) : ι → β := fun i => (patch i).getD (image i)

/-- The image with the patches over it, the first one lowest. -/
def putAll (image : ι → β) (patches : List (ι → Option β)) : ι → β := patches.foldl put image

@[simp] theorem putAll_nil (image : ι → β) : putAll image [] = image := rfl

@[simp] theorem putAll_cons (image : ι → β) (patch : ι → Option β) (patches : List (ι → Option β)) :
    putAll image (patch :: patches) = putAll (put image patch) patches := rfl

theorem putAll_append (image : ι → β) (first second : List (ι → Option β)) :
    putAll image (first ++ second) = putAll (putAll image first) second := foldl_append

/-- The last patch that writes to a position decides. -/
theorem putAll_apply (image : ι → β) (patches : List (ι → Option β)) (i : ι) :
    putAll image patches i = ((patches.filterMap (· i)).getLast?).getD (image i) := by
  induction patches generalizing image with
  | nil => rfl
  | cons patch patches ih =>
    rw [putAll_cons, ih, filterMap_cons]
    cases hpatch : patch i with
    | none => simp [put, hpatch]
    | some v =>
      rw [getLast?_cons, Option.getD_some]
      simp [put, hpatch]

/-! ## Moving marked patches behind the others -/

/-- The values the patches write to a position, in order, each with the patch's mark. -/
def writersAt (patches : List (Bool × (ι → Option β))) (i : ι) : List (Bool × β) :=
  patches.filterMap fun p => (p.2 i).map (Prod.mk p.1)

/-- The patches without a mark, then those with one. -/
def partition (patches : List (Bool × (ι → Option β))) : List (Bool × (ι → Option β)) :=
  patches.filter (!·.1) ++ patches.filter (·.1)

theorem map_snd_writersAt (patches : List (Bool × (ι → Option β))) (i : ι) :
    (writersAt patches i).map Prod.snd = (patches.map Prod.snd).filterMap (· i) := by
  simp [writersAt, map_filterMap, filterMap_map, Function.comp_def]

theorem writersAt_filter (keep : Bool → Bool) (patches : List (Bool × (ι → Option β))) (i : ι) :
    writersAt (patches.filter (keep ·.1)) i = (writersAt patches i).filter (keep ·.1) := by
  induction patches with
  | nil => rfl
  | cons p patches ih =>
    simp only [writersAt] at ih ⊢
    cases hkeep : keep p.1 <;> cases hp : p.2 i <;> simp [hkeep, hp, ih]

/-- The last value stays the last one, unless it has no mark and the last value with a mark
is another one. -/
theorem getLast?_partition_iff (l : List (Bool × β)) :
    ((l.filter (!·.1) ++ l.filter (·.1)).map Prod.snd).getLast? = (l.map Prod.snd).getLast? ↔
      ∀ v v', l.getLast? = some (false, v) → (l.filter (·.1)).getLast? = some (true, v') →
        v' = v := by
  induction l using List.reverseRecOn with
  | nil => simp
  | append_singleton l a _ =>
    obtain ⟨mark, v⟩ := a
    cases mark with
    | true => simp
    | false =>
      -- the last value has no mark, so every marked one is moved behind it
      cases hlast : (l.filter (·.1)).getLast? with
      | none => simp [getLast?_cons, getLast?_map, hlast]
      | some a' =>
        obtain ⟨mark', v'⟩ := a'
        have hmark : mark' = true := by
          have hmem := mem_filter.mp (mem_of_getLast? hlast)
          exact hmem.2
        simp [getLast?_cons, getLast?_map, hlast, hmark]

theorem writersAt_partition (patches : List (Bool × (ι → Option β))) (i : ι) :
    writersAt (partition patches) i
      = (writersAt patches i).filter (!·.1) ++ (writersAt patches i).filter (·.1) := by
  have hmarked : writersAt (patches.filter (·.1)) i = (writersAt patches i).filter (·.1) :=
    writersAt_filter id patches i
  rw [← hmarked, ← writersAt_filter (!·)]
  exact filterMap_append

/-- Moving the marked patches behind the others leaves the image alone exactly if, wherever
the last writer has no mark, the last marked writer wrote the same. -/
theorem putAll_partition_iff (image : ι → β) (patches : List (Bool × (ι → Option β))) :
    putAll image ((partition patches).map Prod.snd) = putAll image (patches.map Prod.snd) ↔
      ∀ i v v', (writersAt patches i).getLast? = some (false, v) →
        ((writersAt patches i).filter (·.1)).getLast? = some (true, v') → v' = v := by
  rw [funext_iff]
  refine forall_congr' fun i => ?_
  rw [← getLast?_partition_iff, ← writersAt_partition, putAll_apply, putAll_apply,
    ← map_snd_writersAt, ← map_snd_writersAt]
  cases hlast : ((writersAt patches i).map Prod.snd).getLast? with
  | none =>
    have hnil : writersAt patches i = [] := by simpa using hlast
    simp [writersAt_partition, hnil]
  | some v =>
    -- a position that is written is written in either order
    cases hmoved : ((writersAt (partition patches) i).map Prod.snd).getLast? with
    | some v' => simp
    | none =>
      have hnil : writersAt (partition patches) i = [] := by simpa using hmoved
      have hempty : writersAt patches i = [] := by
        rw [writersAt_partition, append_eq_nil_iff, filter_eq_nil_iff,
          filter_eq_nil_iff] at hnil
        refine eq_nil_iff_forall_not_mem.mpr fun a ha => ?_
        have hneither := And.intro (hnil.1 a ha) (hnil.2 a ha)
        simp at hneither
      simp [hempty] at hlast

end Overlay
