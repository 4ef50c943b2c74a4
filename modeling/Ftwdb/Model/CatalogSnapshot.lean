import Ftwdb.Model.CatalogIntegrity

/-!
# Snapshots of the catalog

A snapshot lists every record of the catalog once, each behind the records it
refers to, and it can be replayed: as one transaction, and one record at a time
(`Catalog.snapshot_replays`).

For both replays the catalog is cut down to the records named so far
(`Catalog.restrict`), and every record is a step from one part to the next.  A
part of a catalog that holds what its records refer to passes the reference
checks, since it has no links that the whole does not have; and the order of the
snapshot makes every part it passes through such a part.
-/

namespace Ftwdb

open Check KeyedMap DependencyOrder List

/-! ## Names and references of records -/

/-- The name of a catalog record. -/
inductive Ref where
  | entity (id : EntityId)
  | relation (id : RelationId)
  | series (id : UInt64)
  | run (id : RunId)
  | plan (id : U128)
deriving DecidableEq

namespace Record

/-- The name a record gives itself.  Point records have none. -/
def names : Record → List Ref
  | entity e => [.entity e.id]
  | relation r => [.relation r.id]
  | series s => [.series s.id]
  | run r => [.run r.id]
  | plan p => [.plan p.id]
  | points _ => []

/-- The catalog records that a catalog record refers to. -/
def references : Record → List Ref
  | entity e => e.parent.toList.map .entity
  | relation r => [.entity r.source, .entity r.target]
  | series s => s.ownerEntity.toList.map .entity ++ s.ownerRelation.toList.map .relation
  | run r => r.links.map .run
  | plan p => .run p.runId :: p.supersedes.toList.map .plan
  | points _ => []

end Record

namespace Catalog

/-- All records of a catalog, in key order. -/
def allRecords (c : Catalog) : List Record :=
  c.entities.toList.map (fun p => .entity p.2) ++ c.relations.toList.map (fun p => .relation p.2) ++
    c.series.toList.map (fun p => .series p.2) ++ c.runs.toList.map (fun p => .run p.2) ++
    c.plans.toList.map (fun p => .plan p.2)

/-- The record of a given name. -/
def lookup (c : Catalog) : Ref → Option Record
  | .entity id => c.entities[id]?.map .entity
  | .relation id => c.relations[id]?.map .relation
  | .series id => c.series[id]?.map .series
  | .run id => c.runs[id]?.map .run
  | .plan id => c.plans[id]?.map .plan

/-- The part of a catalog with the given names. -/
def restrict (c : Catalog) (known : List Ref) : Catalog where
  entities := c.entities.filter fun id _ => decide (.entity id ∈ known)
  relations := c.relations.filter fun id _ => decide (.relation id ∈ known)
  series := c.series.filter fun id _ => decide (.series id ∈ known)
  runs := c.runs.filter fun id _ => decide (.run id ∈ known)
  plans := c.plans.filter fun id _ => decide (.plan id ∈ known)

section Restrict

variable {κ α : Type} [Ord κ] {m : Std.ExtTreeMap κ α} {name : κ → Ref} {known : List Ref}

/-- A name of another kind changes nothing. -/
theorem filter_named_other {ref : Ref} (hother : ∀ k, name k ≠ ref) :
    (m.filter fun k _ => decide (name k ∈ ref :: known)) =
      m.filter fun k _ => decide (name k ∈ known) := by
  congr 1
  funext k _
  simp [hother k]

variable [Std.TransOrd κ] [Std.LawfulEqOrd κ]

theorem getElem?_filter_named {k : κ} {a : α} :
    (m.filter fun k _ => decide (name k ∈ known))[k]? = some a ↔
      name k ∈ known ∧ m[k]? = some a := by
  rw [Std.ExtTreeMap.getElem?_filter', Option.filter_eq_some_iff, decide_eq_true_eq, and_comm]

theorem mem_filter_named {k : κ} :
    k ∈ (m.filter fun k _ => decide (name k ∈ known)) ↔ name k ∈ known ∧ k ∈ m := by
  constructor
  · intro hk
    obtain ⟨a, ha⟩ := exists_getElem?_of_mem hk
    obtain ⟨hknown, ha⟩ := getElem?_filter_named.mp ha
    exact ⟨hknown, mem_of_getElem? ha⟩
  · rintro ⟨hknown, hk⟩
    obtain ⟨a, ha⟩ := exists_getElem?_of_mem hk
    exact mem_of_getElem? (getElem?_filter_named.mpr ⟨hknown, ha⟩)

theorem filter_named_nil : (m.filter fun k _ => decide (name k ∈ ([] : List Ref))) = ∅ := by
  apply Std.ExtTreeMap.ext_getElem?
  intro k
  rw [Std.ExtTreeMap.getElem?_filter']
  simp

theorem filter_named_all (h : ∀ k ∈ m, name k ∈ known) :
    (m.filter fun k _ => decide (name k ∈ known)) = m := by
  apply Std.ExtTreeMap.ext_getElem?
  intro k
  apply Option.ext
  intro a
  rw [getElem?_filter_named]
  exact ⟨And.right, fun ha => ⟨h k (mem_of_getElem? ha), ha⟩⟩

/-- Another name of the same kind lets its record in. -/
theorem filter_named_cons [DecidableEq κ] (hinj : Function.Injective name) {k : κ} {a : α}
    (hk : m[k]? = some a) :
    (m.filter fun k' _ => decide (name k' ∈ name k :: known)) =
      (m.filter fun k' _ => decide (name k' ∈ known)).insert k a := by
  apply Std.ExtTreeMap.ext_getElem?
  intro k'
  apply Option.ext
  intro b
  rw [getElem?_filter_named, mem_cons, getElem?_insert_eq]
  split
  · next heq =>
    subst heq
    simp [hk]
  · next hne =>
    rw [getElem?_filter_named]
    have : name k' ≠ name k := fun heq => hne (hinj heq).symm
    simp [this]

end Restrict

variable {c : Catalog} {known : List Ref}

theorem restrict_nil : c.restrict [] = {} := by
  simp only [restrict, filter_named_nil]

theorem restrict_entity {e : Entity} (h : c.entities[e.id]? = some e) :
    c.restrict (.entity e.id :: known) =
      { c.restrict known with entities := (c.restrict known).entities.insert e.id e } := by
  simp only [restrict, mk.injEq]
  exact ⟨filter_named_cons (fun _ _ => Ref.entity.inj) h, filter_named_other nofun,
    filter_named_other nofun, filter_named_other nofun, filter_named_other nofun⟩

theorem restrict_relation {r : Ftwdb.Relation} (h : c.relations[r.id]? = some r) :
    c.restrict (.relation r.id :: known) =
      { c.restrict known with relations := (c.restrict known).relations.insert r.id r } := by
  simp only [restrict, mk.injEq]
  exact ⟨filter_named_other nofun, filter_named_cons (fun _ _ => Ref.relation.inj) h,
    filter_named_other nofun, filter_named_other nofun, filter_named_other nofun⟩

theorem restrict_series {s : SeriesDefinition} (h : c.series[s.id]? = some s) :
    c.restrict (.series s.id :: known) =
      { c.restrict known with series := (c.restrict known).series.insert s.id s } := by
  simp only [restrict, mk.injEq]
  exact ⟨filter_named_other nofun, filter_named_other nofun,
    filter_named_cons (fun _ _ => Ref.series.inj) h, filter_named_other nofun,
    filter_named_other nofun⟩

theorem restrict_run {r : Run} (h : c.runs[r.id]? = some r) :
    c.restrict (.run r.id :: known) =
      { c.restrict known with runs := (c.restrict known).runs.insert r.id r } := by
  simp only [restrict, mk.injEq]
  exact ⟨filter_named_other nofun, filter_named_other nofun, filter_named_other nofun,
    filter_named_cons (fun _ _ => Ref.run.inj) h, filter_named_other nofun⟩

theorem restrict_plan {p : Plan} (h : c.plans[p.id]? = some p) :
    c.restrict (.plan p.id :: known) =
      { c.restrict known with plans := (c.restrict known).plans.insert p.id p } := by
  simp only [restrict, mk.injEq]
  exact ⟨filter_named_other nofun, filter_named_other nofun, filter_named_other nofun,
    filter_named_other nofun, filter_named_cons (fun _ _ => Ref.plan.inj) h⟩

/-- All names together keep the whole catalog. -/
theorem restrict_all (h : ∀ n r, c.lookup n = some r → n ∈ known) : c.restrict known = c := by
  have keep {κ α : Type} [Ord κ] [Std.TransOrd κ] [Std.LawfulEqOrd κ] {m : Std.ExtTreeMap κ α}
      {name : κ → Ref} {mk : α → Record} (hlookup : ∀ k, c.lookup (name k) = m[k]?.map mk) :
      ∀ k ∈ m, name k ∈ known := by
    intro k hk
    obtain ⟨a, ha⟩ := exists_getElem?_of_mem hk
    exact h (name k) (mk a) (by rw [hlookup, ha, Option.map_some])
  obtain ⟨entities, relations, series, runs, plans⟩ := c
  rw [restrict, filter_named_all (keep fun _ => rfl), filter_named_all (keep fun _ => rfl),
    filter_named_all (keep fun _ => rfl), filter_named_all (keep fun _ => rfl),
    filter_named_all (keep fun _ => rfl)]

/-- The part of a catalog that some of its records make up. -/
def part (c : Catalog) (records : List Record) : Catalog :=
  c.restrict (records.reverse.flatMap Record.names)

theorem part_concat (records : List Record) (r : Record) :
    c.part (records ++ [r]) = c.restrict (r.names ++ records.reverse.flatMap Record.names) := by
  simp [part]

/-- A part of the catalog that holds what its records refer to keeps the integrity. -/
theorem Integral.restrict (h : c.Integral)
    (hclosed : ∀ n ∈ known, ∀ r, c.lookup n = some r → ∀ d ∈ r.references, d ∈ known) :
    (c.restrict known).Integral := by
  have hparents : ∀ a b, (c.restrict known).ParentLink a b →
      c.ParentLink a b ∧ .entity b ∈ known := by
    rintro a b ⟨e, he, hb⟩
    obtain ⟨ha, he⟩ := getElem?_filter_named.mp he
    refine ⟨⟨e, he, hb⟩, hclosed _ ha (.entity e) (by simp [lookup, he]) _ ?_⟩
    exact mem_map_of_mem (Option.mem_toList.mpr hb)
  have hruns : ∀ a b, (c.restrict known).RunLink a b → c.RunLink a b ∧ .run b ∈ known := by
    rintro a b ⟨r, hr, hb⟩
    obtain ⟨ha, hr⟩ := getElem?_filter_named.mp hr
    refine ⟨⟨r, hr, hb⟩, hclosed _ ha (.run r) (by simp [lookup, hr]) _ ?_⟩
    exact mem_map_of_mem hb
  have hplans : ∀ a b, (c.restrict known).PlanLink a b → c.PlanLink a b ∧ .plan b ∈ known := by
    rintro a b ⟨p, hp, hb⟩
    obtain ⟨ha, hp⟩ := getElem?_filter_named.mp hp
    refine ⟨⟨p, hp, hb⟩, hclosed _ ha (.plan p) (by simp [lookup, hp]) _ ?_⟩
    exact mem_cons_of_mem _ (mem_map_of_mem (Option.mem_toList.mpr hb))
  exact
    { parent := fun a b hab =>
        mem_filter_named.mpr ⟨(hparents a b hab).2, h.parent a b (hparents a b hab).1⟩
      endpoints := by
        intro id r hr
        obtain ⟨hid, hr⟩ := getElem?_filter_named.mp hr
        have hrefs := hclosed _ hid (.relation r) (by simp [lookup, hr])
        obtain ⟨hsource, htarget⟩ := h.endpoints id r hr
        exact ⟨mem_filter_named.mpr ⟨hrefs _ (by simp [Record.references]), hsource⟩,
          mem_filter_named.mpr ⟨hrefs _ (by simp [Record.references]), htarget⟩⟩
      owner := by
        intro id s hs
        obtain ⟨hid, hs⟩ := getElem?_filter_named.mp hs
        have hrefs := hclosed _ hid (.series s) (by simp [lookup, hs])
        obtain ⟨hentity, hrelation⟩ := h.owner id s hs
        refine ⟨fun o ho => mem_filter_named.mpr ⟨hrefs _ ?_, hentity o ho⟩,
          fun o ho => mem_filter_named.mpr ⟨hrefs _ ?_, hrelation o ho⟩⟩
        · exact mem_append_left _ (mem_map_of_mem (Option.mem_toList.mpr ho))
        · exact mem_append_right _ (mem_map_of_mem (Option.mem_toList.mpr ho))
      provenance := fun a b hab =>
        mem_filter_named.mpr ⟨(hruns a b hab).2, h.provenance a b (hruns a b hab).1⟩
      planRun := by
        intro id p hp
        obtain ⟨hid, hp⟩ := getElem?_filter_named.mp hp
        obtain ⟨r, hr, hkind⟩ := h.planRun id p hp
        have hknown := hclosed _ hid (.plan p) (by simp [lookup, hp]) (.run p.runId)
          mem_cons_self
        exact ⟨r, getElem?_filter_named.mpr ⟨hknown, hr⟩, hkind⟩
      supersedes := fun a b hab =>
        mem_filter_named.mpr ⟨(hplans a b hab).2, h.supersedes a b (hplans a b hab).1⟩
      parents_acyclic := fun id hcycle =>
        h.parents_acyclic id (.mono (fun a b hab => (hparents a b hab).1) _ _ hcycle)
      provenance_acyclic := fun id hcycle =>
        h.provenance_acyclic id (.mono (fun a b hab => (hruns a b hab).1) _ _ hcycle)
      supersession_acyclic := fun id hcycle =>
        h.supersession_acyclic id (.mono (fun a b hab => (hplans a b hab).1) _ _ hcycle) }

/-! ## Replay -/

section Replay

variable [Jiff]

/-- The catalog behind a transaction, if it is accepted. -/
def accept (c : Catalog) (records : List Record) : Except Error Catalog :=
  (c.applyRecords records).map fun o => o.getD c

/-- Every record in a transaction of its own. -/
def acceptEach (c : Catalog) (records : List Record) : Except Error Catalog :=
  records.foldlM (fun c r => c.accept [r]) c

/-- A record of the catalog is put back into a part without it. -/
theorem RecordsValid.apply_restrict (hc : c.RecordsValid) {r : Record}
    (hlookup : ∀ n ∈ r.names, c.lookup n = some r) (hfresh : ∀ n ∈ r.names, n ∉ known) :
    (c.restrict known).apply r = .ok (c.restrict (r.names ++ known)) := by
  rw [apply_eq_ok]
  cases r with
  | entity e =>
    obtain ⟨e', he, heq⟩ := Option.map_eq_some_iff.mp (hlookup _ mem_cons_self)
    obtain rfl := Record.entity.inj heq
    rw [Record.names, singleton_append, restrict_entity he]
    exact .entity (hc.entities _ _ he).2
  | relation r =>
    obtain ⟨r', hr, heq⟩ := Option.map_eq_some_iff.mp (hlookup _ mem_cons_self)
    obtain rfl := Record.relation.inj heq
    rw [Record.names, singleton_append, restrict_relation hr]
    exact .relation (hc.relations _ _ hr).2
  | series s =>
    obtain ⟨s', hs, heq⟩ := Option.map_eq_some_iff.mp (hlookup _ mem_cons_self)
    obtain rfl := Record.series.inj heq
    rw [Record.names, singleton_append, restrict_series hs]
    exact .series (hc.series _ _ hs).2
  | run r =>
    obtain ⟨r', hr, heq⟩ := Option.map_eq_some_iff.mp (hlookup _ mem_cons_self)
    obtain rfl := Record.run.inj heq
    rw [Record.names, singleton_append, restrict_run hr]
    exact .run (hc.runs _ _ hr).2 fun _ h =>
      absurd (getElem?_filter_named.mp h).1 (hfresh _ mem_cons_self)
  | plan p =>
    obtain ⟨p', hp, heq⟩ := Option.map_eq_some_iff.mp (hlookup _ mem_cons_self)
    obtain rfl := Record.plan.inj heq
    obtain ⟨-, hvalidate, hattributes⟩ := hc.plans _ _ hp
    rw [Record.names, singleton_append, restrict_plan hp]
    exact .plan hvalidate hattributes fun _ h =>
      absurd (getElem?_filter_named.mp h).1 (hfresh _ mem_cons_self)
  | points ps => exact .points

section Records

variable {records before after : List Record} {r : Record}
  (hlookup : ∀ r ∈ records, ∀ n ∈ r.names, c.lookup n = some r)

include hlookup

theorem RecordsValid.apply_part (hc : c.RecordsValid)
    (hnodup : (records.flatMap Record.names).Nodup) (h : records = before ++ r :: after) :
    (c.part before).apply r = .ok (c.part (before ++ [r])) := by
  subst h
  rw [part_concat]
  refine hc.apply_restrict (hlookup r (by simp)) fun n hn hbefore => ?_
  rw [flatMap_append, flatMap_cons, nodup_append] at hnodup
  exact hnodup.2.2 n (by simpa using hbefore) n (mem_append_left _ hn) rfl

/-- A record is accepted behind what it refers to. -/
theorem Valid.accept_part (hc : c.Valid) (hnodup : (records.flatMap Record.names).Nodup)
    (hbehind : Behind Record.names Record.references [] records)
    (hpoints : ∀ r ∈ records, r.isPoints = false) (h : records = before ++ r :: after) :
    (c.part before).accept [r] = .ok (c.part (before ++ [r])) := by
  have happly := hc.toRecordsValid.apply_part hlookup hnodup h
  have hsplit : records = (before ++ [r]) ++ after := by simp [h]
  -- The part with the record holds what its records refer to.
  have hclosed : ∀ n ∈ (before ++ [r]).reverse.flatMap Record.names, ∀ r', c.lookup n = some r' →
      ∀ d ∈ r'.references, d ∈ (before ++ [r]).reverse.flatMap Record.names := by
    intro n hn r' hr' d hd
    obtain ⟨r'', hmem, hn⟩ := mem_flatMap.mp hn
    rw [mem_reverse] at hmem
    have hrecord : r'' ∈ records := hsplit ▸ mem_append_left _ hmem
    obtain rfl := Option.some.inj ((hlookup r'' hrecord n hn).symm.trans hr')
    rw [hsplit] at hbehind
    simpa [or_comm] using hbehind.of_append.mem_of_deps hmem hd
  have hpoint : r.isPoints = false := hpoints r (by simp [h])
  refine map_eq_ok.mpr ⟨some (c.part (before ++ [r])), ?_, rfl⟩
  rw [Catalog.applyRecords, if_neg (by simp [hpoint]), map_eq_ok]
  refine ⟨_, ?_, rfl⟩
  simp only [Catalog.validateAndApply, bind_eq_ok]
  refine ⟨c.part (before ++ [r]), ?_, (), (hc.integral.restrict hclosed).validateReferences, (),
    validateRecordPoints_of_catalog (by simpa using hpoint), rfl⟩
  rw [foldlM_cons, happly]
  rfl

end Records

end Replay

/-! ## The order of a snapshot -/

section Order

variable {α : Type} {m : Std.ExtTreeMap U128 α} {key : α → U128} {ok : α → Prop}
  {deps : α → List U128} {reason : String} {l : List α}

/-- The values of some keys, in their order. -/
theorem map_key_filterMap (hm : EntriesOk key ok m) {ids : List U128} (hids : ∀ n ∈ ids, n ∈ m) :
    (ids.filterMap fun n => m[n]?).map key = ids := by
  induction ids with
  | nil => rfl
  | cons n ids ih =>
    obtain ⟨a, ha⟩ := exists_getElem?_of_mem (hids n mem_cons_self)
    rw [filterMap_cons, ha, map_cons, (hm n a ha).1,
      ih fun k hk => hids k (mem_cons_of_mem n hk)]

/-- With a rank of the dependencies there is an order. -/
theorem exists_snapshotOrder (deps : α → List U128) (reason : String) {rank : U128 → Nat}
    (hrank : ∀ n a, m[n]? = some a → ∀ d ∈ deps a, rank d < rank n) :
    ∃ l, snapshotOrder m deps reason = .ok l := by
  have hlayers : (layers (fun n => (m[n]?.map deps).getD []) m.size m.keys).isSome := by
    refine layers_isSome rank (fun n _ d hd _ => ?_) (by rw [Std.ExtTreeMap.length_keys])
    cases ha : m[n]? with
    | none => simp [ha] at hd
    | some a => exact hrank n a ha d (by simpa [ha] using hd)
  obtain ⟨ids, hids⟩ := Option.isSome_iff_exists.mp hlayers
  exact ⟨_, by rw [snapshotOrder, hids]⟩

theorem snapshotOrder_eq_ok (hm : EntriesOk key ok m) (h : snapshotOrder m deps reason = .ok l) :
    ∃ ids, layers (fun n => (m[n]?.map deps).getD []) m.size m.keys = some ids ∧
      l.map key = ids ∧ ∀ a ∈ l, m[key a]? = some a := by
  rw [snapshotOrder] at h
  split at h
  · cases h
  · next ids hids =>
    cases h
    have hkeys := map_key_filterMap hm fun n hn =>
      Std.ExtTreeMap.mem_keys.mp ((layers_perm hids).mem_iff.mp hn)
    refine ⟨ids, hids, hkeys, fun a ha => ?_⟩
    obtain ⟨n, -, hn⟩ := mem_filterMap.mp ha
    rw [(hm n a hn).1, hn]

/-- Every value is listed once. -/
theorem snapshotOrder_perm (hm : EntriesOk key ok m) (h : snapshotOrder m deps reason = .ok l) :
    l.Perm (m.toList.map Prod.snd) := by
  obtain ⟨ids, hids, hkeys, hmem⟩ := snapshotOrder_eq_ok hm h
  obtain ⟨hvalueKeys, hvalues⟩ := values_keys hm
  have hperm : (l.map key).Perm ((m.toList.map Prod.snd).map key) := by
    rw [hkeys, hvalueKeys]
    exact layers_perm hids
  have hnodup : ((m.toList.map Prod.snd).map key).Nodup := by
    rw [hvalueKeys]
    exact Std.ExtTreeMap.nodup_keys
  have same {l l' : List α} (hperm : (l.map key).Perm (l'.map key))
      (hl : ∀ a ∈ l, m[key a]? = some a) (hl' : ∀ a ∈ l', m[key a]? = some a) {a : α}
      (ha : a ∈ l) : a ∈ l' := by
    obtain ⟨b, hb, hba⟩ := mem_map.mp (hperm.mem_iff.mp (mem_map_of_mem ha))
    have heq := hl' b hb
    rw [hba, hl a ha] at heq
    rw [Option.some.inj heq]
    exact hb
  refine (perm_ext_iff_of_nodup (hperm.nodup_iff.mpr hnodup).of_map hnodup.of_map).mpr ?_
  exact fun a => ⟨same hperm hmem hvalues, same hperm.symm hvalues hmem⟩

/-- Every value stands behind those it depends on. -/
theorem snapshotOrder_behind (hm : EntriesOk key ok m) (h : snapshotOrder m deps reason = .ok l)
    (hresolve : ∀ (n : U128) (a : α), m[n]? = some a → ∀ d ∈ deps a, d ∈ m) :
    Behind (fun a => [key a]) deps [] l := by
  obtain ⟨ids, hids, rfl, hmem⟩ := snapshotOrder_eq_ok hm h
  have hdeps : ∀ n ∈ m.keys, ∀ d ∈ (m[n]?.map deps).getD [], d ∈ m.keys ∨ d ∈ [] := by
    intro n _ d hd
    cases ha : m[n]? with
    | none => simp [ha] at hd
    | some a =>
      exact .inl (Std.ExtTreeMap.mem_keys.mpr (hresolve n a ha d (by simpa [ha] using hd)))
  refine (behind_map.mp (layers_behind hids hdeps)).extend (fun _ hd => hd) fun a ha d hd => ?_
  rw [hmem a ha]
  exact .inl hd

end Order

/-! ## All records -/

section All

theorem flatMap_names_values {κ α : Type} [Ord κ] [Std.TransOrd κ] [Std.LawfulEqOrd κ]
    {m : Std.ExtTreeMap κ α} {key : α → κ} {ok : α → Prop} (hm : EntriesOk key ok m)
    {mk : α → Record} {name : κ → Ref} (hnames : ∀ a, (mk a).names = [name (key a)]) :
    (m.toList.map fun p => mk p.2).flatMap Record.names = m.keys.map name := by
  rw [← (values_keys hm).1, map_map, map_map, flatMap_map, map_eq_flatMap]
  simp only [hnames, Function.comp_apply]

variable [Jiff] {c : Catalog} (hc : c.RecordsValid)

include hc

theorem RecordsValid.names_allRecords : c.allRecords.flatMap Record.names =
    c.entities.keys.map .entity ++ c.relations.keys.map .relation ++ c.series.keys.map .series ++
      c.runs.keys.map .run ++ c.plans.keys.map .plan := by
  simp only [allRecords, flatMap_append]
  rw [flatMap_names_values hc.entities fun _ => rfl, flatMap_names_values hc.relations fun _ => rfl,
    flatMap_names_values hc.series fun _ => rfl, flatMap_names_values hc.runs fun _ => rfl,
    flatMap_names_values hc.plans fun _ => rfl]

/-- No two records have the same name. -/
theorem RecordsValid.nodup_names : (c.allRecords.flatMap Record.names).Nodup := by
  have keys {κ α : Type} [Ord κ] [Std.TransOrd κ] [Std.LawfulEqOrd κ] {m : Std.ExtTreeMap κ α}
      {name : κ → Ref} (hname : Function.Injective name) : (m.keys.map name).Nodup :=
    Std.ExtTreeMap.nodup_keys.map hname
  rw [hc.names_allRecords]
  simp only [nodup_append, mem_append, mem_map]
  refine ⟨⟨⟨⟨keys fun _ _ => Ref.entity.inj, keys fun _ _ => Ref.relation.inj, ?_⟩,
    keys fun _ _ => Ref.series.inj, ?_⟩, keys fun _ _ => Ref.run.inj, ?_⟩,
    keys fun _ _ => Ref.plan.inj, ?_⟩
  all_goals
    intro n hn k hk
    obtain ⟨_, -, rfl⟩ := hk
    aesop

/-- The names are those of the records that can be looked up. -/
theorem RecordsValid.mem_names {n : Ref} {r : Record} (h : c.lookup n = some r) :
    n ∈ c.allRecords.flatMap Record.names := by
  rw [hc.names_allRecords]
  simp only [mem_append, mem_map, Std.ExtTreeMap.mem_keys]
  have mem {κ α : Type} [Ord κ] [Std.TransOrd κ] [Std.LawfulEqOrd κ] {m : Std.ExtTreeMap κ α}
      {k : κ} {mk : α → Record} (h : m[k]?.map mk = some r) : k ∈ m := by
    obtain ⟨a, ha, -⟩ := Option.map_eq_some_iff.mp h
    exact mem_of_getElem? ha
  cases n with
  | entity id => exact .inl (.inl (.inl (.inl ⟨id, mem h, rfl⟩)))
  | relation id => exact .inl (.inl (.inl (.inr ⟨id, mem h, rfl⟩)))
  | series id => exact .inl (.inl (.inr ⟨id, mem h, rfl⟩))
  | run id => exact .inl (.inr ⟨id, mem h, rfl⟩)
  | plan id => exact .inr ⟨id, mem h, rfl⟩

/-- A record is found under its name. -/
theorem RecordsValid.lookup_names {r : Record} (h : r ∈ c.allRecords) :
    r.isPoints = false ∧ ∀ n ∈ r.names, c.lookup n = some r := by
  have value {κ α : Type} [Ord κ] [Std.TransOrd κ] [Std.LawfulEqOrd κ] {m : Std.ExtTreeMap κ α}
      {key : α → κ} {ok : α → Prop} (hm : EntriesOk key ok m) {p : κ × α} (hp : p ∈ m.toList) :
      m[key p.2]? = some p.2 := by
    have hget := Std.ExtTreeMap.mem_toList_iff_getElem?_eq_some.mp hp
    rw [(hm p.1 p.2 hget).1, hget]
  simp only [allRecords, mem_append, mem_map] at h
  rcases h with (((⟨p, hp, rfl⟩ | ⟨p, hp, rfl⟩) | ⟨p, hp, rfl⟩) | ⟨p, hp, rfl⟩) | ⟨p, hp, rfl⟩
  · simp [Record.isPoints, Record.names, lookup, value hc.entities hp]
  · simp [Record.isPoints, Record.names, lookup, value hc.relations hp]
  · simp [Record.isPoints, Record.names, lookup, value hc.series hp]
  · simp [Record.isPoints, Record.names, lookup, value hc.runs hp]
  · simp [Record.isPoints, Record.names, lookup, value hc.plans hp]

end All

/-! ## Snapshots -/

section Snapshot

/-- All values together name all keys. -/
theorem mem_names_of_perm {κ α : Type} [Ord κ] [Std.TransOrd κ] [Std.LawfulEqOrd κ]
    {m : Std.ExtTreeMap κ α} {key : α → κ} {ok : α → Prop} (hm : EntriesOk key ok m) {l : List α}
    (hl : l.Perm (m.toList.map Prod.snd)) (mk : α → Record) (name : κ → Ref)
    (hnames : ∀ a, (mk a).names = [name (key a)]) {k : κ} (hk : k ∈ m) :
    name k ∈ (l.map mk).flatMap Record.names := by
  obtain ⟨a, ha⟩ := exists_getElem?_of_mem hk
  have hpair := Std.ExtTreeMap.mem_toList_iff_getElem?_eq_some.mpr ha
  have hmem : a ∈ l := hl.mem_iff.mpr (mem_map_of_mem hpair)
  refine mem_flatMap.mpr ⟨mk a, mem_map_of_mem hmem, ?_⟩
  rw [hnames, (hm k a ha).1]
  exact mem_singleton_self _

variable [Jiff] {c : Catalog} {records : List Record}

section Order

variable (hc : c.Valid) {entities : List Entity} {runs : List Run} {plans : List Plan}
  {known : List Ref}

include hc

theorem Valid.entities_behind {reason : String}
    (h : snapshotOrder c.entities (fun e => e.parent.toList) reason = .ok entities) :
    Behind Record.names Record.references [] (entities.map .entity) :=
  behind_map.mpr ((snapshotOrder_behind hc.entities h fun n e he d hd =>
    hc.integral.parent n d ⟨e, he, Option.mem_toList.mp hd⟩).rename Ref.entity)

theorem Valid.relations_behind (hentities : ∀ id ∈ c.entities, .entity id ∈ known) :
    Behind Record.names Record.references known
      (c.relations.toList.map fun p => .relation p.2) := by
  refine behind_of_forall fun r hr d hd => ?_
  obtain ⟨p, hp, rfl⟩ := mem_map.mp hr
  obtain ⟨hsource, htarget⟩ := hc.integral.endpoints p.1 p.2
    (Std.ExtTreeMap.mem_toList_iff_getElem?_eq_some.mp hp)
  simp only [Record.references, mem_cons, not_mem_nil, or_false] at hd
  rcases hd with rfl | rfl
  · exact hentities _ hsource
  · exact hentities _ htarget

theorem Valid.series_behind (hentities : ∀ id ∈ c.entities, .entity id ∈ known)
    (hrelations : ∀ id ∈ c.relations, .relation id ∈ known) :
    Behind Record.names Record.references known (c.series.toList.map fun p => .series p.2) := by
  refine behind_of_forall fun r hr d hd => ?_
  obtain ⟨p, hp, rfl⟩ := mem_map.mp hr
  obtain ⟨hentity, hrelation⟩ := hc.integral.owner p.1 p.2
    (Std.ExtTreeMap.mem_toList_iff_getElem?_eq_some.mp hp)
  rcases mem_append.mp hd with hd | hd
  · obtain ⟨o, ho, rfl⟩ := mem_map.mp hd
    exact hentities o (hentity o (Option.mem_toList.mp ho))
  · obtain ⟨o, ho, rfl⟩ := mem_map.mp hd
    exact hrelations o (hrelation o (Option.mem_toList.mp ho))

theorem Valid.runs_behind {reason : String}
    (h : snapshotOrder c.runs Run.links reason = .ok runs) :
    Behind Record.names Record.references known (runs.map .run) :=
  (behind_map.mpr ((snapshotOrder_behind hc.runs h fun n r hr d hd =>
    hc.integral.provenance n d ⟨r, hr, hd⟩).rename Ref.run)).mono (by simp)

theorem Valid.plans_behind {reason : String}
    (h : snapshotOrder c.plans (fun p => p.supersedes.toList) reason = .ok plans)
    (hruns : ∀ id ∈ c.runs, .run id ∈ known) :
    Behind Record.names Record.references known (plans.map .plan) := by
  have hbehind := (snapshotOrder_behind hc.plans h fun n p hp d hd =>
    hc.integral.supersedes n d ⟨p, hp, Option.mem_toList.mp hd⟩).rename Ref.plan
  refine behind_map.mpr (hbehind.extend nofun fun p hp d hd => ?_)
  rcases mem_cons.mp hd with rfl | hd
  · obtain ⟨ids, -, -, hmem⟩ := snapshotOrder_eq_ok hc.plans h
    obtain ⟨r, hr, -⟩ := hc.integral.planRun p.id p (hmem p hp)
    exact .inr (hruns p.runId (mem_of_getElem? hr))
  · exact .inl hd

/-- A snapshot lists all records, each behind those it refers to. -/
theorem Valid.snapshot_order (h : c.snapshotRecords = .ok records) :
    records.Perm c.allRecords ∧ Behind Record.names Record.references [] records := by
  simp only [snapshotRecords, bind_eq_ok] at h
  obtain ⟨_, -, entities, hentities, runs, hruns, plans, hplans, h⟩ := h
  cases h
  have hentityPerm := snapshotOrder_perm hc.entities hentities
  have hrunPerm := snapshotOrder_perm hc.runs hruns
  have hplanPerm := snapshotOrder_perm hc.plans hplans
  have hentityNames : ∀ id ∈ c.entities, .entity id ∈ (entities.map .entity).flatMap Record.names :=
    fun id hid => mem_names_of_perm hc.entities hentityPerm .entity .entity (fun _ => rfl) hid
  have hrelationNames : ∀ id ∈ c.relations, .relation id ∈
      (c.relations.toList.map fun p => Record.relation p.2).flatMap Record.names := by
    intro id hid
    have hmem := mem_names_of_perm hc.relations (.refl _) .relation .relation (fun _ => rfl) hid
    rwa [map_map] at hmem
  have hrunNames : ∀ id ∈ c.runs, .run id ∈ (runs.map .run).flatMap Record.names :=
    fun id hid => mem_names_of_perm hc.runs hrunPerm .run .run (fun _ => rfl) hid
  constructor
  · have map {α : Type} {κ : Type} {l : List α} {pairs : List (κ × α)} (mk : α → Record)
        (h : l.Perm (pairs.map Prod.snd)) : (l.map mk).Perm (pairs.map fun p => mk p.2) := by
      have hmap := h.map mk
      rwa [map_map] at hmap
    exact ((((map _ hentityPerm).append_right _).append_right _).append (map _ hrunPerm)).append
      (map _ hplanPerm)
  · refine ((((hc.entities_behind hentities).append (hc.relations_behind fun id hid => ?_)).append
      (hc.series_behind (fun id hid => ?_) fun id hid => ?_)).append (hc.runs_behind hruns)).append
      (hc.plans_behind hplans fun id hid => ?_)
    all_goals simp only [flatMap_append, mem_append]
    · exact .inl (hentityNames id hid)
    · exact .inl (.inl (hentityNames id hid))
    · exact .inl (.inr (hrelationNames id hid))
    · exact .inl (.inr (hrunNames id hid))

theorem Valid.exists_snapshot : ∃ records, c.snapshotRecords = .ok records := by
  obtain ⟨_, hentityRank⟩ := hc.entity_rank
  obtain ⟨_, hrunRank⟩ := hc.run_rank
  obtain ⟨_, hplanRank⟩ := hc.plan_rank
  obtain ⟨entities, hentities⟩ := exists_snapshotOrder (fun e : Entity => e.parent.toList)
    "entity dependency graph cannot be snapshotted" hentityRank
  obtain ⟨runs, hruns⟩ := exists_snapshotOrder Run.links
    "run dependency graph cannot be snapshotted" hrunRank
  obtain ⟨plans, hplans⟩ := exists_snapshotOrder (fun p : Plan => p.supersedes.toList)
    "plan dependency graph cannot be snapshotted" hplanRank
  exact ⟨_, by rw [snapshotRecords, hc.references, hentities, hruns, hplans]; rfl⟩

/-- What the replays of a snapshot rest on. -/
theorem Valid.snapshot_names (h : c.snapshotRecords = .ok records) :
    (∀ r ∈ records, ∀ n ∈ r.names, c.lookup n = some r) ∧
      (∀ r ∈ records, r.isPoints = false) ∧ (records.flatMap Record.names).Nodup ∧
      c.part [] = {} ∧ c.part records = c := by
  obtain ⟨hperm, -⟩ := hc.snapshot_order h
  have hnames := hperm.flatMap_right Record.names
  have hrecord := fun r (hr : r ∈ records) =>
    hc.toRecordsValid.lookup_names (hperm.mem_iff.mp hr)
  refine ⟨fun r hr => (hrecord r hr).2, fun r hr => (hrecord r hr).1,
    hnames.nodup_iff.mpr hc.toRecordsValid.nodup_names, restrict_nil,
    restrict_all fun n r hn => ?_⟩
  have hmem := hnames.mem_iff.mpr (hc.toRecordsValid.mem_names hn)
  simpa using hmem

/-- A valid catalog has a snapshot of catalog records, and the snapshot applied
to the empty catalog is the catalog. -/
theorem Valid.snapshot : ∃ records, c.snapshotRecords = .ok records ∧
    Catalog.validateAndApply {} records = .ok c ∧ ∀ r ∈ records, r.isPoints = false := by
  obtain ⟨records, hrecords⟩ := hc.exists_snapshot
  obtain ⟨hlookup, hpoints, hnodup, hnil, hall⟩ := hc.snapshot_names hrecords
  have hfold := foldlM_trace fun _ _ _ => hc.toRecordsValid.apply_part hlookup hnodup
  rw [hnil, hall] at hfold
  refine ⟨records, hrecords, ?_, hpoints⟩
  simp only [Catalog.validateAndApply, bind_eq_ok]
  exact ⟨c, hfold, (), hc.references, (), validateRecordPoints_of_catalog hpoints, rfl⟩

end Order

/-- The catalogs that accepted transactions lead to. -/
inductive Accepted : Catalog → Prop
  | empty : Accepted {}
  | transaction {c c' : Catalog} {records : List Record} :
      Accepted c → c.accept records = .ok c' → Accepted c'

theorem Accepted.valid (h : Accepted c) : c.Valid := by
  induction h with
  | empty => exact .empty
  | transaction _ haccept ih =>
    obtain ⟨o, ho, rfl⟩ := map_eq_ok.mp haccept
    cases o with
    | none => exact ih
    | some c' => exact ih.applyRecords ho

/-- What is accepted without a check for points only is accepted. -/
theorem accept_of_validateAndApply {c' : Catalog} (hpoints : ∀ r ∈ records, r.isPoints = false)
    (h : c.validateAndApply records = .ok c') : c.accept records = .ok c' := by
  cases records with
  | nil =>
    simp only [Catalog.validateAndApply, bind_eq_ok] at h
    obtain ⟨_, hfold, _, -, _, -, h⟩ := h
    cases hfold
    exact h
  | cons r rest =>
    have hcatalog : ¬ (r :: rest).all Record.isPoints = true := by
      simp [hpoints r mem_cons_self]
    refine map_eq_ok.mpr ⟨some c', ?_, rfl⟩
    rw [Catalog.applyRecords, if_neg hcatalog, h]
    rfl

/-- The snapshot of a catalog lists every record once, each behind what it refers
to, and replays to the catalog, at once and record by record. -/
theorem snapshot_replays (h : Accepted c) :
    ∃ records, c.snapshotRecords = .ok records ∧ records.Perm c.allRecords ∧
      (records.flatMap Record.names).Nodup ∧
      Behind Record.names Record.references [] records ∧
      Catalog.accept {} records = .ok c ∧
      Catalog.acceptEach {} records = .ok c := by
  have hc := h.valid
  obtain ⟨records, hrecords, happly, -⟩ := hc.snapshot
  obtain ⟨hperm, hbehind⟩ := hc.snapshot_order hrecords
  obtain ⟨hlookup, hpoints, hnodup, hnil, hall⟩ := hc.snapshot_names hrecords
  have hfold : Catalog.acceptEach (c.part []) records = .ok (c.part records) :=
    foldlM_trace fun _ _ _ => hc.accept_part hlookup hnodup hbehind hpoints
  rw [hnil, hall] at hfold
  exact ⟨records, hrecords, hperm, hnodup, hbehind,
    accept_of_validateAndApply hpoints happly, hfold⟩

end Snapshot

/-- An entity whose identifier is smaller than its parent's. -/
def child : Entity := ⟨1, "meter", "child", some 2, 0, none, ∅⟩

/-- A site. -/
def parent : Entity := ⟨2, "site", "parent", none, 0, none, ∅⟩

theorem snapshot_replays_family :
    letI := Jiff.withoutZones
    ∃ c : Catalog, Accepted c ∧ c.snapshotRecords = .ok [.entity parent, .entity child] ∧
      Catalog.acceptEach {} [.entity parent, .entity child] = .ok c := by
  let _ := Jiff.withoutZones
  obtain ⟨c, haccept, horder⟩ := map_eq_ok.mp
    (show (Catalog.accept {} [.entity child, .entity parent]).map
      (fun c => decide (c.snapshotRecords = .ok [.entity parent, .entity child])) = .ok true by
        decide +kernel)
  have hc : Accepted c := .transaction .empty haccept
  have horder := of_decide_eq_true horder
  obtain ⟨records, hrecords, -, -, -, -, heach⟩ := snapshot_replays hc
  obtain rfl := Except.ok.inj (hrecords.symm.trans horder)
  exact ⟨c, hc, horder, heach⟩

end Catalog

end Ftwdb
