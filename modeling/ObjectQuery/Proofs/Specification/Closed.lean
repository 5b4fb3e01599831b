import ObjectQuery.Proofs.Specification.Keyed
import ObjectQuery.Proofs.Traversal
import ObjectQuery.Schema.Spec

/-!
Closed specifications. Every name in them is declared, and no two entities have the same name. These are the
specifications that resolve to a schema, in which every name has become the position that it stands for.
-/
namespace ObjectQuery

/-- The item at the position is the first that has the name. -/
structure FirstNamed {α : Type} (name : α → String) (items : List α) (k : String) (i : Nat) (x : α) : Prop where
  there : items[i]? = some x
  named : name x = k
  first : ∀ j < i, ∀ y, items[j]? = some y → name y ≠ k

namespace FirstNamed

variable {α : Type} {name : α → String} {items : List α} {k : String} {i : Nat} {x : α}

theorem findIdx?_eq_some_iff :
    items.findIdx? (fun x => name x == k) = some i ↔ ∃ x, FirstNamed name items k i x := by
  rw [List.findIdx?_eq_some_iff_getElem]
  constructor
  · intro ⟨hi, hk, hfirst⟩
    refine ⟨items[i], List.getElem?_eq_getElem hi, by simpa using hk, ?_⟩
    intro j hj y hy
    obtain ⟨hlt, rfl⟩ := List.getElem?_eq_some_iff.mp hy
    simpa using hfirst j hj
  · intro ⟨x, hthere, hnamed, hfirst⟩
    obtain ⟨hi, rfl⟩ := List.getElem?_eq_some_iff.mp hthere
    refine ⟨hi, by simpa using hnamed, ?_⟩
    intro j hj
    simpa using hfirst j hj _ (List.getElem?_eq_getElem (Nat.lt_trans hj hi))

theorem exists_iff : (∃ i x, FirstNamed name items k i x) ↔ ∃ x ∈ items, name x = k := by
  simp only [← findIdx?_eq_some_iff, ← Option.isSome_iff_exists, List.findIdx?_isSome, List.any_eq_true, beq_iff_eq]

theorem unique {j : Nat} {y : α} (hx : FirstNamed name items k i x) (hy : FirstNamed name items k j y) :
    i = j ∧ x = y := by
  have hi := findIdx?_eq_some_iff.mpr ⟨x, hx⟩
  rw [findIdx?_eq_some_iff.mpr ⟨y, hy⟩] at hi
  obtain rfl := Option.some.inj hi
  exact ⟨rfl, Option.some.inj (hx.there.symm.trans hy.there)⟩

end FirstNamed

namespace Spec

section Meaning

variable (spec : Spec)

def HasColumn (table column : String) : Prop :=
  ∃ i t, FirstNamed Table.name spec.tables table i t ∧ ∃ c ∈ t.columns, c.name = column

/-- The position is that of the first column of its name in the first table of its name. -/
def Places (table column : String) (id : ColumnId) : Prop :=
  ∃ t c, FirstNamed Table.name spec.tables table id.table t ∧ FirstNamed Column.name t.columns column id.index c

/-- All that the member of an entity mentions is declared. -/
def Resolves (e : EntitySpec) : MemberSpec → Prop
  | .column name => spec.HasColumn e.table name
  | .computed _ => True
  | .association target own foreign _ =>
    spec.HasColumn e.table own ∧ ∃ t ∈ spec.entities, t.name = target ∧ spec.HasColumn t.table foreign

/-- What the member of an entity becomes: its columns are found in the table of the entity, and the foreign one in that
of the target. -/
inductive Means (e : EntitySpec) : MemberSpec → Member → Prop
  | column {name : String} {id : ColumnId} (h : spec.Places e.table name id) : Means e (.column name) (.column id)
  | computed (value : Lambda) : Means e (.computed value) (.computed value)
  | association {t : EntitySpec} {own foreign : String} {o f : ColumnId} (optional : Bool) (ht : t ∈ spec.entities)
    (hown : spec.Places e.table own o) (hforeign : spec.Places t.table foreign f) :
    Means e (.association t.name own foreign optional) (.association ⟨t.name, o, f, optional⟩)

/-- Members count even when a later one of their name takes their place. -/
structure Closed : Prop where
  tables : ∀ e ∈ spec.entities, ∃ t ∈ spec.tables, t.name = e.table
  distinct : (spec.entities.map EntitySpec.name).Nodup
  members : ∀ e ∈ spec.entities, ∀ p ∈ e.members, spec.Resolves e p.2

/-- The entity has the table of its specification, and the names of its members in order of first occurrence, each with
the meaning of the last member of that name. -/
structure Describes (e : EntitySpec) (r : Entity) : Prop where
  name : r.name = e.name
  table : ∃ t, FirstNamed Table.name spec.tables e.table r.table t
  names : r.members.items.map Prod.fst = (e.members.map Prod.fst).eraseDups
  members : ∀ name m, r.member? name = some m → ∃ p, e.members.reverse.find? (·.1 == name) = some p ∧ spec.Means e p.2 m

/-- Nothing of the specification is lost in the schema, and all positions and names in it lead somewhere. -/
structure Realizes (schema : Schema) : Prop where
  tables : schema.database.tables = spec.tables
  entities : List.Forall₂ spec.Describes spec.entities schema.mapping.items
  found : ∀ e ∈ spec.entities, ∃ r, schema.mapping.entity? e.name = some r ∧ spec.Describes e r
  targets : ∀ r ∈ schema.mapping.items, ∀ name a, r.member? name = some (.association a) →
    ∃ t, schema.mapping.entity? a.target = some t ∧ a.own.table = r.table ∧ a.foreign.table = t.table

end Meaning

variable {spec : Spec} {d : Database} {es : List EntitySpec} {before bound : List (String × TableId)} {e : EntitySpec}
  {table : TableId}

/-! A name that is looked up is found where it is declared. -/

theorem tableNamed?_eq_some_iff {name : String} :
    d.tableNamed? name = some table ↔ ∃ t, FirstNamed Table.name d.tables name table t :=
  FirstNamed.findIdx?_eq_some_iff

theorem exists_places_iff {name column : String} : (∃ id, spec.Places name column id) ↔ spec.HasColumn name column := by
  constructor
  · intro ⟨id, t, c, ht, hc⟩
    exact ⟨id.table, t, ht, FirstNamed.exists_iff.mp ⟨id.index, c, hc⟩⟩
  · intro ⟨i, t, ht, hc⟩
    obtain ⟨j, c, hc⟩ := FirstNamed.exists_iff.mpr hc
    exact ⟨⟨i, j⟩, t, c, ht, hc⟩

theorem exists_means_iff {m : MemberSpec} : (∃ r, spec.Means e m r) ↔ spec.Resolves e m := by
  cases m with
  | column name =>
    simp only [Resolves, ← exists_places_iff]
    constructor
    · intro ⟨_, h⟩
      cases h with
      | column h => exact ⟨_, h⟩
    · intro ⟨id, h⟩
      exact ⟨_, .column h⟩
  | computed value => exact iff_of_true ⟨_, .computed value⟩ trivial
  | association target own foreign optional =>
    simp only [Resolves, ← exists_places_iff]
    constructor
    · intro ⟨_, h⟩
      cases h with
      | association _ ht hown hforeign => exact ⟨⟨_, hown⟩, _, ht, rfl, _, hforeign⟩
    · rintro ⟨⟨o, hown⟩, t, ht, rfl, f, hforeign⟩
      exact ⟨_, .association optional ht hown hforeign⟩

theorem resolveColumn_eq_ok_iff {name column : String} {t : Table} {id : ColumnId}
    (ht : FirstNamed Table.name spec.tables name table t) :
    resolveColumn ⟨spec.tables⟩ table column = .ok id ↔ spec.Places name column id := by
  have hnamed : resolveColumn ⟨spec.tables⟩ table column = .ok id ↔
      Database.columnNamed? ⟨spec.tables⟩ table column = some id := by
    unfold resolveColumn
    split <;> simp [*]
  have htable : Database.table? ⟨spec.tables⟩ table = some t := ht.there
  rw [hnamed, Database.columnNamed?, htable, Option.bind_some, Option.map_eq_some_iff]
  constructor
  · rintro ⟨i, hi, rfl⟩
    obtain ⟨c, hc⟩ := FirstNamed.findIdx?_eq_some_iff.mp hi
    exact ⟨t, c, ht, hc⟩
  · rintro ⟨t', c, ht', hc⟩
    obtain ⟨rfl, rfl⟩ := ht.unique ht'
    exact ⟨id.index, FirstNamed.findIdx?_eq_some_iff.mpr ⟨c, hc⟩, rfl⟩

/-! Entities are bound to their tables. -/

theorem bindTables_cons_eq_ok_iff :
    bindTables d (e :: es) before = .ok bound ↔ ∃ table, d.tableNamed? e.table = some table ∧
      before.lookup e.name = none ∧ bindTables d es (before ++ [(e.name, table)]) = .ok bound := by
  rw [bindTables]
  cases htable : d.tableNamed? e.table with
  | none => simp
  | some table => cases hnew : before.lookup e.name <;> simp

theorem lookup_append_singleton_eq_some_iff {name : String} {i j : TableId} (h : before.lookup e.name = none) :
    (before ++ [(e.name, i)]).lookup name = some j ↔ before.lookup name = some j ∨ e.name = name ∧ i = j := by
  rw [List.lookup_append]
  by_cases hname : e.name = name
  · simp [← hname, h]
  · simp [hname, List.lookup_cons, beq_false_of_ne (Ne.symm hname)]

theorem lookup_append_singleton_eq_none_iff {name : String} {i : TableId} :
    (before ++ [(e.name, i)]).lookup name = none ↔ before.lookup name = none ∧ e.name ≠ name := by
  rw [List.lookup_append]
  by_cases hname : e.name = name
  · simp [← hname]
  · simp [hname, List.lookup_cons, beq_false_of_ne (Ne.symm hname)]

theorem exists_bindTables_iff : (∃ bound, bindTables d es before = .ok bound) ↔
    (∀ e ∈ es, ∃ table, d.tableNamed? e.table = some table) ∧ (es.map EntitySpec.name).Nodup ∧
      ∀ e ∈ es, before.lookup e.name = none := by
  -- what is bound already stands for the entities before, so that a name of theirs is no longer free
  induction es generalizing before with
  | nil => simp [bindTables]
  | cons e es ih =>
    simp only [bindTables_cons_eq_ok_iff, List.forall_mem_cons, List.map_cons, List.nodup_cons]
    constructor
    · intro ⟨bound, table, htable, hnew, hbound⟩
      obtain ⟨htables, hdistinct, hothers⟩ := ih.mp ⟨bound, hbound⟩
      simp only [lookup_append_singleton_eq_none_iff] at hothers
      refine ⟨⟨⟨table, htable⟩, htables⟩, ⟨?_, hdistinct⟩, hnew, fun e he => (hothers e he).1⟩
      rw [List.mem_map]
      rintro ⟨e', he', hname⟩
      exact (hothers e' he').2 hname.symm
    · intro ⟨⟨⟨table, htable⟩, htables⟩, ⟨hfresh, hdistinct⟩, hnew, hothers⟩
      have hrest : ∀ e' ∈ es, (before ++ [(e.name, table)]).lookup e'.name = none := by
        intro e' he'
        refine lookup_append_singleton_eq_none_iff.mpr ⟨hothers e' he', fun hname => hfresh ?_⟩
        exact hname ▸ List.mem_map_of_mem he'
      obtain ⟨bound, hbound⟩ := ih.mpr ⟨htables, hdistinct, hrest⟩
      exact ⟨bound, table, htable, hnew, hbound⟩

theorem lookup_of_bindTables (h : bindTables d es before = .ok bound) (name : String) :
    bound.lookup name = some table ↔
      before.lookup name = some table ∨ ∃ e ∈ es, e.name = name ∧ d.tableNamed? e.table = some table := by
  induction es generalizing before with
  | nil =>
    cases h
    simp
  | cons e es ih =>
    obtain ⟨i, hi, hnew, h⟩ := bindTables_cons_eq_ok_iff.mp h
    simp only [ih h, lookup_append_singleton_eq_some_iff hnew, List.mem_cons, exists_eq_or_imp, hi, Option.some.injEq,
      or_assoc]

/-! The members of an entity. -/

def Binds (spec : Spec) (bound : List (String × TableId)) : Prop :=
  ∀ name table, bound.lookup name = some table ↔
    ∃ e ∈ spec.entities, e.name = name ∧ ∃ t, FirstNamed Table.name spec.tables e.table table t

theorem binds_of_bindTables (h : bindTables ⟨spec.tables⟩ spec.entities [] = .ok bound) : spec.Binds bound := by
  intro name table
  rw [lookup_of_bindTables h]
  simp [tableNamed?_eq_some_iff]

theorem Binds.lookup (hbound : spec.Binds bound) (he : e ∈ spec.entities) {t : Table}
    (ht : FirstNamed Table.name spec.tables e.table table t) : bound.lookup e.name = some table :=
  (hbound e.name table).mpr ⟨e, he, rfl, t, ht⟩

section Bound

variable (hbound : spec.Binds bound) {t : Table} (ht : FirstNamed Table.name spec.tables e.table table t)

include hbound ht

theorem resolveMember_eq_ok_iff {m : MemberSpec} {r : Member} :
    resolveMember ⟨spec.tables⟩ bound table m = .ok r ↔ spec.Means e m r := by
  cases m with
  | column name =>
    simp only [resolveMember, map_eq_ok_iff, resolveColumn_eq_ok_iff ht]
    constructor
    · rintro ⟨id, hid, rfl⟩
      exact .column hid
    · intro h
      cases h with
      | column hid => exact ⟨_, hid, rfl⟩
  | computed value =>
    simp only [resolveMember, Except.ok.injEq]
    constructor
    · rintro rfl
      exact .computed value
    · intro h
      cases h
      rfl
  | association target own foreign optional =>
    simp only [resolveMember]
    constructor
    · intro h
      split at h
      · next targetTable htarget =>
        obtain ⟨o, ho, h⟩ := bind_eq_ok_iff.mp h
        obtain ⟨f, hf, h⟩ := bind_eq_ok_iff.mp h
        cases h
        obtain ⟨e', he', rfl, t', ht'⟩ := (hbound target targetTable).mp htarget
        exact .association optional he' ((resolveColumn_eq_ok_iff ht).mp ho) ((resolveColumn_eq_ok_iff ht').mp hf)
      · cases h
    · intro h
      cases h with
      | @association e' _ _ o f _ he' ho hf =>
        have hplaces := hf
        obtain ⟨t', -, ht', -⟩ := hplaces
        simp only [hbound.lookup he' ht', bind_eq_ok_iff, resolveColumn_eq_ok_iff ht, resolveColumn_eq_ok_iff ht']
        exact ⟨o, ho, f, hf, rfl⟩

variable (he : e ∈ spec.entities)

include he

theorem resolveEntity_eq_ok_iff {r : Entity} :
    resolveEntity ⟨spec.tables⟩ bound e = .ok r ↔ ∃ members,
      List.Forall₂ (fun p q => p.1 = q.1 ∧ spec.Means e p.2 q.2) e.members members ∧
        ⟨e.name, table, Keyed.ofList members⟩ = r := by
  have hmember : ∀ (p : String × MemberSpec) (q : String × Member),
      (resolveMember ⟨spec.tables⟩ bound table p.2 >>= fun m => .ok (p.1, m)) = .ok q ↔
        p.1 = q.1 ∧ spec.Means e p.2 q.2 := by
    intro p q
    simp only [bind_eq_ok_iff, resolveMember_eq_ok_iff hbound ht, Except.ok.injEq, Prod.ext_iff]
    grind
  simp only [resolveEntity, hbound.lookup he ht, bind_eq_ok_iff, mapM_eq_ok_iff, hmember, Except.ok.injEq]

theorem exists_resolveEntity_iff :
    (∃ r, resolveEntity ⟨spec.tables⟩ bound e = .ok r) ↔ ∀ p ∈ e.members, spec.Resolves e p.2 := by
  have hmember : ∀ p : String × MemberSpec,
      (∃ q : String × Member, p.1 = q.1 ∧ spec.Means e p.2 q.2) ↔ spec.Resolves e p.2 := by
    intro p
    simp [← exists_means_iff]
  simp only [resolveEntity_eq_ok_iff hbound ht he, ← hmember, ← exists_forall₂_iff]
  grind

theorem describes_of_resolveEntity {r : Entity} (h : resolveEntity ⟨spec.tables⟩ bound e = .ok r) :
    spec.Describes e r := by
  obtain ⟨members, hmembers, rfl⟩ := (resolveEntity_eq_ok_iff hbound ht he).mp h
  constructor
  · rfl
  · exact ⟨t, ht⟩
  · have hnames : List.Forall₂ (fun p q => p.1 = q.1) e.members members := hmembers.imp fun _ _ h => h.1
    rw [Keyed.map_key_ofList, map_eq_map_of_forall₂ hnames]
  -- the last item of a name is the first from the end, among the specifications as among the members
  · intro name m hm
    obtain ⟨q, hq, rfl⟩ := Option.map_eq_some_iff.mp hm
    rw [Keyed.find?_ofList] at hq
    obtain ⟨p, hp, -, hmeans⟩ := find?_of_forall₂ (fun _ _ h => h.1) (List.forall₂_reverse_iff.mpr hmembers) hq
    exact ⟨p, hp, hmeans⟩

end Bound

/-! The whole specification. -/

theorem resolve_eq_ok_iff {schema : Schema} : spec.resolve = .ok schema ↔
    ∃ bound, bindTables ⟨spec.tables⟩ spec.entities [] = .ok bound ∧ ∃ entities,
      List.Forall₂ (fun e r => resolveEntity ⟨spec.tables⟩ bound e = .ok r) spec.entities entities ∧
        ⟨⟨spec.tables⟩, Keyed.ofList entities⟩ = schema := by
  simp only [resolve, bind_eq_ok_iff, mapM_eq_ok_iff, Except.ok.injEq]

theorem exists_bound_iff : (∃ bound, bindTables ⟨spec.tables⟩ spec.entities [] = .ok bound) ↔
    (∀ e ∈ spec.entities, ∃ t ∈ spec.tables, t.name = e.table) ∧ (spec.entities.map EntitySpec.name).Nodup := by
  simp only [exists_bindTables_iff, tableNamed?_eq_some_iff, FirstNamed.exists_iff]
  simp

/-- Specifications resolve when they are closed. -/
theorem exists_resolve_iff : (∃ schema, spec.resolve = .ok schema) ↔ spec.Closed := by
  constructor
  · intro ⟨schema, h⟩
    obtain ⟨bound, hbind, entities, hentities, -⟩ := resolve_eq_ok_iff.mp h
    obtain ⟨htables, hdistinct⟩ := exists_bound_iff.mp ⟨bound, hbind⟩
    refine ⟨htables, hdistinct, fun e he => ?_⟩
    obtain ⟨table, t, ht⟩ := FirstNamed.exists_iff.mpr (htables e he)
    have hresolved := exists_forall₂_iff.mp ⟨entities, hentities⟩ e he
    exact (exists_resolveEntity_iff (binds_of_bindTables hbind) ht he).mp hresolved
  · intro h
    obtain ⟨bound, hbind⟩ := exists_bound_iff.mpr ⟨h.tables, h.distinct⟩
    have hresolved : ∀ e ∈ spec.entities, ∃ r, resolveEntity ⟨spec.tables⟩ bound e = .ok r := by
      intro e he
      obtain ⟨table, t, ht⟩ := FirstNamed.exists_iff.mpr (h.tables e he)
      exact (exists_resolveEntity_iff (binds_of_bindTables hbind) ht he).mpr (h.members e he)
    obtain ⟨entities, hentities⟩ := exists_forall₂_iff.mpr hresolved
    exact ⟨_, resolve_eq_ok_iff.mpr ⟨bound, hbind, entities, hentities, rfl⟩⟩

/-! What can be told of a schema whose entities are as they are described. -/

section Described

variable {m : Mapping} {r : Entity} {name : String}

theorem Describes.exists_places (h : spec.Describes e r) {id : ColumnId} (hm : r.member? name = some (.column id)) :
    ∃ column, spec.Places e.table column id := by
  obtain ⟨p, -, hmeans⟩ := h.members name _ hm
  generalize p.2 = given at hmeans
  cases hmeans with
  | column hplaces => exact ⟨_, hplaces⟩

theorem Places.table_eq {table column : String} {i : TableId} {t : Table} {id : ColumnId}
    (h : spec.Places table column id) (ht : FirstNamed Table.name spec.tables table i t) : id.table = i := by
  obtain ⟨t', c, ht', -⟩ := h
  exact (ht'.unique ht).1

theorem exists_entity?_of_mem (h : List.Forall₂ spec.Describes spec.entities m.items) (he : e ∈ spec.entities) :
    ∃ r, m.entity? e.name = some r ∧ spec.Describes e r := by
  obtain ⟨r, hmem, hr⟩ := exists_mem_of_forall₂ h he
  rw [← hr.name]
  exact ⟨r, Keyed.find?_eq_some_of_mem m.distinct hmem, hr⟩

theorem exists_target (h : List.Forall₂ spec.Describes spec.entities m.items) (he : spec.Describes e r)
    {a : Association} (hm : r.member? name = some (.association a)) :
    ∃ t, m.entity? a.target = some t ∧ a.own.table = r.table ∧ a.foreign.table = t.table := by
  obtain ⟨p, -, hmeans⟩ := he.members name _ hm
  generalize p.2 = given at hmeans
  cases hmeans with
  | association _ ht hown hforeign =>
    obtain ⟨target, hfind, htarget⟩ := exists_entity?_of_mem h ht
    obtain ⟨_, htable⟩ := he.table
    obtain ⟨_, htable'⟩ := htarget.table
    exact ⟨target, hfind, hown.table_eq htable, hforeign.table_eq htable'⟩

end Described

theorem realizes_of_resolve {schema : Schema} (h : spec.resolve = .ok schema) : spec.Realizes schema := by
  have hclosed : spec.Closed := exists_resolve_iff.mp ⟨schema, h⟩
  obtain ⟨bound, hbind, entities, hentities, rfl⟩ := resolve_eq_ok_iff.mp h
  have hdescribes : List.Forall₂ spec.Describes spec.entities entities := by
    refine ((List.forall₂_and_left _ _).mpr ⟨fun e he => he, hentities⟩).imp fun e r ⟨he, hr⟩ => ?_
    obtain ⟨table, t, ht⟩ := FirstNamed.exists_iff.mpr (hclosed.tables e he)
    exact describes_of_resolveEntity (binds_of_bindTables hbind) ht he hr
  -- the names are distinct, so the mapping has the entities as they are listed
  have hnames : spec.entities.map EntitySpec.name = entities.map Entity.name :=
    map_eq_map_of_forall₂ (hdescribes.imp fun _ _ hr => hr.name.symm)
  have hitems : (Keyed.ofList entities : Mapping).items = entities := Keyed.items_ofList (hnames ▸ hclosed.distinct)
  rw [← hitems] at hdescribes
  refine ⟨rfl, hdescribes, fun e he => exists_entity?_of_mem hdescribes he, fun r hr name a hm => ?_⟩
  obtain ⟨e, -, he⟩ := exists_of_mem_of_forall₂ hdescribes hr
  exact exists_target hdescribes he hm

/-- A specification resolves exactly when it is closed, and nothing in it is lost or taken for something else then. -/
theorem resolve_iff_closed (spec : Spec) :
    ((∃ schema, spec.resolve = .ok schema) ↔ spec.Closed) ∧
      ∀ schema, spec.resolve = .ok schema → spec.Realizes schema :=
  ⟨exists_resolve_iff, fun _ h => realizes_of_resolve h⟩

/-- A member that is declared again must resolve all the same. -/
example : Spec.resolve ⟨[⟨"employees", [⟨"id", .int .bits32, true, false⟩]⟩],
    [⟨"Employee", "employees", [("id", .column "key"), ("id", .column "id")]⟩]⟩ =
      .error (.unknownColumn "employees" "key") := rfl

end Spec
end ObjectQuery
