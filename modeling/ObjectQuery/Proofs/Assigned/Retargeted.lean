import ObjectQuery.Proofs.Assigned.Appends
import ObjectQuery.Proofs.Assigned.Selected

/-!
What the statement of a sequence becomes when its rows are made to drive an update of another table. On the way it only
gains joins, which all are made lasting, and at the end it gets its target, the items of the setter and their values.
-/
namespace ObjectQuery

open Build

/-- The entity whose rows a sequence starts from. -/
def Node.origin? : Node → Option String
  | ⟨_, .sequence source :: _⟩ => source.origin?
  | ⟨_, .entity name :: _⟩ => some name
  | _ => none
  termination_by structural node => node

theorem Node.origin?_of_primary? {node source : Node} (h : node.primary? = some source) :
    node.origin? = source.origin? := by
  obtain ⟨kind, arguments⟩ := node
  cases arguments with
  | nil => cases h
  | cons argument rest =>
    cases argument with
    | sequence inner =>
      cases h
      rfl
    | _ => cases h

theorem Node.origin?_of_arguments {node : Node} {name : String} {rest : List Argument}
    (h : node.arguments = .entity name :: rest) : node.origin? = some name := by
  obtain ⟨kind, arguments⟩ := node
  cases h
  rfl

theorem Context.table_of_core {d : Context} {p : Option ContextId} {m : StatementId} {r : Rows}
    (h : (Context.table p m r).core = d.core) : ∃ q r', d = .table q m r' ∧ r'.table = r.table := by
  cases d with
  | table q m' r' =>
    simp only [core, Context.table.injEq, Rows.mk.injEq, true_and] at h
    obtain ⟨rfl, -, htable, -⟩ := h
    exact ⟨q, r', rfl, htable.symm⟩
  | _ => simp [core] at h

/-- The statement has gained these joins, and some of its joins may have become lasting. Of all else, only its select
list may be another. -/
structure Statement.Accrues (before after : Statement) (added : List Join) : Prop where
  kind : after.kind = before.kind
  condition : after.condition = before.condition
  update : after.update = before.update
  sources : after.sources.settle = Sources.settle ⟨before.sources.root, before.sources.joins ++ added⟩

namespace Statement

variable {a b c : Statement} {added more : List Join}

theorem Accrues.root (h : a.Accrues b added) : b.sources.root = a.sources.root :=
  (congrArg Sources.root h.sources :)

theorem Accrues.joins (h : a.Accrues b added) :
    b.sources.settle.joins = (a.sources.joins ++ added).map fun j => { j with weak := false } :=
  (congrArg Sources.joins h.sources :)

theorem accrues_joinAll (st : Statement) (joins : List Join) : st.Accrues (st.joinAll joins) joins :=
  ⟨rfl, rfl, rfl, rfl⟩

theorem accrues_select (st : Statement) (select : List SqlExpr) : st.Accrues { st with select } [] where
  kind := rfl
  condition := rfl
  update := rfl
  sources := by simp [Sources.settle]

theorem accrues_settle (st : Statement) (select : List SqlExpr) :
    st.Accrues { st with sources := st.sources.settle, select } [] where
  kind := rfl
  condition := rfl
  update := rfl
  sources := by simp [Sources.settle]

theorem Accrues.trans (h : a.Accrues b added) (k : b.Accrues c more) : a.Accrues c (added ++ more) where
  kind := k.kind.trans h.kind
  condition := k.condition.trans h.condition
  update := k.update.trans h.update
  sources := by
    have hjoins := h.joins
    simp only [Sources.settle] at hjoins
    rw [k.sources]
    simp [Sources.settle, h.root, hjoins]

end Statement

namespace BuildState

variable {s t u : BuildState} {m : StatementId}

/-- From one state to the other, all that becomes of the statement is that it accrues joins. -/
def Accrues (s : BuildState) (m : StatementId) (t : BuildState) : Prop :=
  ∀ before, s.statements[m]? = some before → ∃ after added, t.statements[m]? = some after ∧ before.Accrues after added

theorem Accrues.trans (h : s.Accrues m t) (k : t.Accrues m u) : s.Accrues m u := by
  intro before hs
  obtain ⟨middle, joins, ht, hjoins⟩ := h before hs
  obtain ⟨after, more, hu, hmore⟩ := k middle ht
  exact ⟨after, joins ++ more, hu, hjoins.trans hmore⟩

theorem Extends.accrues (h : s.Extends t) (m : StatementId) : s.Accrues m t := by
  intro before hs
  obtain ⟨joins, -, ht⟩ := h.statements m before hs
  exact ⟨_, joins, ht, before.accrues_joinAll joins⟩

theorem accrues_alter (s : BuildState) (m k : StatementId) {f : Statement → Statement}
    (hf : ∀ st : Statement, st.Accrues (f st) []) : s.Accrues m (s.alter k f) := by
  intro before hs
  rw [getElem?_alter, hs]
  split
  · exact ⟨f before, [], rfl, hf before⟩
  · exact ⟨before, [], rfl, before.accrues_select before.select⟩

end BuildState

namespace Compiler

variable [Observer] {c : Compiler} {n : Nat} {s t : BuildState} {m : StatementId} {node : Node} {id : ContextId}
  {sequence into : ContextId} {parent : Option ContextId} {table : TableId} {setter : Lambda} {st : Statement}

/-! Where the rows of a sequence come from. -/

theorem eq_of_run_buildFilter {rec : Calls} (hrun : (buildFilter rec node sequence parent).run s = (.ok id, t)) :
    id = sequence := by
  obtain ⟨_, s₁, -, hfilter⟩ := exists_of_run_bind hrun
  split at hfilter
  · obtain ⟨_, s₂, -, hlast⟩ := exists_of_run_bind hfilter
    cases hlast
    rfl
  · cases hfilter

theorem eq_of_run_buildSet {rec : Calls} (hrun : (c.buildSet rec node sequence parent).run s = (.ok id, t)) :
    id = sequence := by
  obtain ⟨_, s₁, -, hset⟩ := exists_of_run_bind hrun
  split at hset
  · obtain ⟨_, s₂, -, hset⟩ := exists_of_run_bind hset
    obtain ⟨_, s₃, -, hset⟩ := exists_of_run_bind hset
    obtain ⟨_, s₄, -, hset⟩ := exists_of_run_bind hset
    obtain ⟨_, s₅, -, hset⟩ := exists_of_run_bind hset
    obtain ⟨_, s₆, -, hlast⟩ := exists_of_run_bind hset
    cases hlast
    rfl
  · cases hset

theorem of_run_buildSource (hrun : (c.buildSource node parent).run s = (.ok id, t)) :
    ∃ name rest e number aliasName, node.arguments = .entity name :: rest ∧ c.schema.mapping.entity? name = some e ∧
      t.contexts[id]? = some (.table parent number ⟨e.name, e.table, aliasName, []⟩) := by
  unfold buildSource at hrun
  split at hrun
  · next name rest harguments =>
    obtain ⟨e, s₁, hentity, hrest⟩ := exists_of_run_bind hrun
    obtain ⟨aliasName, s₂, -, hrest⟩ := exists_of_run_bind hrest
    obtain ⟨number, s₃, -, henter⟩ := exists_of_run_bind hrest
    obtain ⟨rfl, rfl⟩ := of_run_addContext henter
    exact ⟨name, rest, e, number, aliasName, harguments, (of_run_orFail hentity).1, s₃.getElem?_enter_self _⟩
  · cases hrun

theorem of_run_buildSelect (hrun : (buildSelect node sequence parent).run s = (.ok id, t)) :
    ∃ number l scalar, t.contexts[id]? = some (.projection parent number sequence l scalar) := by
  obtain ⟨_, s₁, -, hselect⟩ := exists_of_run_bind hrun
  split at hselect
  · obtain ⟨d, s₂, -, henter⟩ := exists_of_run_bind hselect
    obtain ⟨rfl, rfl⟩ := of_run_addContext henter
    exact ⟨_, _, _, s₂.getElem?_enter_self _⟩
  · cases hselect

theorem plain_of_run_sequence (hrun : ((c.calls n).sequence parent node).run s = (.ok id, t))
    (hk : node.kind ≠ .update) : t.Plain id := by
  have hends := (calls_obey c.rooting n).sequence parent node s
  rw [Law.Yields, hrun] at hends
  cases hends with
  | gives _ made =>
    cases made with
    | rows plain => exact plain
    | update _ _ _ _ kind => exact absurd kind hk

theorem exists_table_of_yields {act : Build ContextId} (hends : c.rooting.Yields node s act)
    (hrun : act.run s = (.ok id, t)) (hs : s.Plain id) {p : Option ContextId} {r : Rows}
    (hd : t.contexts[id]? = some (.table p m r)) :
    ∃ q r', s.contexts[id]? = some (.table q m r') ∧ r'.table = r.table := by
  rw [Law.Yields, hrun] at hends
  obtain ⟨d, hd', -⟩ := hs
  cases hends with
  | gives contexts =>
    obtain ⟨e, he, hcore⟩ := contexts id d hd'
    obtain rfl := Option.some.inj (hd.symm.trans he)
    obtain ⟨q, r', rfl, htable⟩ := Context.table_of_core hcore
    exact ⟨q, r', hd', htable⟩

/-- Rows of a table are those of the entity that the sequence starts from. -/
theorem entity_of_run_sequence (hrun : ((c.calls n).sequence parent node).run s = (.ok id, t)) {p : Option ContextId}
    {r : Rows} (hd : t.contexts[id]? = some (.table p m r)) :
    ∃ name e, node.origin? = some name ∧ c.schema.mapping.entity? name = some e ∧ r.table = e.table := by
  induction n generalizing node id t p r with
  | zero => cases hrun
  | succ n ih =>
    have hsequence : (c.sequence (c.calls n) parent node).run s = (.ok id, t) := hrun
    have hcalls := calls_obey c.rooting n
    obtain ⟨b, s₁, hbuilder, hprimary⟩ := exists_of_run_bind hsequence
    obtain ⟨hb, rfl⟩ := of_run_ofExcept hbuilder
    have hkind := kind_eq_update_iff hb
    rcases primary?_of_builderFor hb with ⟨rfl, hnone⟩ | ⟨hne, inner, hinner⟩
    · rw [primarySequence?, hnone] at hprimary
      obtain ⟨name, rest, e, number, aliasName, harguments, he, ht⟩ := of_run_buildSource hprimary
      rw [hd] at ht
      cases ht
      exact ⟨name, e, Node.origin?_of_arguments harguments, he, rfl⟩
    · rw [primarySequence?, hinner, bind_map_left] at hprimary
      obtain ⟨sequence, s₂, hsource, hbuild⟩ := exists_of_run_bind hprimary
      have hplain := plain_of_run_sequence hsource (kind_of_primary hrun hinner).1
      rw [Node.origin?_of_primary? hinner]
      have hkept : id = sequence → c.rooting.Yields node s₂ (c.build (c.calls n) b node (some sequence) parent) →
          ∃ name e, inner.origin? = some name ∧ c.schema.mapping.entity? name = some e ∧ r.table = e.table := by
        rintro rfl hends
        obtain ⟨q, r', hd', htable⟩ := exists_table_of_yields hends hbuild hplain hd
        rw [← htable]
        exact ih hsource hd'
      cases b with
      | source => exact absurd rfl hne
      | filter =>
        have hends := yields_buildFilter hcalls hplain (mt hkind.mp (by decide)) parent
        exact hkept (eq_of_run_buildFilter hbuild) hends
      | set =>
        have hends := yields_buildSet hcalls hplain (mt hkind.mp (by decide)) parent
        exact hkept (eq_of_run_buildSet hbuild) hends
      | select =>
        obtain ⟨number, l, scalar, ht⟩ := of_run_buildSelect hbuild
        rw [hd] at ht
        cases ht
      | update =>
        obtain ⟨d, u, v, -, -, -, rfl, rfl⟩ := of_run_buildUpdate hbuild
        rw [BuildState.getElem?_enter_self] at hd
        cases hd

/-! What becomes of the statement. -/

theorem accrues_of_run_selectItems {steps : List String} {extent : Extent} {items : List Item} (m : StatementId)
    (hrun : (selectItems (c.calls n) sequence steps extent).run s = (.ok items, t)) : s.Accrues m t := by
  obtain ⟨converted, s₁, hconvert, henter⟩ := exists_of_run_bind hrun
  obtain ⟨d, s₂, hcontext, hread⟩ := exists_of_run_bind henter
  obtain ⟨-, rfl⟩ := of_run_context hcontext
  obtain ⟨st, s₃, hstatement, hregister⟩ := exists_of_run_bind hread
  obtain ⟨-, rfl⟩ := of_run_statement hstatement
  obtain ⟨_, s₄, hmodify, hlast⟩ := exists_of_run_bind hregister
  cases hlast
  have hext := (derives_itemsOf (c.calls_derive n) sequence steps extent).extends_of_run hconvert
  rw [eq_alter_of_run hmodify]
  exact (hext.accrues m).trans (BuildState.accrues_alter _ m _ fun st => st.accrues_select _)

theorem target_of_run_bindTarget (hst : s.statements[m]? = some st)
    (hrun : (c.bindTarget m table).run s = (.ok (), t)) :
    t.statements[m]? = some { st with update := { st.update with target := some table } } := by
  obtain ⟨st', hst', hconflict, -, rfl⟩ | ⟨⟨_, he⟩, -⟩ := of_run_bindTarget hrun trivial
  · obtain rfl := Option.some.inj (hst.symm.trans hst')
    have htarget : st.update.target.getD table = table := by
      cases ht : st.update.target with
      | none => rfl
      | some existing => simpa [Assignments.conflict?, ht] using hconflict
    rw [BuildState.getElem?_alter, if_pos rfl, hst, Option.map_some, Assignments.bind, htarget]
  · cases he

theorem of_run_completeUpdate (hst : s.statements[m]? = some st) (htarget : st.update.target = some table)
    (hrun : (c.completeUpdate m).run s = (.ok (), t)) :
    t.statements[m]? = some { st with kind := .update } ∧ ∀ item ∈ st.update.items, item.column.table = table := by
  obtain ⟨_, s₁, hread, hcomplete⟩ := exists_of_run_bind hrun
  obtain ⟨hst', rfl⟩ := of_run_statement hread
  obtain rfl := Option.some.inj (hst.symm.trans hst')
  dsimp only at hcomplete
  split at hcomplete
  · obtain ⟨name, s₂, -, hfail⟩ := exists_of_run_bind hcomplete
    cases hfail
  · next hnone =>
    refine ⟨by rw [eq_alter_of_run hcomplete, BuildState.getElem?_alter, if_pos rfl, hst, Option.map_some], ?_⟩
    simpa [htarget] using hnone

/-- The rows of the sequence are selected and its joins made lasting; then the setter is compiled, and what it has
joined in becomes lasting as well. -/
theorem of_run_assignInto (hst : s.statements[m]? = some st)
    (hrun : (c.assignInto (c.calls n) m sequence into table setter parent).run s = (.ok (), t)) :
    ∃ entries u more v filled added,
      (selectItems (c.calls n) sequence [] .all).run s = (.ok entries, u) ∧
      (c.setterItems (c.calls n) setter into (some table) sequence parent).run
        (u.alter m fun st => { st with sources := st.sources.settle, select := [] }) = (.ok more, v) ∧
      v.statements[m]? = some filled ∧ st.Accrues filled added ∧
      t.statements[m]? = some { filled with
        sources := filled.sources.settle
        select := more.map SetItem.value
        update := ⟨some table, filled.update.items ++ more⟩ } := by
  obtain ⟨entries, u, hselect, hrest⟩ := exists_of_run_bind hrun
  obtain ⟨_, s₂, hclear, hassign⟩ := exists_of_run_bind hrest
  obtain ⟨more, v, hsetter, hlast⟩ := exists_of_run_bind hassign
  obtain ⟨_, s₄, hvalues, htarget⟩ := exists_of_run_bind hlast
  obtain ⟨_, s₅, hbind, hadd⟩ := exists_of_run_bind htarget
  obtain rfl := eq_alter_of_run hclear
  have hcleared := u.accrues_alter m m fun st => st.accrues_settle []
  have hext := (derives_setterItems (c.calls_derive n) setter into (some table) sequence parent).extends_of_run hsetter
  obtain ⟨filled, added, hfilled, hadded⟩ :=
    ((accrues_of_run_selectItems m hselect).trans (hcleared.trans (hext.accrues m))) st hst
  have hshown : s₄.statements[m]? = some { filled with
      sources := filled.sources.settle, select := more.map SetItem.value } := by
    rw [eq_alter_of_run hvalues, BuildState.getElem?_alter, if_pos rfl, hfilled, Option.map_some]
  refine ⟨entries, u, more, v, filled, added, hselect, hsetter, hfilled, hadded, ?_⟩
  rw [eq_alter_of_run hadd, BuildState.getElem?_alter, if_pos rfl, target_of_run_bindTarget hshown hbind]
  rfl

/-- The context of the target is one of a table, which is that of the target's entity. -/
theorem of_run_updateInto {target : Node} (hst : s.statements[m]? = some st)
    (hrun : (c.updateInto (c.calls n) m sequence target setter parent).run s = (.ok (), t)) :
    ∃ name e into u before, target.origin? = some name ∧ c.schema.mapping.entity? name = some e ∧
      ((c.calls n).sequence parent target).run s = (.ok into, u) ∧ u.statements[m]? = some before ∧
      (∃ added, st.Accrues before added) ∧
      (c.assignInto (c.calls n) m sequence into e.table setter parent).run u = (.ok (), t) := by
  obtain ⟨into, u, htarget, hcheck⟩ := exists_of_run_bind hrun
  obtain ⟨table, v, htable, hassign⟩ := exists_of_run_bind hcheck
  obtain ⟨d, _, hcontext, hkind⟩ := exists_of_run_bind htable
  obtain ⟨hd, rfl⟩ := of_run_context hcontext
  have hext := ((c.calls_derive n).sequence parent target).derives.extends_of_run htarget
  obtain ⟨before, added, hbefore, hadded⟩ := hext.accrues m st hst
  split at hkind <;> cases hkind
  obtain ⟨name, e, horigin, he, hrows⟩ := entity_of_run_sequence htarget hd
  rw [hrows] at hassign
  exact ⟨name, e, into, _, before, horigin, he, htarget, hbefore, ⟨added, hadded⟩, hassign⟩

end Compiler

/-- The statement of a sequence, and what it is once the rows of the sequence drive an update: the source of its rows
and its condition are the same, its joins are all lasting, and its items, for columns of the target only, end with those
of the setter. -/
structure Statement.Redirected (before : Statement) (table : TableId) (more : List SetItem) (after : Statement) :
    Prop where
  kind : after.kind = .update
  target : after.update.target = some table
  root : after.sources.root = before.sources.root
  condition : after.condition = before.condition
  joins : ∃ added, after.sources.joins = (before.sources.joins ++ added).map fun j => { j with weak := false }
  lasting : after.sources.hasWeakJoins = false
  items : after.update.items = before.update.items ++ more
  columns : ∀ item ∈ after.update.items, item.column.table = table

/-- An update of another sequence turns the statement of its source into an update of the table of the target's entity.
The setter is compiled when the joins of the source are lasting already; those that it brings in come after these, and
become lasting too. -/
theorem Compiler.redirected_of_compile {c : Compiler} {fuel : Nat} {source target : Node} {setter : Lambda}
    {q : CompiledQuery} (h : c.compile fuel (source.updateInto target setter) = .ok q) :
    ∃ depth sequence s before name e into t entries u more v filled root, fuel = depth + 1 ∧
      ((c.calls depth).sequence none source).run {} = (.ok sequence, s) ∧
      s.contexts[sequence]?.map Context.statement = some q.root ∧ s.statements[q.root]? = some before ∧
      target.origin? = some name ∧ c.schema.mapping.entity? name = some e ∧
      ((c.calls depth).sequence none target).run s = (.ok into, t) ∧
      (selectItems (c.calls depth) sequence [] .all).run t = (.ok entries, u) ∧
      (c.setterItems (c.calls depth) setter into (some e.table) sequence none).run
        (u.alter q.root fun st => { st with sources := st.sources.settle, select := [] }) = (.ok more, v) ∧
      v.statements[q.root]? = some filled ∧ q.statements[q.root]? = some root ∧
      root.sources = filled.sources.settle ∧ before.Redirected e.table more root := by
  obtain ⟨_, depth, sequence, s, d, x, y, hdepth, hprimary, hkind, hsource, hd, hroot, hinto, hcomplete, hq, -⟩ :=
    of_compile_update h rfl
  obtain rfl := Option.some.inj ((Node.primary?_chain ..).symm.trans hprimary)
  obtain ⟨m, _, hbuilds, ⟨before, hbefore, -⟩, -⟩ := lists_of_run_sequence hsource hkind
  obtain rfl : m = q.root := (statement_eq_of_builds hbuilds hd).symm.trans hroot
  obtain ⟨name, e, into, t, opened, horigin, he, htarget, hopened, ⟨first, hfirst⟩, hassign⟩ :=
    of_run_updateInto hbefore hinto
  obtain ⟨entries, u, more, v, filled, second, hselect, hsetter, hfilled, hsecond, hx⟩ :=
    of_run_assignInto hopened hassign
  obtain ⟨hy, hcolumns⟩ := of_run_completeUpdate hx rfl hcomplete
  have haccrues := hfirst.trans hsecond
  refine ⟨depth, sequence, s, before, name, e, into, t, entries, u, more, v, filled, _, hdepth, hsource, ?_,
    hbefore, horigin, he, htarget, hselect, hsetter, hfilled, hq ▸ hy, rfl, ?_⟩
  · rw [hd, Option.map_some, hroot]
  exact {
    kind := rfl
    target := rfl
    root := haccrues.root
    condition := haccrues.condition
    joins := ⟨_, haccrues.joins⟩
    lasting := by simp [Sources.settle, Sources.hasWeakJoins]
    items := by rw [← haccrues.update]
    columns := hcolumns }

/-- The employees of departments called `x` are renamed, and drive an update that gives employees the numbers of
their managers. -/
def promotedStaff : Node :=
  (((Node.source "Employee").filter ⟨["e"], .binary (.comparison .equal)
      (.member (.member (.parameter "e") "department") "name") (.literal (.text "x"))⟩).set
    ⟨["e"], .member (.parameter "e") "name"⟩ (.literal (.text "y"))).updateInto (Node.source "Employee")
      ⟨["e"], .construct [("id", .member (.member (.parameter "e") "manager") "id")]⟩

def promotedStaffQuery : CompiledQuery :=
  (Compiler.company.compile 14 promotedStaff).toOption.getD default

/-- The departments are joined in provisionally by the source, the managers by the setter, and both joins last. -/
theorem Compiler.redirected_promotedStaff :
    Compiler.company.compile 14 promotedStaff = .ok promotedStaffQuery ∧ ∃ (before root : Statement) (more : _),
      promotedStaffQuery.statements[promotedStaffQuery.root]? = some root ∧ before.Redirected 0 more root ∧
        before.sources.joins.map Join.weak = [true] ∧ root.sources.joins.map Join.weak = [false, false] ∧
        root.update.items.map SetItem.column = [⟨0, 1⟩, ⟨0, 0⟩] := by
  have hq : Compiler.company.compile 14 promotedStaff = .ok promotedStaffQuery := rfl
  obtain ⟨depth, _, s, before, name, e, _, _, _, _, more, _, _, root, hdepth, hsource, -, hbefore, hname, he,
    -, -, -, -, hroot, -, hredirected⟩ := Compiler.redirected_of_compile hq
  obtain rfl : depth = 13 := by omega
  cases hsource
  cases hname
  cases he
  refine ⟨hq, before, root, more, hroot, hredirected, ?_, ?_, ?_⟩
  · cases hbefore
    rfl
  · cases hroot
    rfl
  · cases hroot
    rfl

end ObjectQuery
