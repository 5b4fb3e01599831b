import ObjectQuery.Proofs.Assigned.Chain
import ObjectQuery.Proofs.Retarget

/-!
The items of an update: those of the sets over its source, then those of its setter.
-/
namespace ObjectQuery

open Build

def Node.setter? (node : Node) : Option Lambda :=
  match node.operands with
  | [.lambda setter] | [.lambda _, .lambda setter] | [.sequence _, .lambda setter] => some setter
  | _ => none

/-- The state that a compilation ends in, as far as the query shows it. -/
def CompiledQuery.state (q : CompiledQuery) : BuildState :=
  { statements := q.statements, contexts := q.contexts }

namespace Compiler

variable [Observer] {c : Compiler} {n : Nat} {into sequence id : ContextId} {parent : Option ContextId}
  {table : Option TableId} {m : StatementId} {s t z : BuildState} {items : List SetItem} {setter : Lambda}
  {node : Node}

omit [Observer] in
/-- The rows that an update of the sequence applies to, or the sequence itself if there are none to be found. -/
def rowsOrSelf (rec : Calls) (sequence : ContextId) : Build ContextId := do
  pure ((← updatedRows? rec sequence).elim sequence Prod.fst)

/-- The context that the left sides of the setter belong to: the target if it is a sequence of its own, otherwise the
rows of the source, once it is restricted by the condition. -/
def targetContext (rec : Calls) (operands : List Argument) (sequence : ContextId) (parent : Option ContextId) :
    Build ContextId :=
  match operands with
  | [.sequence target, _] => rec.sequence parent target
  | [.lambda l, _] => do
    restrict rec sequence l parent
    rowsOrSelf rec sequence
  | _ => rowsOrSelf rec sequence

/-- In the state `z`, the items are those of the setter, whose parameter ranges over the sequence. -/
structure Fulfils (c : Compiler) (n : Nat) (z : BuildState) (setter : Lambda) (into sequence : ContextId)
    (parent : Option ContextId) (items : List SetItem) : Prop where
  shallow : setter.body.nesting ≤ c.settings.maxSetterDepth
  assigned : ∃ scope row m, setter.row? = some row ∧
    z.contexts[scope]? = some (.lambda parent m [(row, sequence)]) ∧
    List.Forall₂ (Assigns (c.calls n) z into scope) (setter.body.assigned []) items

theorem of_run_lambdaScope {l : Lambda} (h : (lambdaScope l sequence parent).run s = (.ok id, t)) :
    ∃ row m, l.row? = some row ∧ t.contexts[id]? = some (.lambda parent m [(row, sequence)]) := by
  obtain ⟨row, _, hfound, hcontext⟩ := exists_of_run_bind h
  obtain ⟨hrow, rfl⟩ := of_run_orFail hfound
  obtain ⟨d, _, hd, henter⟩ := exists_of_run_bind hcontext
  obtain ⟨-, rfl⟩ := of_run_context hd
  obtain ⟨rfl, rfl⟩ := of_run_addContext henter
  exact ⟨row, d.statement, hrow, BuildState.getElem?_enter_self _ _⟩

theorem fulfils_of_run (hb : setter.body.bindings?.isSome)
    (hrun : (c.setterItems (c.calls n) setter into table sequence parent).run s = (.ok items, t)) (hz : t.Later z) :
    c.Fulfils n z setter into sequence parent items := by
  obtain ⟨bindings, hb⟩ := Option.isSome_iff_exists.mp hb
  obtain ⟨scope, u, hscope, hflatten⟩ := exists_of_run_bind hrun
  rw [hb] at hflatten
  obtain ⟨row, m, hrow, hu⟩ := of_run_lambdaScope hscope
  obtain ⟨hdepth, hall⟩ := assigns_of_flatten hflatten hz
  have hut := ((derives_flatten (c.calls_derive n) into table scope _ [] bindings).extends_of_run hflatten).later
  obtain ⟨more, hd⟩ := (hut.trans hz) scope _ hu
  refine ⟨?_, scope, row, m, hrow, hd, ?_⟩
  · rwa [Expr.nesting_of_bindings? hb]
  · rwa [Expr.assigned_of_bindings? hb]

theorem lists_of_run_setterItems (hl : s.Lists m items) {more : List SetItem}
    (hrun : (c.setterItems (c.calls n) setter into table sequence parent).run s = (.ok more, t)) :
    t.Lists m items :=
  hl.mono ((derives_setterItems (c.calls_derive n) setter into table sequence parent).extends_of_run hrun)

theorem lists_of_run_updateWith (hb : setter.body.bindings?.isSome) (hl : s.Lists m items)
    (hrun : (c.updateWith (c.calls n) m sequence setter parent).run s = (.ok (), t)) :
    ∃ into u more, (rowsOrSelf (c.calls n) sequence).run s = (.ok into, u) ∧ t.Lists m (items ++ more) ∧
      ∀ z, t.Later z → c.Fulfils n z setter into sequence parent more := by
  obtain ⟨rows, u, hrows, hassign⟩ := exists_of_run_bind hrun
  have hself : (rowsOrSelf (c.calls n) sequence).run s = (.ok (rows.elim sequence Prod.fst), u) := by
    rw [rowsOrSelf, run_bind, hrows]
    rfl
  have hu := hl.mono ((derives_updatedRows? (c.calls_derive n)).extends_of_run hrows)
  cases rows with
  | some row =>
    obtain ⟨_, v, hbind, hitems⟩ := exists_of_run_bind hassign
    obtain ⟨more, w, hsetter, hadd⟩ := exists_of_run_bind hitems
    have hw := lists_of_run_setterItems ((retains_bindTarget m _).lists_of_run hu hbind) hsetter
    refine ⟨_, u, more, hself, lists_of_run_addItems hw hadd, fun z hz => ?_⟩
    exact fulfils_of_run hb hsetter ((later_of_run_modifyStatement hadd).trans hz)
  | none =>
    obtain ⟨more, v, hsetter, hitems⟩ := exists_of_run_bind hassign
    obtain ⟨_, w, hbind, hadd⟩ := exists_of_run_bind hitems
    have hbound := retains_bindItems (c := c) m more
    have hw := hbound.lists_of_run (lists_of_run_setterItems hu hsetter) hbind
    refine ⟨_, u, more, hself, lists_of_run_addItems hw hadd, fun z hz => ?_⟩
    exact fulfils_of_run hb hsetter
      ((hbound.later_of_run hbind).trans ((later_of_run_modifyStatement hadd).trans hz))

/-- The statement selects the assigned values as well, but it is assigned to by the setter only. -/
theorem lists_of_run_assignInto {table : TableId} (hb : setter.body.bindings?.isSome) (hl : s.Lists m items)
    (hrun : (c.assignInto (c.calls n) m sequence into table setter parent).run s = (.ok (), t)) :
    ∃ more, t.Lists m (items ++ more) ∧ ∀ z, t.Later z → c.Fulfils n z setter into sequence parent more := by
  have hselects : Retains (selectItems (c.calls n) sequence [] .all) := retains_selectItems (c.calls_derive n) _ _ _
  have hsettle : ∀ select : List SqlExpr,
      Retains (modifyStatement m fun st => { st with sources := st.sources.settle, select }) :=
    fun _ => .modifyStatement fun _ => rfl
  obtain ⟨_, s₁, hselect, hrest⟩ := exists_of_run_bind hrun
  obtain ⟨_, s₂, hclear, hassign⟩ := exists_of_run_bind hrest
  obtain ⟨more, s₃, hsetter, hlast⟩ := exists_of_run_bind hassign
  obtain ⟨_, s₄, hvalues, htarget⟩ := exists_of_run_bind hlast
  obtain ⟨_, s₅, hbind, hadd⟩ := exists_of_run_bind htarget
  have hl₃ := lists_of_run_setterItems
    ((hsettle []).lists_of_run (hselects.lists_of_run hl hselect) hclear) hsetter
  have hl₅ := (retains_bindTarget m table).lists_of_run ((hsettle _).lists_of_run hl₃ hvalues) hbind
  refine ⟨more, lists_of_run_addItems hl₅ hadd, fun z hz => fulfils_of_run hb hsetter ?_⟩
  exact ((hsettle _).later_of_run hvalues).trans
    (((retains_bindTarget m table).later_of_run hbind).trans ((later_of_run_modifyStatement hadd).trans hz))

theorem lists_of_run_updateInto {target : Node} (hb : setter.body.bindings?.isSome) (hl : s.Lists m items)
    (hrun : (c.updateInto (c.calls n) m sequence target setter parent).run s = (.ok (), t)) :
    ∃ into u more, ((c.calls n).sequence parent target).run s = (.ok into, u) ∧ t.Lists m (items ++ more) ∧
      ∀ z, t.Later z → c.Fulfils n z setter into sequence parent more := by
  obtain ⟨into, u, htarget, hcheck⟩ := exists_of_run_bind hrun
  obtain ⟨table, v, htable, hassign⟩ := exists_of_run_bind hcheck
  have hu := hl.mono (((c.calls_derive n).sequence parent target).derives.extends_of_run htarget)
  have hv : v.Lists m items := by
    obtain ⟨d, _, hcontext, hkind⟩ := exists_of_run_bind htable
    obtain ⟨-, rfl⟩ := of_run_context hcontext
    split at hkind <;> cases hkind
    exact hu
  obtain ⟨more, hmore, hz⟩ := lists_of_run_assignInto hb hv hassign
  exact ⟨into, u, more, htarget, hmore, hz⟩

theorem lists_of_run_assign (hb : ∀ setter, node.setter? = some setter → setter.body.bindings?.isSome)
    (hl : s.Lists m items) (hrun : (c.assign (c.calls n) m sequence node.operands parent).run s = (.ok (), t)) :
    ∃ more, t.Lists m (items ++ more) ∧ (node.setter? = none → more = []) ∧
      ∀ setter, node.setter? = some setter →
        ∃ into u, (targetContext (c.calls n) node.operands sequence parent).run s = (.ok into, u) ∧
          ∀ z, t.Later z → c.Fulfils n z setter into sequence parent more := by
  unfold Node.setter? at hb ⊢
  generalize node.operands = operands at hb hrun ⊢
  unfold assign at hrun
  split at hrun
  · obtain ⟨rows, u, hrows, hbind⟩ := exists_of_run_bind hrun
    have hu := hl.mono ((derives_updatedRows? (c.calls_derive n)).extends_of_run hrows)
    refine ⟨[], ?_, fun _ => rfl, nofun⟩
    rw [List.append_nil]
    cases rows with
    | none =>
      obtain ⟨-, rfl⟩ := Prod.mk.inj hbind
      exact hu
    | some row => exact (retains_bindTarget m row.2).lists_of_run hu hbind
  · obtain ⟨into, u, more, hinto, hmore, hz⟩ := lists_of_run_updateWith (hb _ rfl) hl hrun
    refine ⟨more, hmore, nofun, fun setter hs => ?_⟩
    cases hs
    exact ⟨into, u, hinto, hz⟩
  · next l setter =>
    obtain ⟨_, v, hrestrict, hassign⟩ := exists_of_run_bind hrun
    have hv := (retains_restrict (c.calls_derive n) sequence l parent).lists_of_run hl hrestrict
    obtain ⟨into, u, more, hinto, hmore, hz⟩ := lists_of_run_updateWith (hb _ rfl) hv hassign
    refine ⟨more, hmore, nofun, fun setter hs => ?_⟩
    cases hs
    exact ⟨into, u, by rw [targetContext, run_bind, hrestrict]; exact hinto, hz⟩
  · obtain ⟨into, u, more, hinto, hmore, hz⟩ := lists_of_run_updateInto (hb _ rfl) hl hrun
    refine ⟨more, hmore, nofun, fun setter hs => ?_⟩
    cases hs
    exact ⟨into, u, hinto, hz⟩
  · cases hrun

theorem of_run_buildUpdate (hrun : (c.buildUpdate (c.calls n) node sequence parent).run s = (.ok id, t)) :
    ∃ d u v, s.contexts[sequence]? = some d ∧
      (c.assign (c.calls n) d.statement sequence node.operands parent).run s = (.ok (), u) ∧
      (c.completeUpdate d.statement).run u = (.ok (), v) ∧ id = v.contexts.length ∧
      t = v.enter (.update parent d.statement sequence) := by
  obtain ⟨_, s₁, hcomposable, hread⟩ := exists_of_run_bind hrun
  obtain rfl := of_run_ensureComposable hcomposable
  obtain ⟨d, s₂, hcontext, hupdate⟩ := exists_of_run_bind hread
  obtain ⟨hd, rfl⟩ := of_run_context hcontext
  obtain ⟨_, u, hassign, hlast⟩ := exists_of_run_bind hupdate
  obtain ⟨_, v, hcomplete, henter⟩ := exists_of_run_bind hlast
  obtain ⟨rfl, rfl⟩ := of_run_addContext henter
  exact ⟨d, u, v, hd, hassign, hcomplete, rfl, rfl⟩

end Compiler

/-- The compilation of an update: its source, the assignments, and its completion. -/
theorem Compiler.of_compile_update {c : Compiler} {fuel : Nat} {node : Node} {q : CompiledQuery}
    (h : c.compile fuel node = .ok q) (hk : node.kind = .update) :
    ∃ source depth sequence s d u v, fuel = depth + 1 ∧ node.primary? = some source ∧ source.kind ≠ .update ∧
      ((c.calls depth).sequence none source).run {} = (.ok sequence, s) ∧ s.contexts[sequence]? = some d ∧
      d.statement = q.root ∧ (c.assign (c.calls depth) q.root sequence node.operands none).run s = (.ok (), u) ∧
      (c.completeUpdate q.root).run u = (.ok (), v) ∧ q.statements = v.statements ∧ v.Later q.state := by
  obtain ⟨number, id, s, hrun, rfl⟩ := of_compile h
  obtain ⟨id, t, hsequence, hfinish⟩ := exists_of_run_bind hrun
  cases fuel with
  | zero => cases hsequence
  | succ depth =>
    obtain ⟨b, _, hfound, hprimary⟩ := exists_of_run_bind hsequence
    obtain ⟨hbuilder, rfl⟩ := of_run_ofExcept hfound
    obtain rfl := eq_update_of_builderFor hk hbuilder
    obtain ⟨hnone, -⟩ | ⟨-, source, hsource⟩ := primary?_of_builderFor hbuilder
    · cases hnone
    rw [primarySequence?, hsource, bind_map_left] at hprimary
    obtain ⟨sequence, s₁, hrows, hbuild⟩ := exists_of_run_bind hprimary
    obtain ⟨d, u, v, hd, hassign, hcomplete, rfl, rfl⟩ := of_run_buildUpdate hbuild
    obtain ⟨hroot, rfl⟩ := of_run_finish (v.getElem?_enter_self _) rfl hfinish
    cases hroot
    exact ⟨source, depth, sequence, s₁, d, u, v, rfl, hsource, (kind_of_primary hsequence hsource).1, hrows, hd, rfl,
      hassign, hcomplete, rfl, BuildState.later_enter v _⟩

/-- An update assigns what the sets over its source say, innermost first, and then what its setter says: one item for
each member that is given a value, depth first. The setter's items are for the columns that the paths denote in the
context of the target, and none of its constructions is nested deeper than the settings allow. -/
theorem Compiler.items_of_compile {c : Compiler} {fuel : Nat} {node : Node} {q : CompiledQuery}
    (h : c.compile fuel node = .ok q) (hk : node.kind = .update)
    (hb : ∀ setter, node.setter? = some setter → setter.body.bindings?.isSome) :
    ∃ source depth sequence s st before after, node.primary? = some source ∧
      ((c.calls depth).sequence none source).run {} = (.ok sequence, s) ∧
      q.statements[q.root]? = some st ∧ st.update.items = before ++ after ∧
      List.Forall₂ (c.SetsTo none {}) source.sets before ∧ (node.setter? = none → after = []) ∧
      ∀ setter, node.setter? = some setter →
        ∃ into u, (targetContext (c.calls depth) node.operands sequence none).run s = (.ok into, u) ∧
          c.Fulfils depth q.state setter into sequence none after := by
  obtain ⟨source, depth, sequence, s, d, u, v, -, hsource, hkind, hrows, hd, hroot, hassign, hcomplete, hq, hlater⟩ :=
    of_compile_update h hk
  obtain ⟨m, before, hbuilds, hl, hsets⟩ := lists_of_run_sequence hrows hkind
  obtain rfl : m = q.root := (statement_eq_of_builds hbuilds hd).symm.trans hroot
  obtain ⟨after, hmore, hnone, hsome⟩ := lists_of_run_assign hb hl hassign
  obtain ⟨st, hst, hitems⟩ := (retains_completeUpdate q.root).lists_of_run hmore hcomplete
  refine ⟨source, depth, sequence, s, st, before, after, hsource, hrows, hq ▸ hst, hitems, hsets, hnone, ?_⟩
  intro setter hsetter
  obtain ⟨into, w, hinto, hz⟩ := hsome setter hsetter
  exact ⟨into, w, hinto, hz _ (((retains_completeUpdate q.root).later_of_run hcomplete).trans hlater)⟩

def officeOf (employee : String) (member : String) : Expr :=
  .member (.member (.parameter employee) "department") member

def renumberOffice : Lambda :=
  ⟨["p"], .convert (.construct [("office", .construct [("id", .literal (.int 7))])])⟩

/-- The departments of employees are renamed, and then given another number. -/
def renumberedOffices : Node :=
  (((Node.source "Employee").select ⟨["e"], .construct [("office", .construct [("id", officeOf "e" "id"),
    ("name", officeOf "e" "name")])]⟩).set ⟨["p"], .member (.member (.parameter "p") "office") "name"⟩
    (.literal (.text "x"))).updateWith renumberOffice

def renumberedOfficesQuery : CompiledQuery :=
  (Compiler.company.compile 12 renumberedOffices).toOption.getD default

/-- The set comes first, then the one value of the setter, which is two constructions deep. -/
theorem Compiler.items_renumberedOffices :
    Compiler.company.compile 12 renumberedOffices = .ok renumberedOfficesQuery ∧ renumberedOffices.kind = .update ∧
      renumberedOffices.setter? = some renumberOffice ∧ renumberOffice.body.bindings?.isSome ∧
      ∃ st before after depth into sequence,
        renumberedOfficesQuery.statements[renumberedOfficesQuery.root]? = some st ∧
        before.map SetItem.column = [⟨1, 1⟩] ∧ after.map SetItem.column = [⟨1, 0⟩] ∧
        st.update.items = before ++ after ∧
        Compiler.company.Fulfils depth renumberedOfficesQuery.state renumberOffice into sequence none after := by
  have hq : Compiler.company.compile 12 renumberedOffices = .ok renumberedOfficesQuery := rfl
  have hb : ∀ setter, renumberedOffices.setter? = some setter → setter.body.bindings?.isSome := by
    rintro _ ⟨⟩
    rfl
  obtain ⟨_, depth, sequence, _, st, before, after, ⟨⟩, -, hst, hitems, hsets, -, hsetter⟩ :=
    Compiler.items_of_compile hq rfl hb
  obtain ⟨into, _, -, hfulfils⟩ := hsetter renumberOffice rfl
  refine ⟨hq, rfl, rfl, hb _ rfl, st, before, after, depth, into, sequence, hst, ?_⟩
  have hlength : before.length = 1 := hsets.length_eq.symm
  obtain ⟨item, rfl⟩ := List.length_eq_one_iff.mp hlength
  cases hst
  cases hitems
  exact ⟨rfl, rfl, rfl, hfulfils⟩

end ObjectQuery
