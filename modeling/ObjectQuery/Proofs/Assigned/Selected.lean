import ObjectQuery.Proofs.Assigned.Items

/-!
The select list of an update whose target is another sequence. It has the values of the setter's items, in order. The
items of sets over the source come before these in the list of items, and are not selected.
-/
namespace ObjectQuery

open Build

variable {s t : BuildState} {m : StatementId} {items : List SetItem} {values : List SqlExpr}

/-- The statement assigns these items and selects these values. -/
def BuildState.Shows (s : BuildState) (m : StatementId) (items : List SetItem) (values : List SqlExpr) : Prop :=
  ∃ st, s.statements[m]? = some st ∧ st.update.items = items ∧ st.select = values

theorem BuildState.Lists.selected (h : s.Lists m items) (values : List SqlExpr) :
    (s.alter m fun st => { st with sources := st.sources.settle, select := values }).Shows m items values := by
  obtain ⟨st, hm, rfl⟩ := h
  exact ⟨{ st with sources := st.sources.settle, select := values },
    by rw [getElem?_alter, if_pos rfl, hm, Option.map_some], rfl, rfl⟩

theorem BuildState.Shows.alter (h : s.Shows m items values) {f : Statement → Statement} {more : List SetItem}
    (hitems : ∀ st, (f st).update.items = st.update.items ++ more) (hselect : ∀ st, (f st).select = st.select) :
    (s.alter m f).Shows m (items ++ more) values := by
  obtain ⟨st, hm, rfl, rfl⟩ := h
  exact ⟨f st, by rw [getElem?_alter, if_pos rfl, hm, Option.map_some], hitems st, hselect st⟩

namespace Build

variable [Observer]

theorem eq_alter_of_run {f : Statement → Statement} (h : (modifyStatement m f).run s = (.ok (), t)) :
    t = s.alter m f := by
  rw [run_modifyStatement] at h
  split at h
  · cases h
  · exact (congrArg Prod.snd h).symm

end Build

namespace Compiler

variable [Observer] {c : Compiler} {n : Nat} {into sequence : ContextId} {table : TableId}
  {parent : Option ContextId} {setter : Lambda}

theorem shows_of_run_bindTarget (hs : s.Shows m items values) (hrun : (c.bindTarget m table).run s = (.ok (), t)) :
    t.Shows m items values := by
  obtain ⟨st, s₁, hread, hbind⟩ := exists_of_run_bind hrun
  obtain ⟨-, rfl⟩ := of_run_statement hread
  split at hbind
  · obtain ⟨first, s₂, -, hrest⟩ := exists_of_run_bind hbind
    obtain ⟨second, s₃, -, hfail⟩ := exists_of_run_bind hrest
    cases hfail
  · rw [eq_alter_of_run hbind, ← items.append_nil]
    exact hs.alter (fun _ => (List.append_nil _).symm) fun _ => rfl

theorem shows_of_run_completeUpdate (hs : s.Shows m items values)
    (hrun : (c.completeUpdate m).run s = (.ok (), t)) : t.Shows m items values := by
  obtain ⟨st, s₁, hread, hcomplete⟩ := exists_of_run_bind hrun
  obtain ⟨-, rfl⟩ := of_run_statement hread
  dsimp only at hcomplete
  split at hcomplete
  · obtain ⟨name, s₂, -, hfail⟩ := exists_of_run_bind hcomplete
    cases hfail
  · rw [eq_alter_of_run hcomplete, ← items.append_nil]
    exact hs.alter (fun _ => (List.append_nil _).symm) fun _ => rfl

/-- The values of the setter's items take the place of whatever was selected; the items go after those that the
statement has already. -/
theorem shows_of_run_assignInto (hl : s.Lists m items)
    (hrun : (c.assignInto (c.calls n) m sequence into table setter parent).run s = (.ok (), t)) :
    ∃ u v more, (c.setterItems (c.calls n) setter into (some table) sequence parent).run u = (.ok more, v) ∧
      t.Shows m (items ++ more) (more.map SetItem.value) := by
  obtain ⟨_, s₁, hselect, hrest⟩ := exists_of_run_bind hrun
  obtain ⟨_, s₂, hclear, hassign⟩ := exists_of_run_bind hrest
  obtain ⟨more, s₃, hsetter, hlast⟩ := exists_of_run_bind hassign
  obtain ⟨_, s₄, hvalues, htarget⟩ := exists_of_run_bind hlast
  obtain ⟨_, s₅, hbind, hadd⟩ := exists_of_run_bind htarget
  have hl₁ := (retains_selectItems (c.calls_derive n) _ _ _).lists_of_run hl hselect
  have hclears : Retains (modifyStatement m fun st => { st with sources := st.sources.settle, select := [] }) :=
    .modifyStatement fun _ => rfl
  have hl₂ := hclears.lists_of_run hl₁ hclear
  have hs₄ := (lists_of_run_setterItems hl₂ hsetter).selected (more.map SetItem.value)
  rw [← eq_alter_of_run hvalues] at hs₄
  refine ⟨s₂, s₃, more, hsetter, ?_⟩
  rw [eq_alter_of_run hadd]
  exact (shows_of_run_bindTarget hs₄ hbind).alter (fun _ => rfl) fun _ => rfl

theorem shows_of_run_updateInto {target : Node} (hl : s.Lists m items)
    (hrun : (c.updateInto (c.calls n) m sequence target setter parent).run s = (.ok (), t)) :
    ∃ into table u v more,
      (c.setterItems (c.calls n) setter into (some table) sequence parent).run u = (.ok more, v) ∧
      t.Shows m (items ++ more) (more.map SetItem.value) := by
  obtain ⟨into, u, htarget, hcheck⟩ := exists_of_run_bind hrun
  obtain ⟨table, v, htable, hassign⟩ := exists_of_run_bind hcheck
  have hu := hl.mono (((c.calls_derive n).sequence parent target).derives.extends_of_run htarget)
  obtain ⟨d, _, hcontext, hkind⟩ := exists_of_run_bind htable
  obtain ⟨-, rfl⟩ := of_run_context hcontext
  have hv : v.Lists m items := by
    split at hkind <;> cases hkind
    exact hu
  obtain ⟨x, y, more, hsetter, hs⟩ := shows_of_run_assignInto hv hassign
  exact ⟨into, table, x, y, more, hsetter, hs⟩

end Compiler

/-- An update of another sequence selects the values of its setter's items, one after the other. Every set over its
source has an item before these and no value in the select list, so the select list and the items line up exactly if
nothing was set over the source. -/
theorem Compiler.selected_of_compile {c : Compiler} {fuel : Nat} {source target : Node} {setter : Lambda}
    {q : CompiledQuery} (h : c.compile fuel (source.updateInto target setter) = .ok q) :
    ∃ st before after, q.statements[q.root]? = some st ∧ st.update.items = before ++ after ∧
      st.select = after.map SetItem.value ∧ List.Forall₂ (c.SetsTo none {}) source.sets before ∧
      (∃ depth into table sequence s t,
        (c.setterItems (c.calls depth) setter into (some table) sequence none).run s = (.ok after, t)) ∧
      (st.select = st.update.items.map SetItem.value ↔ source.sets = []) := by
  obtain ⟨_, depth, sequence, s, d, u, v, -, hsource, hkind, hrows, hd, hroot, hassign, hcomplete, hq, -⟩ :=
    of_compile_update h rfl
  obtain rfl := Option.some.inj ((Node.primary?_chain ..).symm.trans hsource)
  obtain ⟨m, before, hbuilds, hl, hsets⟩ := lists_of_run_sequence hrows hkind
  obtain rfl : m = q.root := (statement_eq_of_builds hbuilds hd).symm.trans hroot
  obtain ⟨into, table, x, y, after, hsetter, hshows⟩ := shows_of_run_updateInto hl hassign
  obtain ⟨st, hst, hitems, hselect⟩ := shows_of_run_completeUpdate hshows hcomplete
  refine ⟨st, before, after, hq ▸ hst, hitems, hselect, hsets, ⟨depth, into, table, sequence, x, y, hsetter⟩, ?_⟩
  rw [hselect, hitems, List.map_append, List.self_eq_append_left, List.map_eq_nil_iff,
    ← List.length_eq_zero_iff, ← hsets.length_eq, List.length_eq_zero_iff]

/-- Employees called `x` from now on are to have the numbers that they have. -/
def renamedRenumbered : Node :=
  ((Node.source "Employee").set ⟨["e"], .member (.parameter "e") "name"⟩ (.literal (.text "x"))).updateInto
    (Node.source "Employee") ⟨["e"], .construct [("id", .member (.parameter "e") "id")]⟩

def renamedRenumberedQuery : CompiledQuery :=
  (Compiler.company.compile 12 renamedRenumbered).toOption.getD default

/-- Two columns are assigned, and one value is selected. -/
theorem Compiler.selected_renamedRenumbered :
    Compiler.company.compile 12 renamedRenumbered = .ok renamedRenumberedQuery ∧
      ∃ st, renamedRenumberedQuery.statements[renamedRenumberedQuery.root]? = some st ∧
        st.update.items.length = 2 ∧ st.select.length = 1 ∧
        st.select ≠ st.update.items.map SetItem.value := by
  have hq : Compiler.company.compile 12 renamedRenumbered = .ok renamedRenumberedQuery := rfl
  obtain ⟨st, before, after, hst, -, -, -, -, hlines⟩ := Compiler.selected_of_compile hq
  refine ⟨hq, st, hst, ?_, ?_, mt hlines.mp (List.cons_ne_nil _ _)⟩
  · cases hst
    rfl
  · cases hst
    rfl

end ObjectQuery
