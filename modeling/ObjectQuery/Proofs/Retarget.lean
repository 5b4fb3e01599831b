import ObjectQuery.Proofs.Narrowing
import ObjectQuery.Proofs.Scoping

/-!
Updates of the rows of another sequence. The statement of the target sequence gathers the conditions and items of
the filters and sets on it, and then nothing refers to it any more.
-/
namespace ObjectQuery

open World Build

variable {c : Compiler} {K : Content c} {F : StatementId → Prop} {σ τ : World} {m : StatementId}

namespace Compiler

variable {rec : Calls} {node : Node} {parent : Option ContextId} {sequence id : ContextId}
  {s : BuildState}

theorem eq_update_of_builderFor {b : Builder} (hk : node.kind = .update)
    (hb : c.builderFor node = .ok b) : b = .update := by
  have hkind := kind_of_builderFor hb
  cases b <;> simp_all [Builder.kind]

theorem gains_selectItems (h : rec.Respect c K) (hv : Valid c σ) (ho : Over F σ parent sequence m)
    {steps : List String} {extent : Extent} {entered : List Item}
    (hrun : (selectItems rec sequence steps extent).run σ.state = (.ok entered, s)) :
    ∃ τ, Steps c K F σ τ ∧ τ.state = s ∧ σ.Gains τ m [] [] := by
  obtain ⟨converted, _, hconvert, henter⟩ := exists_of_run_bind hrun
  obtain ⟨τ, hs, rfl, hi, hg⟩ := gains_of_holds hv ho.sited ho.fresh
    (holds_itemsOf h (fresh_length σ) ho.sited steps extent) hconvert
  obtain ⟨υ, ht, rfl, list, rfl⟩ := (holds_enterItems ho.own (ho.mono (Steps.grows hs)).sited hi).ends
    (Steps.valid hs hv) henter
  exact ⟨_, hs.trans ht, rfl, hg.trans (gains_alter_of_eq fun s => ⟨rfl, rfl⟩)⟩

theorem gains_settle (hv : Valid c σ) (hm : F m) {list : List SqlExpr}
    (hl : ∀ v ∈ list, K.value σ m v) {a : Unit}
    (hrun : (modifyStatement m fun s => { s with sources := s.sources.settle, select := list }).run
      σ.state = (.ok a, s)) :
    ∃ τ, Steps c K F σ τ ∧ τ.state = s ∧ σ.Gains τ m [] [] := by
  obtain ⟨τ, hs, rfl, rfl⟩ := (Holds.modifyStatement (.settle m list hm hl)).ends hv hrun
  exact ⟨_, hs, rfl, gains_alter_of_eq fun s => ⟨rfl, rfl⟩⟩

/-- The statement of the rows that drive an update keeps its condition and gets the items of the setter. -/
theorem gains_assignInto (h : rec.Respect c K) (hv : Valid c σ) (ho : Over F σ parent sequence m)
    {into : ContextId} {k : StatementId} (hi : σ.Sited into k) {table : TableId} {setter : Lambda}
    (hrun : (c.assignInto rec m sequence into table setter parent).run σ.state = (.ok (), s)) :
    ∃ τ t u more, Steps c K F σ τ ∧ τ.state = s ∧
      (c.setterItems rec setter into (some table) sequence parent).run t = (.ok more, u) ∧
      σ.Gains τ m [] more := by
  obtain ⟨_, _, hselect, hrest⟩ := exists_of_run_bind hrun
  obtain ⟨τ, hs, rfl, hgτ⟩ := gains_selectItems h hv ho hselect
  obtain ⟨_, _, hfirst, hrest⟩ := exists_of_run_bind hrest
  obtain ⟨υ, ht, rfl, hgυ⟩ := gains_settle (K := K) (Steps.valid hs hv) ho.own (by simp) hfirst
  have hsυ := hs.trans ht
  have hvυ := Steps.valid hsυ hv
  have hoυ := ho.mono (Steps.grows hsυ)
  obtain ⟨more, u, hitems, hrest⟩ := exists_of_run_bind hrest
  obtain ⟨φ, hu, rfl, ha, hgφ⟩ := gains_of_holds hvυ hoυ.sited hoυ.fresh (holds_setterItems h
    (fresh_length υ) (hi.mono (Steps.grows hsυ)) hoυ.sited hoυ.inside setter (some table)) hitems
  have hvφ := Steps.valid hu hvυ
  obtain ⟨_, _, hsecond, hrest⟩ := exists_of_run_bind hrest
  have hvalues : ∀ v ∈ more.map SetItem.value, K.value φ m v := by
    intro v hv
    obtain ⟨i, hi, rfl⟩ := List.mem_map.mp hv
    exact (ha i hi).2
  obtain ⟨χ, hw, rfl, hgχ⟩ := gains_settle hvφ ho.own hvalues hsecond
  obtain ⟨_, _, hbind, hadd⟩ := exists_of_run_bind hrest
  obtain ⟨ψ, hz, rfl, hgψ⟩ := gains_addItems (Steps.valid hw hvφ) ho.own (ha.mono (Steps.grows hw))
    hbind hadd
  exact ⟨ψ, υ.state, _, more, ((hsυ.trans hu).trans hw).trans hz, rfl, hitems,
    (((hgτ.trans hgυ).trans hgφ).trans hgχ).trans hgψ⟩

/-- Between the two worlds, the rows of the sequence are made to drive an update of those of `into`. The target's
conditions and items are in a statement of its own, and the driving statement got the setter's items only. -/
structure Retargets (c : Compiler) (depth : Nat) (sequence : ContextId) (into : Node) (setter : Lambda)
    (m : StatementId) (σ τ : World) (target : ContextId) (number : StatementId)
    (conditions : List Predicate) (items more : List SetItem) : Prop where
  narrows : ∃ t, c.Narrows none depth into σ.state target t conditions items
  assigned : ∃ table t u,
    (c.setterItems (c.calls depth) setter target (some table) sequence none).run t = (.ok more, u)
  sited : τ.Sited target number
  nested : τ.Nested none number
  other : m ≠ number
  gathers : τ.Gathers number (conditions.foldl Predicate.conjunction .always) items
  driving : σ.Gains τ m [] more

theorem Retargets.trans {depth : Nat} {into : Node} {setter : Lambda} {υ : World} {target : ContextId}
    {number : StatementId} {conditions : List Predicate} {items more : List SetItem}
    (h : Retargets c depth sequence into setter m σ τ target number conditions items more)
    (hs : Steps c K (· ≠ number) τ υ) (hm : τ.Gains υ m [] []) :
    Retargets c depth sequence into setter m σ υ target number conditions items more :=
  ⟨h.narrows, h.assigned, h.sited.mono (Steps.grows hs), h.nested.mono (Steps.grows hs), h.other,
    h.gathers.frame hs (fun hne => hne rfl), by simpa using h.driving.trans hm⟩

theorem retargets_updateInto {depth : Nat} {into : Node} {setter : Lambda} (K : Content c)
    (hv : Valid c σ) (ho : Over (fun _ => True) σ none sequence m)
    (hrun : (c.updateInto (c.calls depth) m sequence into setter none).run σ.state = (.ok (), s)) :
    ∃ τ target number conditions items more, Steps c K (fun _ => True) σ τ ∧ τ.state = s ∧
      Retargets c depth sequence into setter m σ τ target number conditions items more := by
  have h := c.calls_respect K depth
  obtain ⟨target, _, htarget, hrest⟩ := exists_of_run_bind hrun
  obtain ⟨τ, number, hs, rfl, hn⟩ :=
    narrowed_of_run c K depth hv (fresh_length σ) placed_none htarget
  have hlt := hv.sited_lt ho.sited
  have hvτ := Steps.valid hs hv
  obtain ⟨table, _, htable, hassign⟩ := exists_of_run_bind hrest
  obtain ⟨τ, -, rfl, rfl, p, k, r, hcontext, -⟩ :=
    (holds_targetTable (K := K) (F := fun _ => True) target).ends hvτ htable
  -- the target passed the check of its table, so it has rows and was narrowed only
  have hrows : τ.HasRows target number := by
    obtain rfl : k = number := Sited.unique ⟨_, hcontext, rfl⟩ hn.sited
    exact ⟨_, hcontext, rfl, rfl⟩
  obtain ⟨conditions, items, hnarrows, hgathers⟩ := hn.narrows hrows
  have hne : m ≠ number := Nat.ne_of_lt (Nat.lt_of_lt_of_le hlt hn.new)
  obtain ⟨υ, t, u, more, ht, rfl, hitems, hdriving⟩ := gains_assignInto h hvτ
    (.other hvτ (ho.mono (Steps.grows hs)) hn.sited hne) hn.sited hassign
  refine ⟨υ, target, number, conditions, items, more, (Steps.mono (fun _ _ => trivial) hs).trans
    (Steps.mono (fun _ _ => trivial) ht), rfl, ⟨_, hnarrows⟩, ⟨table, t, u, hitems⟩,
    hn.sited.mono (Steps.grows ht), hn.nested.mono (Steps.grows ht), hne,
    hgathers.frame ht (fun hne => hne rfl), ?_⟩
  exact (Gains.frame hs (Nat.not_le_of_lt hlt)).trans hdriving

theorem retargets_buildUpdate {depth : Nat} {source into : Node} {setter : Lambda} (K : Content c)
    (hv : Valid c σ) (ho : Over (fun _ => True) σ none sequence m)
    (hrun : (c.buildUpdate (c.calls depth) (source.updateInto into setter) sequence none).run σ.state =
      (.ok id, s)) :
    ∃ τ target number conditions items more, Steps c K (fun _ => True) σ τ ∧ τ.state = s ∧
      τ.context? id = some (.update none m sequence) ∧
      Retargets c depth sequence into setter m σ τ target number conditions items more := by
  obtain ⟨_, _, hcomposable, hrest⟩ := exists_of_run_bind hrun
  obtain rfl := of_run_ensureComposable hcomposable
  obtain ⟨d, _, hcontext, hrest⟩ := exists_of_run_bind hrest
  obtain ⟨hd, rfl⟩ := of_run_context hcontext
  obtain rfl := ho.sited.unique ⟨d, hd, rfl⟩
  obtain ⟨_, _, hassign, hrest⟩ := exists_of_run_bind hrest
  obtain ⟨τ, target, number, conditions, items, more, hs, rfl, hr⟩ := retargets_updateInto K hv ho hassign
  have hvτ := Steps.valid hs hv
  have hoτ := Over.other hvτ (ho.mono (Steps.grows hs)) hr.sited hr.other
  obtain ⟨_, _, hcomplete, henter⟩ := exists_of_run_bind hrest
  obtain ⟨υ, ht, rfl, hυ⟩ := (holds_completeUpdate (K := K) (F := (· ≠ number)) hoτ.own).ends hvτ hcomplete
  have hoυ := hoτ.mono (Steps.grows ht)
  obtain ⟨φ, hu, rfl, hid, hsame⟩ :=
    (holds_enterOver (K := K) (d := .update none d.statement sequence) hoυ rfl rfl rfl rfl).ends
      (Steps.valid ht hvτ) henter
  have hsteps := ht.trans hu
  have hcompleted : τ.Gains υ d.statement [] [] := hυ ▸ gains_alter_of_eq fun s => ⟨rfl, rfl⟩
  have hentered : υ.Gains φ d.statement [] [] := by
    intro condition before hg
    obtain ⟨s, hs, rfl, rfl⟩ := hg
    exact ⟨s, (hsame _).trans hs, rfl, (List.append_nil _).symm⟩
  exact ⟨φ, target, number, conditions, items, more, hs.trans (Steps.mono (fun _ _ => trivial) hsteps),
    rfl, hid, hr.trans hsteps (hcompleted.trans hentered)⟩

theorem of_run_finish {d : Context} {t : BuildState} {r : StatementId × ContextId}
    (hd : s.contexts[id]? = some d) (hu : d.isUpdate) (h : (finish rec id).run s = (.ok r, t)) :
    r = (d.statement, id) ∧ t = s := by
  have hcontext : (context id).run s = (.ok d, s) := by rw [run_context, hd]; rfl
  simp only [finish, run_bind, hcontext, hu, if_true, run_pure] at h
  cases h
  exact ⟨rfl, rfl⟩

theorem retargets_of_compile {fuel : Nat} {source into : Node} {setter : Lambda} {q : CompiledQuery}
    (K : Content c) (h : c.compile fuel (source.updateInto into setter) = .ok q) :
    ∃ depth sequence σ τ target number conditions items more,
      ((c.calls depth).sequence none source).run {} = (.ok sequence, σ.state) ∧
      Steps c K (fun _ => True) start σ ∧ Steps c K (fun _ => True) σ τ ∧
      τ.state.statements = q.statements ∧ τ.state.contexts = q.contexts ∧ σ.Sited sequence q.root ∧
      Retargets c depth sequence into setter q.root σ τ target number conditions items more := by
  obtain ⟨number, id, s, hrun, rfl⟩ := of_compile h
  obtain ⟨id, _, hsequence, hfinish⟩ := exists_of_run_bind hrun
  cases fuel with
  | zero => cases hsequence
  | succ depth =>
    obtain ⟨b, _, hbuilder, hrest⟩ := exists_of_run_bind hsequence
    obtain ⟨hb, rfl⟩ := of_run_ofExcept hbuilder
    obtain rfl := eq_update_of_builderFor rfl hb
    obtain ⟨found, t, hprimary, hbuild⟩ := exists_of_run_bind hrest
    obtain ⟨sequence, _, hfound, hbuild⟩ := exists_of_run_bind hbuild
    obtain ⟨rfl, rfl⟩ := of_run_orFail hfound
    obtain ⟨_, ⟨⟩, hsource⟩ := of_run_primarySequence hprimary
    obtain ⟨σ, hs, rfl, m, -, hsite, hnest⟩ := ((c.calls_respect K depth).sequence source
      (fun _ _ => trivial) placed_none).ends valid_start hsource
    have ho : Over (fun _ => True) σ none sequence m := ⟨fun _ _ => trivial, trivial, hsite, hnest⟩
    obtain ⟨τ, target, number, conditions, items, more, ht, rfl, hid, hr⟩ :=
      retargets_buildUpdate K (Steps.valid hs valid_start) ho hbuild
    obtain ⟨hroot, rfl⟩ := of_run_finish hid rfl hfinish
    cases hroot
    exact ⟨depth, sequence, σ, τ, target, number, conditions, items, more, hsource, hs, ht, rfl, rfl,
      hsite, hr⟩

end Compiler

/-- The statement is not the root, and no sub-query refers to it. -/
def CompiledQuery.Abandons (q : CompiledQuery) (number : StatementId) : Prop :=
  number ≠ q.root ∧ ∀ s ∈ q.statements, .subquery number ∉ s.leaves

/-- When the rows of one sequence drive an update of another, the conditions and items of the target's filters and
sets all stay in a statement that is abandoned; the root keeps its own condition and gets the setter's items. So
nothing is dropped exactly if every filter on the target is trivial and there is no set. -/
theorem Compiler.abandoned_target {fuel : Nat} {source into : Node} {setter : Lambda} {q : CompiledQuery}
    (h : c.compile fuel (source.updateInto into setter) = .ok q) :
    ∃ depth sequence s target t conditions items number statement,
      ((c.calls depth).sequence none source).run {} = (.ok sequence, s) ∧
      c.Narrows none depth into s target t conditions items ∧
      q.contexts[target]?.map Context.statement = some number ∧ q.Abandons number ∧
      q.statements[number]? = some statement ∧
      statement.condition = conditions.foldl Predicate.conjunction .always ∧
      statement.update.items = items ∧
      (statement.condition = .always ∧ statement.update.items = [] ↔
        (∀ p ∈ conditions, p = .always) ∧ items = []) ∧
      ∃ before after table u v more, s.statements[q.root]? = some before ∧
        q.statements[q.root]? = some after ∧ after.condition = before.condition ∧
        (c.setterItems (c.calls depth) setter target (some table) sequence none).run u = (.ok more, v) ∧
        after.update.items = before.update.items ++ more := by
  obtain ⟨depth, sequence, σ, τ, target, number, conditions, items, more, hsource, hs, ht, hstatements,
    hcontexts, hsite, hr⟩ := retargets_of_compile (.scoped c) h
  obtain ⟨t, hnarrows⟩ := hr.narrows
  obtain ⟨table, u, v, hitems⟩ := hr.assigned
  obtain ⟨d, hd, hdm⟩ := hr.sited
  obtain ⟨statement, hstatement, hcondition, hassigned⟩ := hr.gathers
  obtain ⟨before, hbefore⟩ : ∃ before, σ.statement? q.root = some before :=
    ⟨_, List.getElem?_eq_getElem ((Steps.valid hs valid_start).sited_lt hsite)⟩
  obtain ⟨after, hafter, hkept, hadded⟩ := hr.driving _ _ ⟨_, hbefore, rfl, rfl⟩
  -- a reference to the target's statement would nest it, but it was begun outermost
  have hnone : ∀ s ∈ q.statements, .subquery number ∉ s.leaves := by
    intro s hin hleaf
    obtain ⟨k, hk⟩ := List.getElem?_of_mem hin
    obtain ⟨a, ha, -⟩ := scoped_of_steps (hs.trans ht) hstatements k s hk _ hleaf
    have houter : τ.outer[number]? = some none := hr.nested
    rw [houter] at ha
    cases ha
  rw [World.context?, hcontexts] at hd
  rw [World.statement?, hstatements] at hstatement hafter
  refine ⟨depth, sequence, σ.state, target, t, conditions, items, number, statement, hsource, hnarrows,
    Option.map_eq_some_iff.mpr ⟨d, hd, hdm⟩, ⟨hr.other.symm, hnone⟩, hstatement, hcondition, hassigned, ?_,
    before, after, table, u, v, more, hbefore, hafter, hkept, hitems, hadded⟩
  rw [hcondition, hassigned, Predicate.foldl_conjunction_eq_always]
  simp

/-- Employees give their names to the departments called `x`. -/
def renameDepartments : Node :=
  (Node.source "Employee").updateInto
    ((Node.source "Department").filter
      ⟨["d"], .binary (.comparison .equal) (.member (.parameter "d") "name") (.literal (.text "x"))⟩)
    ⟨["e"], .construct [("name", .member (.parameter "e") "name")]⟩

def renameDepartmentsQuery : CompiledQuery :=
  (Compiler.company.compile 10 renameDepartments).toOption.getD default

/-- The update compiles, and of all departments: the condition on their names is dropped. -/
theorem abandoned_target_renameDepartments :
    Compiler.company.compile 10 renameDepartments = .ok renameDepartmentsQuery ∧
      ∃ number statement root, renameDepartmentsQuery.Abandons number ∧
        renameDepartmentsQuery.statements[number]? = some statement ∧ statement.condition ≠ .always ∧
        renameDepartmentsQuery.statements[renameDepartmentsQuery.root]? = some root ∧
        root.condition = .always := by
  have hq : Compiler.company.compile 10 renameDepartments = .ok renameDepartmentsQuery := rfl
  obtain ⟨_, _, _, _, _, _, _, number, statement, -, -, -, habandons, hstatement, -⟩ :=
    Compiler.abandoned_target hq
  refine ⟨hq, number, statement, _, habandons, hstatement, ?_, rfl, rfl⟩
  match number, habandons, hstatement with
  | 0, habandons, _ => exact absurd rfl habandons.1
  | 1, _, hstatement =>
    cases hstatement
    intro he
    cases he

end ObjectQuery
