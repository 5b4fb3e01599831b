import ObjectQuery.Proofs.Conversions.Erase
import ObjectQuery.Proofs.Enumeration.Addresses
import ObjectQuery.Proofs.Twins.Source

/-!
The compiler's actions in parts. Paths are looked up and then asked for a value, what is no condition is compiled as a
value and tested, and operators go on with sequences that can be read.
-/
namespace ObjectQuery

/-- Expressions that are compiled as conditions where a condition is asked for. -/
def Expr.isCondition : Expr → Bool
  | .binary .. | .not _ | .literal (.bool _) => true
  | _ => false

namespace Build

variable {α : Type} {act : Build α} {s t : BuildState} {id scope : ContextId} {p : Option ContextId} {d : Context}
  {v : α} {path : Path}

theorem run_rootOf {r : Option ContextId}
    (h : bindingFrom s.contexts path.root s.contexts.length (some scope) = .ok r) :
    (rootOf scope path).run s = (orFail (.memberResolution path.text (.notInScope path.root)) r).run s := by
  have hfind : (findBinding? scope path.root).run s = (.ok r, s) := by
    change (orStop (bindingFrom s.contexts path.root s.contexts.length (some scope))).run s = _
    rw [h]
    rfl
  rw [rootOf, run_bind_of hfind]

theorem of_run_rootOf (h : (rootOf scope path).run s = (.ok id, t)) :
    bindingFrom s.contexts path.root s.contexts.length (some scope) = .ok (some id) ∧ t = s := by
  obtain ⟨r, u, hfind, hsome⟩ := exists_of_run_bind h
  obtain ⟨rfl, rfl⟩ := of_run_orFail hsome
  change (orStop (bindingFrom s.contexts path.root s.contexts.length (some scope))).run s = _ at hfind
  cases hb : bindingFrom s.contexts path.root s.contexts.length (some scope) <;> rw [hb] at hfind <;> cases hfind
  exact ⟨rfl, rfl⟩

/-- While the action runs the context has the other parent. -/
theorem run_withParent_of (hd : s.contexts[id]? = some d)
    (h : act.run (s.adjust id (Context.withParent p)) = (.ok v, t))
    (ht : ∃ d, t.contexts[id]? = some d) :
    (withParent id p act).run s = (.ok v, t.adjust id (Context.withParent d.parent)) := by
  obtain ⟨e, he⟩ := ht
  rw [withParent, run_bind_of (run_context_of hd), run_bind, run_modifyContext, hd]
  change (attempt act >>= _).run (s.adjust id (Context.withParent p)) = _
  rw [run_bind, run_attempt, h]
  change (modifyContext id (Context.withParent d.parent) >>= _).run t = _
  rw [run_bind, run_modifyContext, he]
  rfl

/-- What is done with the sequence only goes on if that can be read. -/
def composable (operation : String) (act : Build ContextId) : Build ContextId := do
  let id ← act
  ensureComposable id operation
  pure id

theorem composable_bind (operation : String) (act : Build ContextId) (next : ContextId → Build α) :
    composable operation act >>= next = act >>= fun id => ensureComposable id operation >>= fun _ => next id := by
  simp only [composable, bind_assoc, pure_bind]

end Build

open Build

namespace Compiler

variable {c : Compiler} {rec : Calls} {id q scope : ContextId} {p : Option ContextId} {e : Expr} {path : Path}
  {source : Node} {member f : Lambda} {operand : Argument}

theorem classifyProjected_of_bindings?_eq_none (hb : e.bindings? = none) (steps : List String) :
    classifyProjected rec id q f e steps = classifyValue rec id q f e.strip steps := by
  cases steps <;> simp only [classifyProjected, hb]

theorem pathValue_of_path (h : Path.ofExpr? e = some path) :
    pathValue rec scope e = resolve rec scope path >>= fun d =>
      Build.orFail (.memberResolution path.text .notAValue) d.value? := by
  rw [pathValue, h]
  change resolve rec scope path >>= _ = _
  congr 1
  funext d
  cases d <;> rfl

theorem bind_test (act : Build SqlExpr) :
    (act >>= fun v => match v with
      | .condition p => pure p
      | sql => pure (.equal sql (.literal (.bool true)))) = SqlExpr.test <$> act := by
  rw [← bind_pure_comp]
  congr 1
  funext v
  cases v <;> rfl

theorem condition_strip (rec : Calls) (scope : ContextId) (e : Expr) :
    condition rec scope e.strip = condition rec scope e := by
  rw [condition, condition, e.strip_strip]

theorem condition_of_isCondition_eq_false (h : e.strip.isCondition = false) :
    condition rec scope e = SqlExpr.test <$> rec.value scope e.strip := by
  rw [condition, ← bind_test]
  cases hs : e.strip with
  | binary | not =>
    rw [hs] at h
    cases h
  | literal v =>
    cases v with
    | bool =>
      rw [hs] at h
      cases h
    | _ => rfl
  | convert inner => exact (Expr.strip_ne_convert _ inner hs).elim
  | _ => rfl

/-- Unless constants become parameters, what is asked for as a condition is tested in one of three ways: as a value, as
the condition that it is a value of, or at once. -/
theorem test_value_cases [Observer] (hc : c.settings.parameterizeConstants = false)
    (harith : ∀ op lhs rhs, e ≠ .binary (.arithmetic op) lhs rhs) :
    e.isCondition = false ∨ (∀ rec scope, SqlExpr.test <$> c.value rec scope e = rec.condition scope e) ∨
      ∃ p, ∀ rec scope, SqlExpr.test <$> c.value rec scope e = pure p ∧ condition rec scope e = pure p := by
  have hlogical : (∀ rec scope, c.value rec scope e = .condition <$> rec.condition scope e) →
      ∀ rec scope, SqlExpr.test <$> c.value rec scope e = rec.condition scope e := by
    intro h rec scope
    rw [h, Functor.map_map]
    exact id_map _
  cases e with
  | binary op lhs rhs =>
    cases op with
    | arithmetic op => exact (harith op lhs rhs rfl).elim
    | comparison | and | or => exact .inr (.inl (hlogical fun _ _ => rfl))
  | not inner => exact .inr (.inl (hlogical fun _ _ => rfl))
  | literal v =>
    cases v with
    | bool b =>
      refine .inr (.inr ⟨.ofBool b, fun rec scope => ⟨?_, rfl⟩⟩)
      rw [value, hc]
      cases b <;> rfl
    | _ => exact .inl rfl
  | _ => exact .inl rfl

/-- What a set does with a sequence. -/
def setOver (c : Compiler) (rec : Calls) (member : Lambda) (operand : Argument) (sequence : ContextId)
    (parent : Option ContextId) : Build ContextId := do
  let path ← ofExcept (selectedPath member)
  let number := (← context sequence).statement
  let item ← c.setItem rec member path operand sequence parent
  c.bindTarget number item.column.table
  addItems number [item]
  pure sequence

theorem sequence_filter_over (h : c.builderFor (source.filter f) = .ok .filter) :
    c.sequence rec p (source.filter f) =
      composable "a filter" (rec.sequence p source) >>= fun id => restrict rec id f p >>= fun _ => pure id := by
  rw [composable_bind, Node.filter, sequence_chain h]
  rfl

theorem sequence_select_over (h : c.builderFor (source.select f) = .ok .select) :
    c.sequence rec p (source.select f) =
      composable "a projection" (rec.sequence p source) >>= fun id => context id >>= fun d =>
        addContext (.projection p d.statement id f f.body.bindings?.isNone) := by
  rw [composable_bind, Node.select, sequence_chain h]
  rfl

theorem sequence_set_over (h : c.builderFor (source.chain .set [.lambda member, operand]) = .ok .set) :
    c.sequence rec p (source.chain .set [.lambda member, operand]) =
      composable "a set" (rec.sequence p source) >>= fun id => c.setOver rec member operand id p := by
  rw [composable_bind, sequence_chain h]
  rfl

theorem exists_of_run_filter {k : Nat} {s t : BuildState}
    (hrun : ((c.calls k).sequence p (source.filter f)).run s = (.ok id, t)) :
    ∃ j, k = j + 1 ∧ c.builderFor (source.filter f) = .ok .filter ∧ ∃ u,
      (composable "a filter" ((c.calls j).sequence p source)).run s = (.ok id, u) ∧
        (restrict (c.calls j) id f p).run u = (.ok (), t) := by
  cases k with
  | zero => cases hrun
  | succ j =>
    have hsequence : (c.sequence (c.calls j) p (source.filter f)).run s = (.ok id, t) := hrun
    obtain ⟨b, _, hbuilder, -⟩ := exists_of_run_bind hsequence
    obtain ⟨hb, -⟩ := of_run_ofExcept hbuilder
    obtain rfl : b = .filter := Builder.eq_of_claims (claims_of_builderFor hb) rfl
    rw [sequence_filter_over hb] at hsequence
    obtain ⟨i, u, hsource, hrest⟩ := exists_of_run_bind hsequence
    obtain ⟨_, v, hrestrict, hid⟩ := exists_of_run_bind hrest
    cases hid
    exact ⟨j, rfl, hb, u, hsource, hrestrict⟩

theorem exists_of_run_select {k : Nat} {s t : BuildState}
    (hrun : ((c.calls k).sequence p (source.select f)).run s = (.ok id, t)) :
    ∃ j, k = j + 1 ∧ ∃ i u d, (composable "a projection" ((c.calls j).sequence p source)).run s = (.ok i, u) ∧
      u.contexts[i]? = some d ∧ id = u.contexts.length ∧
        t = u.enter (.projection p d.statement i f f.body.bindings?.isNone) := by
  cases k with
  | zero => cases hrun
  | succ j =>
    have hsequence : (c.sequence (c.calls j) p (source.select f)).run s = (.ok id, t) := hrun
    obtain ⟨b, _, hbuilder, -⟩ := exists_of_run_bind hsequence
    obtain ⟨hb, -⟩ := of_run_ofExcept hbuilder
    obtain rfl : b = .select := Builder.eq_of_claims (claims_of_builderFor hb) rfl
    rw [sequence_select_over hb] at hsequence
    obtain ⟨i, u, hsource, hrest⟩ := exists_of_run_bind hsequence
    obtain ⟨d, _, hcontext, hadd⟩ := exists_of_run_bind hrest
    obtain ⟨hd, rfl⟩ := of_run_context hcontext
    obtain ⟨hid, ht⟩ := of_run_addContext hadd
    exact ⟨j, rfl, i, _, d, hsource, hd, hid, ht⟩

theorem run_composable_update_ne {operation : String} {node : Node} {s t : BuildState} {id : ContextId}
    (h : c.builderFor node = .ok .update) : (composable operation (c.sequence rec p node)).run s ≠ (.ok id, t) := by
  intro hrun
  obtain ⟨k, u, hupdate, hcomposable⟩ := exists_of_run_bind hrun
  obtain ⟨b, _, hbuilder, hbuild⟩ := exists_of_run_bind hupdate
  rw [h] at hbuilder
  cases hbuilder
  obtain ⟨source, _, -, hbuild⟩ := exists_of_run_bind hbuild
  obtain ⟨sequence, _, -, hbuild⟩ := exists_of_run_bind hbuild
  obtain ⟨_, _, -, hbuild⟩ := exists_of_run_bind hbuild
  obtain ⟨d, _, -, hbuild⟩ := exists_of_run_bind hbuild
  obtain ⟨_, _, -, hbuild⟩ := exists_of_run_bind hbuild
  obtain ⟨_, v, -, hadd⟩ := exists_of_run_bind hbuild
  rw [run_addContext] at hadd
  cases hadd
  obtain ⟨_, _, hensure, -⟩ := exists_of_run_bind hcomposable
  rw [ensureComposable, run_bind_of (run_context_of (v.getElem?_enter_self _))] at hensure
  cases hensure

end Compiler
end ObjectQuery
