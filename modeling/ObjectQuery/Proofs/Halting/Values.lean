import ObjectQuery.Proofs.Halting.Paths

/-!
Values and conditions are compiled in finitely many steps, if those of their parts are.
-/
namespace ObjectQuery

open Build

/-- The sequence is no lambda scope, and if it is a projection, it is that of the query, whose parameters are bound as
they are seen from the parent. -/
def Stands (l : List Context) (p : Option ContextId) (node : Node) (id : ContextId) : Prop :=
  ∃ d, l[id]? = some d ∧ d.isScope = false ∧ ∀ q m k f scalar, d = .projection q m k f scalar →
    node.projection? = some f ∧ ∀ x ∈ f.free, ∃ r, Finds l x p r ∧ Finds l x q r

theorem Stands.mono {l l' : List Context} {p : Option ContextId} {node : Node} {id : ContextId}
    (h : Stands l p node id) (hl : Preserves l l') : Stands l' p node id := by
  obtain ⟨d, hd, hs, hprojection⟩ := h
  obtain ⟨e, he, hpersists⟩ := hl.persists id d hd
  refine ⟨e, he, hpersists.isScope hs, fun q m k f scalar heq => ?_⟩
  cases hpersists with
  | rows _ hrows =>
    rw [heq] at hrows
    cases hrows
  | projection sees =>
    cases heq
    obtain ⟨hnode, hfinds⟩ := hprojection _ _ _ _ _ rfl
    refine ⟨hnode, fun x hx => ?_⟩
    obtain ⟨r, hp, hq⟩ := hfinds x hx
    exact ⟨r, hp.supports hl.supports, sees x hx r hq⟩
  | lambda => cases hs
  | update => cases heq

namespace Compiler

/-- What is known of the sequence that a query is compiled to. -/
def Result (c : Compiler) (p : Option ContextId) (node : Node) (id : ContextId) (l : List Context) : Prop :=
  c.Readable l id ∧ Stands l p node id

/-- The query is compiled in finitely many steps from wherever its parameters are bound to what can be read. -/
def Builds (c : Compiler) (node : Node) : Prop :=
  ∀ {s p}, c.Grounded s.contexts p node.free → c.Settles s (fun rec => rec.sequence p node) (c.Result p node)

variable {c : Compiler} {s : BuildState} {scope : ContextId} {e : Expr}

theorem Settles.value {P : SqlExpr → List Context → Prop} (h : c.Settles s (fun rec => c.value rec scope e) P) :
    c.Settles s (fun rec => rec.value scope e) P :=
  h.call _ fun _ => rfl

theorem Settles.condition {P : Predicate → List Context → Prop}
    (h : c.Settles s (fun rec => Compiler.condition rec scope e) P) :
    c.Settles s (fun rec => rec.condition scope e) P :=
  h.call _ fun _ => rfl

theorem Grounded.append {l : List Context} {p : Option ContextId} {xs ys : List String}
    (h : c.Grounded l p (xs ++ ys)) :
    c.Grounded l p xs ∧ c.Grounded l p ys :=
  ⟨h.of_subset (List.subset_append_left _ _), h.of_subset (List.subset_append_right _ _)⟩

theorem settles_resolve {path : Path} {xs : List String} (h : c.Grounded s.contexts (some scope) xs)
    (hroot : path.root ∈ xs) : c.Settles s (fun rec => resolve rec scope path) fun _ _ => True := by
  refine (settles_rootOf h hroot).bind fun q t _ hq =>
    (hq.classify path.steps).recover (fun _ _ _ _ => .pure trivial) ?_
  intro e u _
  cases e <;> exact .fail _

theorem settles_pathValue (h : c.Grounded s.contexts (some scope) e.free) :
    c.Settles s (fun rec => pathValue rec scope e) fun _ _ => True := by
  refine (settles_orFail _ _).bind fun path t ht hpath => ?_
  refine (settles_resolve (h.mono ht) (Path.root_mem_free hpath)).bind fun d u _ _ => ?_
  cases d with
  | field | computed => exact .pure trivial
  | table | association | object => exact .fail _

/-- A value that is no condition is compared with the truth. -/
theorem settles_test (h : c.Settles s (fun rec => rec.value scope e) fun _ _ => True) :
    c.Settles s (fun rec => do
      match ← rec.value scope e with
      | .condition p => pure p
      | sql => pure (.equal sql (.literal (.bool true)))) fun _ _ => True :=
  h.bind fun v _ _ _ => by cases v <;> exact .pure trivial

/-- Conditions of any other kind than these are values. -/
theorem evaluates_of_value (hconvert : ∀ inner, e ≠ .convert inner) (hbinary : ∀ op lhs rhs, e ≠ .binary op lhs rhs)
    (hnot : ∀ inner, e ≠ .not inner)
    (h : ∀ {s scope}, c.Grounded s.contexts (some scope) e.free →
      c.Settles s (fun rec => c.value rec scope e) fun _ _ => True) : c.Evaluates e := by
  have hstrip : e.strip = e := by
    cases e with
    | convert inner => exact (hconvert inner rfl).elim
    | _ => rfl
  refine ⟨fun hg => (h hg).value, fun hg => ?_, fun hg => .condition ?_⟩
  · rw [hstrip]
    exact (h hg).value
  · have htest := settles_test (h hg).value
    unfold Compiler.condition
    cases e with
    | convert inner => exact (hconvert inner rfl).elim
    | binary op lhs rhs => exact (hbinary op lhs rhs rfl).elim
    | not inner => exact (hnot inner rfl).elim
    | literal v =>
      cases v with
      | bool b => exact .pure trivial
      | _ => exact htest
    | _ => exact htest

theorem evaluates_convert (h : c.Evaluates e) : c.Evaluates (.convert e) :=
  ⟨fun hg => .value (h.value hg), h.stripped, fun hg => (h.condition hg).congr fun n => by cases n <;> rfl⟩

theorem evaluates_not (h : c.Evaluates e) : c.Evaluates (.not e) := by
  have hcondition : ∀ {s scope}, c.Grounded s.contexts (some scope) e.free →
      c.Settles s (fun rec => rec.condition scope (.not e)) fun _ _ => True := fun hg =>
    .condition ((h.condition hg).map fun _ _ _ => trivial)
  have hvalue : ∀ {s scope}, c.Grounded s.contexts (some scope) e.free →
      c.Settles s (fun rec => rec.value scope (.not e)) fun _ _ => True := fun hg =>
    .value ((hcondition hg).map fun _ _ _ => trivial)
  exact ⟨hvalue, hvalue, hcondition⟩

theorem evaluates_binary {op : BinaryOperator} {lhs rhs : Expr} (hl : c.Evaluates lhs) (hr : c.Evaluates rhs) :
    c.Evaluates (.binary op lhs rhs) := by
  have hcondition : ∀ {s scope}, c.Grounded s.contexts (some scope) (lhs.free ++ rhs.free) →
      c.Settles s (fun rec => rec.condition scope (.binary op lhs rhs)) fun _ _ => True := by
    intro s scope hg
    obtain ⟨hgl, hgr⟩ := hg.append
    refine .condition ?_
    cases op with
    | and | or =>
      exact (hl.condition hgl).bind fun p t ht _ => (hr.condition (hgr.mono ht)).bind fun q u _ _ => .pure trivial
    | comparison op =>
      exact (hl.value hgl).bind fun v t ht _ => (hr.value (hgr.mono ht)).bind fun w u _ _ => .pure trivial
    | arithmetic => exact .fail _
  have hvalue : ∀ {s scope}, c.Grounded s.contexts (some scope) (lhs.free ++ rhs.free) →
      c.Settles s (fun rec => rec.value scope (.binary op lhs rhs)) fun _ _ => True := by
    intro s scope hg
    obtain ⟨hgl, hgr⟩ := hg.append
    refine .value ?_
    cases op with
    | and | or | comparison => exact (hcondition hg).map fun _ _ _ => trivial
    | arithmetic op =>
      exact (hl.value hgl).bind fun v t ht _ => (hr.value (hgr.mono ht)).bind fun w u _ _ => .pure trivial
  exact ⟨hvalue, hvalue, hcondition⟩

theorem evaluates_literal (v : Literal) : c.Evaluates (.literal v) := by
  refine evaluates_of_value nofun nofun nofun fun _ => ?_
  simp only [Compiler.value]
  split
  · exact (Settles.still .nextParameter).bind fun _ _ _ _ => .pure trivial
  · exact .pure trivial

theorem evaluates_call {function : String} {args : List Expr} (h : ∀ e ∈ args, c.Evaluates e) :
    c.Evaluates (.call function args) := by
  refine evaluates_of_value nofun nofun nofun fun hg => ?_
  have hargs := Settles.mapM args fun t ht e he => (h e he).value ((hg.mono ht).of_subset (Expr.mem_freeAll he))
  exact hargs.map fun _ _ _ => trivial

theorem settles_aggregateArgument {q : ContextId} {selector : Option Lambda} (hq : c.Readable s.contexts q)
    (hselector : ∀ f, selector = some f → c.Lively f.body)
    (h : c.Grounded s.contexts (some scope) (Lambda.freeOption selector)) (function : Aggregate) :
    c.Settles s (fun rec => aggregateArgument rec scope function selector q) fun _ _ => True := by
  cases selector with
  | some f =>
    have hf : c.Grounded s.contexts (some scope) f.free := h
    exact settles_under hq (Lambda.free_eq f ▸ hf) fun t _ inner hinner => (hselector f rfl).evaluates.value hinner
  | none =>
    cases function with
    | count => exact .pure trivial
    | _ =>
      refine (settles_members hq [] .field).bind fun items t _ _ => ?_
      split
      · exact .pure trivial
      · exact .fail _

/-- A sub-query is compiled in finitely many steps, as seen from the scope. -/
theorem evaluates_aggregate {function : Aggregate} {source : Node} {selector : Option Lambda}
    (hsource : c.Builds source)
    (hselector : ∀ f, selector = some f → c.Lively f.body) : c.Evaluates (.aggregate function source selector) := by
  refine evaluates_of_value nofun nofun nofun fun hg => .inContext _ ?_
  obtain ⟨hgs, hgf⟩ := Grounded.append hg
  refine (hsource hgs).bind fun q t ht hq => ?_
  refine (Settles.still (.ensureComposable q _)).bind fun _ u hu _ => ?_
  refine (settles_aggregateArgument (hq.1.mono hu) hselector (hgf.mono (ht.trans hu)) function).bind fun v t' ht' _ =>
    ?_
  refine Settles.context fun d _ => ?_
  exact (Settles.still (.modifyStatement _ _)).bind fun _ _ _ _ => .pure trivial

end Compiler
end ObjectQuery
