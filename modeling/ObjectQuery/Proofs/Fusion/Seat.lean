import ObjectQuery.Proofs.Assigned.Appends
import ObjectQuery.Proofs.Fusion.Rules

/-!
Sequences that queries are compiled to. They are rows of a table or projected ones, under the scope that the query is
compiled in; while a value is set through them, they are under another one.
-/
namespace ObjectQuery

open Build

theorem Context.table_of_bare {d : Context} {p : Option ContextId} {number : StatementId} {r : Rows}
    (h : d.bare = (Context.table p number r).bare) : ∃ r', d = .table p number r' := by
  cases d with
  | table =>
    simp only [Context.bare, Context.table.injEq] at h
    exact ⟨_, by rw [h.1, h.2.1]⟩
  | association | projection | lambda | update => cases h

theorem Context.statement_of_bare {d e : Context} (h : e.bare = d.bare) : e.statement = d.statement := by
  cases d with
  | table | association => cases e <;> simp_all [Context.bare, Context.statement]
  | projection | lambda | update => rw [Context.eq_of_bare h rfl]

namespace Fusion

variable {φ : Fusion} {m n : φ.Moment} {i j a b : ContextId} {p q : Option ContextId} {d e : Context}
  {mode mode' : Mode} {node : Node}

/-- What the query is compiled to, on either side. -/
inductive Seat (φ : Fusion) (mode : Mode) (p q : Option ContextId) (node : Node) : Context → Context → Prop
  | table (number : StatementId) (r r' : Rows) : Seat φ mode p q node (.table p number r) (.table q number r')
  | projection {f : Lambda} (number : StatementId) (o o' : ContextId) (scalar scalar' : Bool)
    (last : node.projection? = some f) (takes : mode.TakesLambda φ f) :
    Seat φ mode p q node (.projection p number o f scalar) (.projection q number o' (mode.lambda φ f) scalar')

namespace Moment

def Seated (m : φ.Moment) (mode : Mode) (p q : Option ContextId) (node : Node) (i j : ContextId) : Prop :=
  m.same i j ∧ ∃ d e, m.left.contexts[i]? = some d ∧ m.right.contexts[j]? = some e ∧ Seat φ mode p q node d e

theorem Seated.mono (h : m.Seated mode p q node i j) (hmn : m.Later n) : n.Seated mode p q node i j := by
  obtain ⟨hij, d, e, hd, he, hseat⟩ := h
  obtain ⟨d', hd', hbare⟩ := hmn.left i d hd
  obtain ⟨e', he', hbare'⟩ := hmn.right j e he
  refine ⟨hmn.same hij, d', e', hd', he', ?_⟩
  cases hseat with
  | table =>
    obtain ⟨r, rfl⟩ := Context.table_of_bare hbare
    obtain ⟨r', rfl⟩ := Context.table_of_bare hbare'
    exact .table _ r r'
  | projection number o o' scalar scalar' last takes =>
    rw [Context.eq_of_bare hbare rfl, Context.eq_of_bare hbare' rfl]
    exact .projection number o o' scalar scalar' last takes

/-- An operator that keeps the projection of its source leaves the sequence of that behind. -/
theorem Seated.over {source : Node} (h : m.Seated mode p q source i j) (hlast : node.projection? = source.projection?) :
    m.Seated mode p q node i j := by
  obtain ⟨hij, d, e, hd, he, hseat⟩ := h
  refine ⟨hij, d, e, hd, he, ?_⟩
  cases hseat with
  | table => exact .table _ _ _
  | projection number o o' scalar scalar' last takes => exact .projection _ _ _ _ _ (hlast.trans last) takes

theorem Pair.of_projection {number : StatementId} {o : ContextId} {f : Lambda} {scalar : Bool}
    (h : m.Pair (.projection p number o f scalar) e) : ∃ mode q o', m.same o o' ∧ m.Holds mode p q ∧
      mode.TakesLambda φ f ∧ scalar = f.body.bindings?.isNone ∧
      e = .projection q number o' (mode.lambda φ f) (mode.lambda φ f).body.bindings?.isNone := by
  cases h with
  | projection mode sequence parent takes => exact ⟨mode, _, _, sequence, parent, takes, rfl, rfl⟩

theorem keeps_withParent (hd : m.left.contexts[i]? = some d) (he : m.right.contexts[j]? = some e)
    (hleft : d.isScope = false) (hright : e.isScope = false) (r r' : Option ContextId) :
    m.Keeps (m.adjust i j (Context.withParent r) (Context.withParent r')) := by
  refine ⟨id, id, supports_withParent _ _ fun x hx => ?_, supports_withParent _ _ fun x hx => ?_⟩
  · rwa [← Option.some.inj (hd.symm.trans hx)]
  · rwa [← Option.some.inj (he.symm.trans hx)]

theorem Pair.reparent (h : m.Pair d e) (hseat : Seat φ mode p q node d e) (hk : m.Keeps n)
    (hab : n.Holds mode' (some a) (some b)) (hlast : ∀ f, node.projection? = some f → mode.TakesLambda φ f →
      mode'.TakesLambda φ f ∧ mode'.lambda φ f = mode.lambda φ f) :
    n.Pair (d.withParent (some a)) (e.withParent (some b)) := by
  cases hseat with
  | table =>
    cases h with
    | table _ rows => exact .table hab.sees (rows_keep rows hk)
  | @projection f number _ _ _ _ last takes =>
    obtain ⟨mode₀, _, _, hsequence, -, -, rfl, heq⟩ := h.of_projection
    obtain ⟨-, -, rfl, hlambda, rfl⟩ := Context.projection.inj heq
    obtain ⟨htakes, hmode⟩ := hlast f last takes
    have hpair : n.Pair (.projection (some a) number _ f _) (.projection (some b) number _ _ _) :=
      .projection mode' (hk.same hsequence) hab htakes
    rw [hmode, hlambda] at hpair
    rw [hlambda]
    exact hpair

/-- Meanwhile only associations may have been followed from them. -/
theorem Pair.restore {o : φ.Moment} {d' e' : Context} (h : m.Pair d e) (hseat : Seat φ mode p q node d e)
    (hmo : m.Keeps o) (hno : n.Keeps o) (h' : n.Pair d' e') (hd : d'.bare = (d.withParent (some a)).bare)
    (he : e'.bare = (e.withParent (some b)).bare) : o.Pair (d'.withParent p) (e'.withParent q) := by
  cases hseat with
  | table number r r' =>
    obtain ⟨x, rfl⟩ := Context.table_of_bare hd
    obtain ⟨y, rfl⟩ := Context.table_of_bare he
    cases h with
    | table parent =>
      cases h' with
      | table _ rows => exact .table (parent.keep hmo) (rows_keep rows hno)
  | projection =>
    rw [Context.eq_of_bare hd rfl, Context.eq_of_bare he rfl]
    exact h.keep hmo

end Moment

/-- An action during which what a query is compiled to is under other scopes. -/
theorem Tracks.withParent {α : Type} {act act' : Build α} (hseated : m.Seated mode p q node i j)
    (hab : m.Holds mode' (some a) (some b)) (hlast : ∀ f, node.projection? = some f → mode.TakesLambda φ f →
      mode'.TakesLambda φ f ∧ mode'.lambda φ f = mode.lambda φ f)
    (h : ∀ n, m.Keeps n → Tracks n Equal act act') :
    Tracks m Equal (Build.withParent i (some a) act) (Build.withParent j (some b) act') := by
  intro halike v s hrun
  obtain ⟨hij, d, e, hd, he, hseat⟩ := hseated
  obtain ⟨d', t, hd', hact, rfl⟩ := exists_of_run_withParent hrun trivial
  obtain rfl := Option.some.inj (hd.symm.trans hd')
  have hscope : ∀ x, d.isScope = false ∧ e.isScope = false ∧ (d.withParent x).isScope = false ∧
      (e.withParent x).isScope = false := by cases hseat <;> exact fun _ => ⟨rfl, rfl, rfl, rfl⟩
  obtain ⟨rfl, rfl⟩ : d.parent = p ∧ e.parent = q := by cases hseat <;> exact ⟨rfl, rfl⟩
  let m₁ := m.adjust i j (Context.withParent (some a)) (Context.withParent (some b))
  have hk : m.Keeps m₁ := Moment.keeps_withParent hd he (hscope none).1 (hscope none).2.1 _ _
  have halike₁ : m₁.Alike := halike.adjust hij hk fun x y hx hy hxy => by
    obtain rfl := Option.some.inj (hd.symm.trans hx)
    obtain rfl := Option.some.inj (he.symm.trans hy)
    exact hxy.reparent hseat hk (hab.keep hk) hlast
  obtain ⟨n, v', rfl, hlater, hnow, hact', hv⟩ := h m₁ hk halike₁ v t hact
  obtain ⟨x, hx, hbare⟩ := hlater.left i (d.withParent (some a))
    ((List.getElem?_modify_eq ..).trans (by rw [hd]; rfl))
  obtain ⟨y, hy, hbare'⟩ := hlater.right j (e.withParent (some b))
    ((List.getElem?_modify_eq ..).trans (by rw [he]; rfl))
  let o := n.adjust i j (Context.withParent d.parent) (Context.withParent e.parent)
  have hmo : m.Later o :=
    ⟨hlater.same, hlater.site, Mirror.sustains_restore hd hlater.left, Mirror.sustains_restore he hlater.right⟩
  have hno : n.Keeps o := Moment.keeps_withParent hx hy ((Context.isScope_of_bare hbare).trans (hscope _).2.2.1)
    ((Context.isScope_of_bare hbare').trans (hscope _).2.2.2) _ _
  refine ⟨o, v', rfl, hmo, hnow.adjust (hlater.same hij) hno ?_, run_withParent_of he hact' ⟨y, hy⟩, hv⟩
  · intro x' y' hx' hy' hxy
    obtain rfl := Option.some.inj (hx.symm.trans hx')
    obtain rfl := Option.some.inj (hy.symm.trans hy')
    exact (halike.pair hij hd he).restore hseat hmo.keeps hno hxy hbare hbare'

end Fusion
end ObjectQuery
