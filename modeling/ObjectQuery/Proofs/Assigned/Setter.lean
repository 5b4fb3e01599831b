import Mathlib.Data.List.Forall2
import ObjectQuery.Proofs.Assigned.Denotes
import ObjectQuery.Proofs.OwnRow

/-!
The items of a setter that constructs an object: one for each member that is given a value, depth first, for the column
that the path to the member denotes.
-/
namespace ObjectQuery

open Build

mutual

/-- What is assigned to the member at the steps: the values of its own members if it is constructed, otherwise a
single value. -/
def Expr.assigned (steps : List String) : Expr → List (List String × Expr)
  | .convert inner => inner.assigned steps
  | .construct bindings => Expr.assignedAll steps bindings
  | e => [(steps, e)]
  termination_by structural e => e

def Expr.assignedAll (steps : List String) : List (String × Expr) → List (List String × Expr)
  | [] => []
  | (name, value) :: rest => value.assigned (steps ++ [name]) ++ Expr.assignedAll steps rest
  termination_by structural bindings => bindings

end

mutual

/-- How deep constructions are nested in one another. -/
def Expr.nesting : Expr → Nat
  | .convert inner => inner.nesting
  | .construct bindings => Expr.nestingAll bindings + 1
  | _ => 0
  termination_by structural e => e

def Expr.nestingAll : List (String × Expr) → Nat
  | [] => 0
  | (_, value) :: rest => max value.nesting (Expr.nestingAll rest)
  termination_by structural bindings => bindings

end

namespace Expr

variable {e : Expr} {bindings : List (String × Expr)}

theorem assigned_strip (steps : List String) (e : Expr) : e.strip.assigned steps = e.assigned steps := by
  induction e using Expr.strip.induct with
  | case1 inner ih => rwa [strip, assigned]
  | case2 e h => rw [strip]; exact h

theorem nesting_strip (e : Expr) : e.strip.nesting = e.nesting := by
  induction e using Expr.strip.induct with
  | case1 inner ih => rwa [strip, nesting]
  | case2 e h => rw [strip]; exact h

theorem assigned_of_bindings? (h : e.bindings? = some bindings) (steps : List String) :
    e.assigned steps = assignedAll steps bindings := by
  rw [← assigned_strip, strip_of_bindings? h, assigned]

theorem nesting_of_bindings? (h : e.bindings? = some bindings) : e.nesting = nestingAll bindings + 1 := by
  rw [← nesting_strip, strip_of_bindings? h, nesting]

theorem plain_of_bindings?_eq_none (h : e.bindings? = none) (steps : List String) :
    e.strip.assigned steps = [(steps, e.strip)] ∧ e.strip.nesting = 0 := by
  induction e using Expr.strip.induct with
  | case1 inner ih =>
    rw [strip]
    exact ih (by rwa [bindings?, strip] at h)
  | case2 e hconvert =>
    cases e with
    | convert inner => exact absurd rfl (hconvert inner)
    | construct => cases h
    | _ => exact ⟨rfl, rfl⟩

theorem assigned_of_bindings?_eq_none (h : e.bindings? = none) (steps : List String) :
    e.assigned steps = [(steps, e.strip)] := by
  rw [← assigned_strip, (plain_of_bindings?_eq_none h steps).1]

theorem nesting_of_bindings?_eq_none (h : e.bindings? = none) : e.nesting = 0 := by
  rw [← nesting_strip, (plain_of_bindings?_eq_none h []).2]

/-- What holds binding by binding holds of all that is assigned. -/
theorem forall₂_assignedAll {β : Type} {R : List String × Expr → β → Prop} {depth : Nat} {outer : List String}
    {groups : List (List β)}
    (h : List.Forall₂ (fun (binding : String × Expr) group => binding.2.nesting ≤ depth ∧
      List.Forall₂ R (binding.2.assigned (outer ++ [binding.1])) group) bindings groups) :
    nestingAll bindings ≤ depth ∧ List.Forall₂ R (assignedAll outer bindings) groups.flatten := by
  induction h with
  | nil => exact ⟨Nat.zero_le depth, .nil⟩
  | cons h _ ih => exact ⟨Nat.max_le.mpr ⟨h.1, ih.1⟩, List.rel_append h.2 ih.2⟩

end Expr

namespace Build

variable {α β : Type} {f : α → Build β} {xs : List α} {ys : List β} {s t : BuildState} {leaves : β → List SqlExpr}

theorem forall₂_of_run_mapM (hf : ∀ x, Derives [] leaves (f x)) (h : (xs.mapM f).run s = (.ok ys, t)) :
    s.Later t ∧ List.Forall₂ (fun x y => ∃ u v, (f x).run u = (.ok y, v) ∧ v.Later t) xs ys := by
  induction xs generalizing s ys with
  | nil =>
    cases h
    exact ⟨.refl _, .nil⟩
  | cons x xs ih =>
    rw [List.mapM_cons] at h
    obtain ⟨y, u, hx, hrest⟩ := exists_of_run_bind h
    obtain ⟨zs, v, hxs, hlast⟩ := exists_of_run_bind hrest
    cases hlast
    obtain ⟨hlater, hall⟩ := ih hxs
    exact ⟨((hf x).extends_of_run hx).later.trans hlater, .cons ⟨s, u, hx, hlater⟩ hall⟩

end Build

namespace Compiler

variable [Observer] {c : Compiler} {n : Nat} {into scope : ContextId} {table : Option TableId} {s t z : BuildState}
  {outer : List String}

/-- In the state `z` the path denotes the column of the item, and the value of the item was compiled from what is
assigned. -/
def Assigns (rec : Calls) (z : BuildState) (into scope : ContextId) (assigned : List String × Expr)
    (item : SetItem) : Prop :=
  (∃ a, (rec.classify into assigned.1).run z = (.ok (.field item.column a), z)) ∧
    ∃ u v, (rec.value scope assigned.2).run u = (.ok item.value, v)

theorem run_value_construct_ne (c : Compiler) (n : Nat) (scope : ContextId) (bindings : List (String × Expr))
    (s t : BuildState) (v : SqlExpr) : ((c.calls n).value scope (.construct bindings)).run s ≠ (.ok v, t) := by
  cases n <;> nofun

omit [Observer] in
theorem bindings?_of_run_entered? {rec : Calls} {steps : List String} {value : Expr} {nested : List (String × Expr)}
    (h : (entered? rec into steps value).run s = (.ok (some nested), t)) : value.bindings? = some nested := by
  unfold entered? at h
  split at h
  · cases h
  · next bindings hb =>
    obtain ⟨answer, u, -, hlast⟩ := exists_of_run_bind h
    split at hlast <;> cases hlast
    exact hb

theorem assigns_of_run {steps : List String} {value : Expr} {column : ColumnId} {v : SqlExpr} {u w : BuildState}
    (hcolumn : (settableColumn (c.calls n) into steps table).run s = (.ok column, u))
    (hvalue : ((c.calls n).value scope value.strip).run u = (.ok v, w)) (hz : w.Later z) :
    value.bindings? = none ∧ Assigns (c.calls n) z into scope (steps, value.strip) ⟨column, v⟩ := by
  constructor
  · cases hb : value.bindings? with
    | none => rfl
    | some bindings =>
      rw [Expr.strip_of_bindings? hb] at hvalue
      exact absurd hvalue (run_value_construct_ne c n scope bindings u w v)
  · obtain ⟨a, hclassify⟩ := of_run_settableColumn hcolumn
    have huw := (((c.calls_derive n).value [] scope value.strip).extends_of_run hvalue).later
    exact ⟨⟨a, repeats_calls c n into steps hclassify (huw.trans hz)⟩, u, w, hvalue⟩

/-- Flattening gives the items of the setter in order, and has entered every construction. -/
theorem assigns_of_flatten {depth : Nat} {bindings : List (String × Expr)} {items : List SetItem}
    (hrun : (flatten c (c.calls n) into table scope depth outer bindings).run s = (.ok items, t)) (hz : t.Later z) :
    Expr.nestingAll bindings < depth ∧
      List.Forall₂ (Assigns (c.calls n) z into scope) (Expr.assignedAll outer bindings) items := by
  induction depth generalizing outer bindings items s t with
  | zero => cases hrun
  | succ depth ih =>
    have hderive := c.calls_derive n
    rw [flatten_succ] at hrun
    obtain ⟨groups, u, hgroups, hlast⟩ := exists_of_run_bind hrun
    cases hlast
    obtain ⟨-, hall⟩ := forall₂_of_run_mapM (fun binding => derives_flattenBinding hderive fun known nested =>
      derives_flatten hderive into table scope depth _ nested) hgroups
    refine (Expr.forall₂_assignedAll ?_).imp_left Nat.lt_succ_of_le
    refine hall.imp fun binding group ⟨v, w, hgroup, hlater⟩ => ?_
    obtain ⟨nested, x, hentered, hitems⟩ := exists_of_run_bind hgroup
    cases nested with
    | some nested =>
      have hb := bindings?_of_run_entered? hentered
      rw [Expr.nesting_of_bindings? hb, Expr.assigned_of_bindings? hb]
      exact ih hitems (hlater.trans hz)
    | none =>
      obtain ⟨column, y, hcolumn, hvalue⟩ := exists_of_run_bind hitems
      obtain ⟨v, _, hvalue, hlast⟩ := exists_of_run_bind hvalue
      cases hlast
      obtain ⟨hb, hassigns⟩ := assigns_of_run hcolumn hvalue (hlater.trans hz)
      rw [Expr.nesting_of_bindings?_eq_none hb, Expr.assigned_of_bindings?_eq_none hb]
      exact ⟨Nat.zero_le depth, .cons hassigns .nil⟩

end Compiler
end ObjectQuery
