import Mathlib.Order.Filter.AtTopBot.Basic
import ObjectQuery.Proofs.Fuel.Calls
import ObjectQuery.Proofs.Parts
import ObjectQuery.Proofs.Twins.Ahead

/-!
Conditions and values. What an expression comes to as a condition is what it comes to as a value, tested: either way the
same is written, and the same goes wrong. Only arithmetic is a value and no condition.
-/
namespace ObjectQuery

open Build

namespace Compiler

variable [Observer] {α : Type} {c : Compiler} {scope : ContextId} {e : Expr} {n : Nat} {s t : BuildState}

/-- What an action comes to with any amount of fuel beyond some amount. -/
def Comes (c : Compiler) (act : Calls → Build α) (s : BuildState) (r : Except Stop α × BuildState) : Prop :=
  ∀ᶠ fuel in Filter.atTop, (act (c.calls fuel)).run s = r

theorem value_conversions (n : Nat) (scope : ContextId) (e : Expr) :
    (c.calls (n + e.conversions)).value scope e = (c.calls n).value scope e.strip := by
  induction e using Expr.strip.induct with
  | case1 inner ih => exact ih
  | case2 e h =>
    cases e with
    | convert inner => exact absurd rfl (h inner)
    | _ => rfl

section Tested

variable (hc : c.settings.parameterizeConstants = false)
  (harith : ∀ op lhs rhs, e.strip ≠ .binary (.arithmetic op) lhs rhs) (n : Nat) (scope : ContextId)

include hc harith

theorem condition_approximates_value :
    ((c.calls n).condition scope e).Approximates (SqlExpr.test <$> (c.calls (n + 1 + e.conversions)).value scope e) := by
  rw [value_conversions]
  cases n with
  | zero => exact .exhausted _
  | succ n =>
    change (condition (c.calls n) scope e).Approximates (SqlExpr.test <$> c.value (c.calls (n + 1)) scope e.strip)
    obtain hplain | hlogical | ⟨p, hconstant⟩ := test_value_cases hc harith
    · rw [condition_of_isCondition_eq_false hplain]
      exact .map _ ((calls_approximate (Nat.le_add_right n 2)).value scope e.strip)
    · rw [hlogical, ← condition_strip]
      exact .refl _
    · rw [(hconstant _ scope).1, ← condition_strip, (hconstant _ scope).2]
      exact .refl _

theorem value_approximates_condition :
    (SqlExpr.test <$> (c.calls n).value scope e).Approximates ((c.calls (n + 1)).condition scope e) := by
  refine .trans (.map _ ((calls_approximate (Nat.le_add_right n e.conversions)).value scope e)) ?_
  rw [value_conversions]
  change (SqlExpr.test <$> (c.calls n).value scope e.strip).Approximates (condition (c.calls n) scope e)
  cases n with
  | zero => exact fun s => .inl ⟨s, rfl⟩
  | succ n =>
    obtain hplain | hlogical | ⟨p, hconstant⟩ := test_value_cases hc harith
    · rw [condition_of_isCondition_eq_false hplain]
      exact .refl _
    · change (SqlExpr.test <$> c.value (c.calls n) scope e.strip).Approximates _
      rw [hlogical, ← condition_strip]
      exact (calls_approximate (Nat.le_add_right n 2)).condition scope e.strip
    · change (SqlExpr.test <$> c.value (c.calls n) scope e.strip).Approximates _
      rw [(hconstant _ scope).1, ← condition_strip, (hconstant _ scope).2]
      exact .refl _

end Tested

omit [Observer] in
theorem condition_of_arithmetic {op : Arithmetic} {lhs rhs : Expr} (h : e.strip = .binary (.arithmetic op) lhs rhs)
    (rec : Calls) (scope : ContextId) : condition rec scope e = fail (.unsupportedShape (.notACondition op)) := by
  rw [condition, h]

theorem comes_of_run {act : Build α} {act' : Calls → Build α} {r : Except Stop α × BuildState}
    (hact : ∀ m, n ≤ m → act.Approximates (act' (c.calls m))) (hrun : act.run s = r)
    (hr : r.1 ≠ .error .outOfFuel) : c.Comes act' s r :=
  Filter.eventually_atTop.mpr ⟨n, fun m hm => (hact m hm).run_eq_of_ne hrun hr⟩

theorem comes_value {r : Except Stop SqlExpr × BuildState} (hrun : ((c.calls n).value scope e).run s = r)
    (hr : r.1 ≠ .error .outOfFuel) : c.Comes (fun rec => rec.value scope e) s r :=
  comes_of_run (fun _ hm => (calls_approximate hm).value scope e) hrun hr

end Compiler

/-- A condition means the same as a filter and as a value, unless constants become parameters. In every state, what an
expression comes to as a condition is what it comes to as a value, tested, and both leave the same state. If it fails as
a condition, it fails as a value for the same reason, unless it is arithmetic; and what is a value and no arithmetic is
a condition. -/
theorem Compiler.conditions_agree_with_values [Observer] {c : Compiler} (hc : c.settings.parameterizeConstants = false)
    (fuel : Nat) (scope : ContextId) (e : Expr) (s : BuildState) :
    (∀ p t, ((c.calls fuel).condition scope e).run s = (.ok p, t) →
      ∃ v, c.Comes (fun rec => rec.value scope e) s (.ok v, t) ∧ p = v.test) ∧
    (∀ error t, ((c.calls fuel).condition scope e).run s = (.error (.failed error), t) →
      c.Comes (fun rec => rec.value scope e) s (.error (.failed error), t) ∨
        ∃ op lhs rhs, e.strip = .binary (.arithmetic op) lhs rhs) ∧
    ∀ v t, ((c.calls fuel).value scope e).run s = (.ok v, t) →
      c.Comes (fun rec => rec.condition scope e) s (.ok v.test, t) ∨
        ∃ op lhs rhs, e.strip = .binary (.arithmetic op) lhs rhs := by
  by_cases h : ∃ op lhs rhs, e.strip = .binary (.arithmetic op) lhs rhs
  · refine ⟨fun p t hrun => ?_, fun _ _ _ => .inr h, fun _ _ _ => .inr h⟩
    -- arithmetic is never a condition
    obtain ⟨op, lhs, rhs, h⟩ := h
    cases fuel with
    | zero => cases hrun
    | succ fuel =>
      change (condition (c.calls fuel) scope e).run s = _ at hrun
      rw [condition_of_arithmetic h] at hrun
      cases hrun
  · have harith : ∀ op lhs rhs, e.strip ≠ .binary (.arithmetic op) lhs rhs :=
      fun op lhs rhs heq => h ⟨op, lhs, rhs, heq⟩
    refine ⟨fun p t hrun => ?_, fun error t hrun => .inl ?_, fun v t hrun => .inl ?_⟩
    · have hvalue := (condition_approximates_value hc harith fuel scope).run_eq hrun
      obtain ⟨v, hv, htest⟩ := exists_of_run_map hvalue
      exact ⟨v, comes_value hv nofun, htest.symm⟩
    · have hvalue := (condition_approximates_value hc harith fuel scope).run_eq_of_ne hrun nofun
      rw [run_map] at hvalue
      split at hvalue <;> cases hvalue
      next hv => exact comes_value hv nofun
    · have htested : (SqlExpr.test <$> (c.calls fuel).value scope e).run s = (.ok v.test, t) := by
        rw [run_map, hrun]
      have happrox := value_approximates_condition hc harith fuel scope
      exact comes_of_run (fun m hm => happrox.trans ((calls_approximate hm).condition scope e)) htested nofun

/-- Employees, each as the question whether the manager is called Ann, without those for whom the answer is yes. -/
def notUnderAnn : Node :=
  ((Node.source "Employee").select ⟨["e"], .binary (.comparison .equal)
    (.member (.member (.parameter "e") "manager") "name") (.literal (.text "Ann"))⟩).filter
    ⟨["underAnn"], .not (.convert (.parameter "underAnn"))⟩

def askedUnderAnn : BuildState :=
  ((@Compiler.root ⟨fun s => s.contexts.length == 3⟩ .company 9 notUnderAnn).run {}).2

namespace Compiler

/-- The projected condition is filtered on: the manager is joined, and the comparison turned round. A parameter that is
not in scope fails either way. -/
theorem conditions_agree_with_values_underAnn :
    company.settings.parameterizeConstants = false ∧ company.Reached notUnderAnn askedUnderAnn ∧
    (∃ p t v, ((company.calls 9).condition 2 (.not (.convert (.parameter "underAnn")))).run askedUnderAnn = (.ok p, t) ∧
      t.contexts.length = askedUnderAnn.contexts.length + 2 ∧
      p = .compare .unequal (.column ⟨0, 1⟩ "t2") (.literal (.text "Ann")) ∧ p = v.test ∧
      company.Comes (fun rec => rec.value 2 (.not (.convert (.parameter "underAnn")))) askedUnderAnn (.ok v, t)) ∧
    ∃ e t, ((company.calls 9).condition 2 (.not (.parameter "nobody"))).run askedUnderAnn = (.error (.failed e), t) ∧
      company.Comes (fun rec => rec.value 2 (.not (.parameter "nobody"))) askedUnderAnn (.error (.failed e), t) := by
  have hc : company.settings.parameterizeConstants = false := rfl
  refine ⟨hc, ⟨_, 9, rfl⟩, ?_, ?_⟩
  · have hrun : ∃ p t, ((company.calls 9).condition 2 (.not (.convert (.parameter "underAnn")))).run askedUnderAnn =
        (.ok p, t) ∧ t.contexts.length = askedUnderAnn.contexts.length + 2 ∧
        p = .compare .unequal (.column ⟨0, 1⟩ "t2") (.literal (.text "Ann")) := ⟨_, _, rfl, rfl, rfl⟩
    obtain ⟨p, t, hrun, hlength, hp⟩ := hrun
    obtain ⟨v, hv, htest⟩ := (conditions_agree_with_values hc 9 2 _ askedUnderAnn).1 p t hrun
    exact ⟨p, t, v, hrun, hlength, hp, htest, hv⟩
  · have hrun : ∃ e t, ((company.calls 9).condition 2 (.not (.parameter "nobody"))).run askedUnderAnn =
        (.error (.failed e), t) := ⟨_, _, rfl⟩
    obtain ⟨e, t, hrun⟩ := hrun
    obtain hvalue | ⟨op, lhs, rhs, harith⟩ := (conditions_agree_with_values hc 9 2 _ askedUnderAnn).2.1 e t hrun
    · exact ⟨e, t, hrun, hvalue⟩
    · cases harith

end Compiler
end ObjectQuery
