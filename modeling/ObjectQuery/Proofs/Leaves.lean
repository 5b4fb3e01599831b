import ObjectQuery.Statement.Basic

/-!
The columns, parameters, literals and sub-queries of values and conditions, however deep. Simplified conditions
have no others than what they are built from.
-/
namespace ObjectQuery

mutual

def SqlExpr.leaves : SqlExpr → List SqlExpr
  | .arithmetic _ lhs rhs => lhs.leaves ++ rhs.leaves
  | .function _ args => SqlExpr.leavesAll args
  | .condition p => p.leaves
  | .column id aliasName => [.column id aliasName]
  | .parameter name value => [.parameter name value]
  | .literal value => [.literal value]
  | .null => [.null]
  | .subquery number => [.subquery number]
  | .star => [.star]
  termination_by structural e => e

def SqlExpr.leavesAll : List SqlExpr → List SqlExpr
  | [] => []
  | e :: es => e.leaves ++ SqlExpr.leavesAll es
  termination_by structural es => es

def Predicate.leaves : Predicate → List SqlExpr
  | .always => []
  | .never => []
  | .compare _ lhs rhs => lhs.leaves ++ rhs.leaves
  | .isNull value => value.leaves
  | .and lhs rhs => lhs.leaves ++ rhs.leaves
  | .or lhs rhs => lhs.leaves ++ rhs.leaves
  | .not inner => inner.leaves
  termination_by structural p => p

end

theorem SqlExpr.leavesAll_eq (es : List SqlExpr) : SqlExpr.leavesAll es = es.flatMap SqlExpr.leaves := by
  induction es with
  | nil => rfl
  | cons e es ih => rw [SqlExpr.leavesAll, ih, List.flatMap_cons]

namespace Predicate

theorem leaves_ofBool (b : Bool) : (ofBool b).leaves = [] := by
  cases b <;> rfl

theorem leaves_equal_subset (lhs rhs : SqlExpr) : (equal lhs rhs).leaves ⊆ lhs.leaves ++ rhs.leaves := by
  unfold equal
  split
  · simp [leaves]
  · split
    · simp [leaves]
    · simp [leaves]

theorem leaves_negate_subset (p : Predicate) : p.negate.leaves ⊆ p.leaves := by
  cases p <;> simp [negate, leaves]

theorem leaves_conjunction_subset (p q : Predicate) : (p.conjunction q).leaves ⊆ p.leaves ++ q.leaves := by
  unfold conjunction
  split <;> try split
  all_goals simp [leaves]

theorem leaves_disjunction_subset (p q : Predicate) : (p.disjunction q).leaves ⊆ p.leaves ++ q.leaves := by
  unfold disjunction
  split <;> try split
  all_goals simp [leaves]

end Predicate

/-- All that occurs in the select list, the condition, the join conditions and the assigned values. -/
def Statement.leaves (s : Statement) : List SqlExpr :=
  s.select.flatMap SqlExpr.leaves ++ s.condition.leaves ++
    s.sources.joins.flatMap (fun j => j.on.leaves) ++
    s.update.items.flatMap fun i => i.value.leaves

end ObjectQuery
