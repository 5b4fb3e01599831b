/-!
The operators that queries and statements share.
-/
namespace ObjectQuery

inductive Arithmetic where
  | add | subtract | multiply | divide | concat
deriving DecidableEq, Inhabited

inductive Comparison where
  | equal | unequal | less | lessOrEqual | greater | greaterOrEqual
deriving DecidableEq, Inhabited

namespace Comparison

/-- The comparison that holds of two values exactly when this one does not. -/
def opposite : Comparison → Comparison
  | .equal => .unequal
  | .unequal => .equal
  | .less => .greaterOrEqual
  | .lessOrEqual => .greater
  | .greater => .lessOrEqual
  | .greaterOrEqual => .less

theorem opposite_opposite (c : Comparison) : c.opposite.opposite = c := by
  cases c <;> rfl

end Comparison

inductive Aggregate where
  | count | sum | min | max | avg
deriving DecidableEq, Inhabited

def Aggregate.name : Aggregate → String
  | .count => "count"
  | .sum => "sum"
  | .min => "min"
  | .max => "max"
  | .avg => "avg"

end ObjectQuery
