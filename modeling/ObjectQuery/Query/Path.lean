import ObjectQuery.Query.Expr
import ObjectQuery.Text.Dotted

/-!
Member paths: a lambda parameter followed by member accesses. `Path.ofExpr?` reads one off an expression,
`Path.toExpr` builds the accesses, and reading gives back what was built.
-/
namespace ObjectQuery

structure Path where
  root : String
  steps : List String
deriving DecidableEq, Inhabited

namespace Path

/-- Reads the accesses outermost first, so the steps after the current object are known already.
Conversions on the way do not matter. -/
def read : Expr → List String → Option Path
  | .parameter name, steps => some ⟨name, steps⟩
  | .member object name, steps => read object (name :: steps)
  | .convert inner, steps => read inner steps
  | _, _ => none

def ofExpr? (e : Expr) : Option Path :=
  read e []

/-- The accesses of the steps in order, starting at the given object. -/
def access (object : Expr) (steps : List String) : Expr :=
  steps.foldl .member object

def toExpr (path : Path) : Expr :=
  access (.parameter path.root) path.steps

/-- The name under which a flattened member is declared. -/
def qualifiedName (path : Path) : String :=
  Dotted.join path.steps

def isRoot (path : Path) : Bool :=
  path.steps.isEmpty

def text (path : Path) : String :=
  Dotted.join (path.root :: path.steps)

/-- Every way to read the first steps as one qualified name, the longest name first, with the steps
left over. -/
def prefixes (steps : List String) : List (String × List String) :=
  (List.range steps.length).reverse.map fun n =>
    (Dotted.join (steps.take (n + 1)), steps.drop (n + 1))

theorem read_access (object : Expr) (steps rest : List String) :
    read (access object steps) rest = read object (steps ++ rest) := by
  induction steps generalizing object with
  | nil => rfl
  | cons name steps ih => exact ih (.member object name)

theorem ofExpr?_toExpr (path : Path) : ofExpr? path.toExpr = some path := by
  simp [ofExpr?, toExpr, read_access, read]

end Path
end ObjectQuery
