import ObjectQuery.Binary64

/-!
The constants of a query.
-/
namespace ObjectQuery

inductive Literal where
  | bool (value : Bool)
  | int (value : Int)
  | float (value : Binary64)
  | text (value : String)
deriving DecidableEq, Inhabited

/-- Equality as values: on floats it is the numerical one. -/
def Literal.same : Literal → Literal → Bool
  | .bool a, .bool b => a == b
  | .int a, .int b => a == b
  | .float a, .float b => a.equals b
  | .text a, .text b => a == b
  | _, _ => false

def Literal.isNaN : Literal → Bool
  | .float x => x.isNaN
  | _ => false

end ObjectQuery
