import ObjectQuery.Literal
import ObjectQuery.Operator
import ObjectQuery.Schema.Database

/-!
Values and conditions of a statement. `SqlExpr.same` and `Predicate.same` are equality as values, with
floats compared as numbers.
-/
namespace ObjectQuery

abbrev StatementId := Nat

mutual

/-- A parameter made from a constant carries the value to bind; one that the caller supplies carries
none. A sub-query is the statement of that number. -/
inductive SqlExpr where
  | column (id : ColumnId) (aliasName : Option String)
  | parameter (name : String) (value : Option Literal)
  | literal (value : Literal)
  | null
  | arithmetic (op : Arithmetic) (lhs rhs : SqlExpr)
  | function (name : String) (args : List SqlExpr)
  | condition (predicate : Predicate)
  | subquery (statement : StatementId)
  | star

inductive Predicate where
  | always
  | never
  | compare (op : Comparison) (lhs rhs : SqlExpr)
  | isNull (value : SqlExpr)
  | and (lhs rhs : Predicate)
  | or (lhs rhs : Predicate)
  | not (inner : Predicate)

end

instance : Inhabited SqlExpr := ⟨.null⟩
instance : Inhabited Predicate := ⟨.always⟩

def Literal.sameOption : Option Literal → Option Literal → Bool
  | none, none => true
  | some a, some b => a.same b
  | _, _ => false

mutual

def SqlExpr.same : SqlExpr → SqlExpr → Bool
  | .column a s, .column b t => a == b && s == t
  | .parameter a v, .parameter b w => a == b && Literal.sameOption v w
  | .literal v, .literal w => v.same w
  | .null, .null => true
  | .arithmetic f a b, .arithmetic g c d => f == g && a.same c && b.same d
  | .function f as, .function g bs => f == g && SqlExpr.sameAll as bs
  | .condition p, .condition q => p.same q
  | .subquery a, .subquery b => a == b
  | .star, .star => true
  | _, _ => false
  termination_by structural e => e

def SqlExpr.sameAll : List SqlExpr → List SqlExpr → Bool
  | [], [] => true
  | a :: as, b :: bs => a.same b && SqlExpr.sameAll as bs
  | _, _ => false
  termination_by structural es => es

def Predicate.same : Predicate → Predicate → Bool
  | .always, .always => true
  | .never, .never => true
  | .compare f a b, .compare g c d => f == g && a.same c && b.same d
  | .isNull a, .isNull b => a.same b
  | .and a b, .and c d => a.same c && b.same d
  | .or a b, .or c d => a.same c && b.same d
  | .not a, .not b => a.same b
  | _, _ => false
  termination_by structural p => p

end

def SqlExpr.columnId? : SqlExpr → Option ColumnId
  | .column id _ => some id
  | _ => none

/-- Whether two literals are equal; nothing is known of other expressions. -/
def SqlExpr.literalsEqual? : SqlExpr → SqlExpr → Option Bool
  | .literal a, .literal b => some (a.same b)
  | _, _ => none

end ObjectQuery
