import ObjectQuery.Statement.Expr

/-!
Conditions built with simplification: constants are absorbed, equal operands merged, a negated comparison
becomes the opposite one, and literals are compared at once.
-/
namespace ObjectQuery.Predicate

def ofBool : Bool → Predicate
  | true => .always
  | false => .never

/-- Equal expressions need no comparison, and different literals never agree. -/
def equal (lhs rhs : SqlExpr) : Predicate :=
  if lhs.same rhs then .always
  else if lhs.literalsEqual? rhs = some false then .never
  else .compare .equal lhs rhs

def negate : Predicate → Predicate
  | .always => .never
  | .never => .always
  | .compare op lhs rhs => .compare op.opposite lhs rhs
  | .not inner => inner
  | p => .not p

def unequal (lhs rhs : SqlExpr) : Predicate :=
  (equal lhs rhs).negate

def conjunction : Predicate → Predicate → Predicate
  | .never, _ => .never
  | _, .never => .never
  | .always, q => q
  | p, .always => p
  | p, q => if p.same q then p else .and p q

def disjunction : Predicate → Predicate → Predicate
  | .always, _ => .always
  | _, .always => .always
  | .never, q => q
  | p, .never => p
  | p, q => if p.same q then p else .or p q

end ObjectQuery.Predicate
