import ObjectQuery.Query.Expr

/-!
Equality of queries as values. It differs from identity in the floats only: a query that holds a NaN is
not even the same as itself.
-/
namespace ObjectQuery

mutual

def Expr.same : Expr → Expr → Bool
  | .parameter a, .parameter b => a == b
  | .member o a, .member p b => o.same p && a == b
  | .literal v, .literal w => v.same w
  | .external a, .external b => a == b
  | .null, .null => true
  | .convert a, .convert b => a.same b
  | .binary f a b, .binary g c d => f == g && a.same c && b.same d
  | .not a, .not b => a.same b
  | .call f as, .call g bs => f == g && Expr.sameAll as bs
  | .construct as, .construct bs => Expr.sameBindings as bs
  | .aggregate f n s, .aggregate g m t => f == g && n.same m && Lambda.sameOption s t
  | _, _ => false
  termination_by structural e => e

def Expr.sameAll : List Expr → List Expr → Bool
  | [], [] => true
  | a :: as, b :: bs => a.same b && Expr.sameAll as bs
  | _, _ => false
  termination_by structural es => es

def Expr.sameBindings : List (String × Expr) → List (String × Expr) → Bool
  | [], [] => true
  | (m, a) :: as, (n, b) :: bs => m == n && a.same b && Expr.sameBindings as bs
  | _, _ => false
  termination_by structural bs => bs

def Lambda.same : Lambda → Lambda → Bool
  | ⟨ps, a⟩, ⟨qs, b⟩ => ps == qs && a.same b
  termination_by structural l => l

def Lambda.sameOption : Option Lambda → Option Lambda → Bool
  | none, none => true
  | some a, some b => a.same b
  | _, _ => false
  termination_by structural l => l

def Node.same : Node → Node → Bool
  | ⟨k, as⟩, ⟨l, bs⟩ => k == l && Argument.sameAll as bs
  termination_by structural n => n

def Argument.same : Argument → Argument → Bool
  | .sequence a, .sequence b => a.same b
  | .lambda a, .lambda b => a.same b
  | .entity a, .entity b => a == b
  | .value a, .value b => a.same b
  | _, _ => false
  termination_by structural a => a

def Argument.sameAll : List Argument → List Argument → Bool
  | [], [] => true
  | a :: as, b :: bs => a.same b && Argument.sameAll as bs
  | _, _ => false
  termination_by structural as => as

end

end ObjectQuery
