import ObjectQuery.Literal
import ObjectQuery.Operator

/-!
Queries as a front end hands them over: expressions over lambda parameters, and operator trees whose
arguments are sequences, lambdas, entity names and plain values.
-/
namespace ObjectQuery

inductive BinaryOperator where
  | arithmetic (op : Arithmetic)
  | comparison (op : Comparison)
  | and
  | or
deriving DecidableEq, Inhabited

inductive OperatorKind where
  | source | filter | select | update | set
deriving DecidableEq, Inhabited

mutual

/-- Member accesses nest outside-in: `c.venue.name` accesses `name` of `c.venue`. An external is a value
captured from the caller's surroundings. -/
inductive Expr where
  | parameter (name : String)
  | member (object : Expr) (name : String)
  | literal (value : Literal)
  | external (name : String)
  | null
  | convert (inner : Expr)
  | binary (op : BinaryOperator) (lhs rhs : Expr)
  | not (inner : Expr)
  | call (function : String) (args : List Expr)
  | construct (bindings : List (String × Expr))
  | aggregate (function : Aggregate) (source : Node) (selector : Option Lambda)

structure Lambda where
  parameters : List String
  body : Expr

/-- One operator of a chained query. -/
structure Node where
  kind : OperatorKind
  arguments : List Argument

inductive Argument where
  | sequence (node : Node)
  | lambda (lambda : Lambda)
  | entity (name : String)
  | value (expr : Expr)

end

instance : Inhabited Expr := ⟨.null⟩
instance : Inhabited Lambda := ⟨⟨[], .null⟩⟩
instance : Inhabited Node := ⟨⟨.source, []⟩⟩

/-- The expression under any outer conversions. -/
def Expr.strip : Expr → Expr
  | .convert inner => inner.strip
  | e => e

/-- A construction, possibly under conversions, has named members. -/
def Expr.bindings? (e : Expr) : Option (List (String × Expr)) :=
  match e.strip with
  | .construct bindings => some bindings
  | _ => none

/-- The parameter that ranges over the rows. -/
def Lambda.row? (l : Lambda) : Option String :=
  l.parameters.head?

theorem Expr.strip_strip (e : Expr) : e.strip.strip = e.strip := by
  induction e using Expr.strip.induct with
  | case1 inner ih => simpa [Expr.strip] using ih
  | case2 e h =>
    cases e with
    | convert inner => exact absurd rfl (h inner)
    | _ => simp [Expr.strip]

theorem Expr.strip_of_bindings? {e : Expr} {bindings : List (String × Expr)} (h : e.bindings? = some bindings) :
    e.strip = .construct bindings := by
  unfold bindings? at h
  split at h
  · next bs hs =>
    cases h
    exact hs
  · cases h

end ObjectQuery
