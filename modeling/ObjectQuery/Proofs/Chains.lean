import ObjectQuery.Query.Path

/-!
Chains of member accesses, with conversions around any of their objects. A path is read off an expression exactly if
the expression is the accesses of the path but for conversions; where the chain ends in no parameter there is no path.
-/
namespace ObjectQuery

namespace Expr

/-- The expression without the conversions along its accesses. What the chain ends in is left as it is. -/
def unconverted : Expr → Expr
  | .convert inner => inner.unconverted
  | .member object name => .member object.unconverted name
  | e => e

/-- What the chain of accesses ends in. -/
def origin : Expr → Expr
  | .convert inner => inner.origin
  | .member object _ => object.origin
  | e => e

/-- The second expression is the first with conversions put in, around the whole or around objects of its accesses. -/
inductive Converted : Expr → Expr → Prop
  | refl (e : Expr) : Converted e e
  | convert {e d : Expr} (h : Converted e d) : Converted e (.convert d)
  | member {e d : Expr} (h : Converted e d) (name : String) : Converted (.member e name) (.member d name)

theorem Converted.unconverted_eq {e d : Expr} (h : e.Converted d) : d.unconverted = e.unconverted := by
  induction h with
  | refl => rfl
  | convert _ ih => exact ih
  | member _ name ih => exact congrArg (Expr.member · name) ih

theorem converted_unconverted (e : Expr) : e.unconverted.Converted e := by
  induction e using unconverted.induct with
  | case1 inner ih => exact .convert ih
  | case2 object name ih => exact .member ih name
  | case3 e hconvert hmember =>
    rw [unconverted]
    · exact .refl e
    · exact hconvert
    · exact hmember

end Expr

namespace Path

theorem unconverted_access (object : Expr) (steps : List String) :
    (access object steps).unconverted = access object.unconverted steps := by
  induction steps generalizing object with
  | nil => rfl
  | cons name steps ih => exact ih (.member object name)

theorem unconverted_toExpr (path : Path) : path.toExpr.unconverted = path.toExpr :=
  unconverted_access _ _

theorem converted_toExpr_iff {e : Expr} {path : Path} : path.toExpr.Converted e ↔ e.unconverted = path.toExpr := by
  constructor
  · intro h
    rw [h.unconverted_eq, path.unconverted_toExpr]
  · intro h
    rw [← h]
    exact e.converted_unconverted

theorem read_unconverted (e : Expr) (rest : List String) : read e.unconverted rest = read e rest := by
  induction e using Expr.unconverted.induct generalizing rest with
  | case1 inner ih => exact ih rest
  | case2 object name ih => exact ih (name :: rest)
  | case3 e hconvert hmember =>
    rw [Expr.unconverted]
    · exact hconvert
    · exact hmember

/-- The steps that are known already follow those that are left to read. -/
theorem access_unconverted_of_read {e : Expr} {rest : List String} {path : Path} (h : read e rest = some path) :
    access e.unconverted rest = path.toExpr := by
  fun_induction read e rest with
  | case1 name steps =>
    cases h
    rfl
  | case2 object name steps ih => exact ih h
  | case3 inner steps ih => exact ih h
  | case4 => cases h

theorem read_eq_none_iff {e : Expr} {rest : List String} :
    read e rest = none ↔ ∀ name, e.origin ≠ .parameter name := by
  fun_induction read e rest with
  | case1 name steps => simp [Expr.origin]
  | case2 object name steps ih => exact ih
  | case3 inner steps ih => exact ih
  | case4 e steps hparameter hmember hconvert =>
    rw [Expr.origin]
    · exact iff_of_true rfl hparameter
    · exact hconvert
    · exact hmember

theorem ofExpr?_eq_some_iff {e : Expr} {path : Path} : ofExpr? e = some path ↔ e.unconverted = path.toExpr := by
  constructor
  · exact access_unconverted_of_read
  · intro h
    rw [ofExpr?, ← read_unconverted, h]
    exact ofExpr?_toExpr path

/-- Paths are read off exactly. An expression has the path whose accesses it is without the conversions along them, and
it has none exactly if the chain ends in something else than a parameter. So a path is read off all expressions that its
accesses become by conversions anywhere along them, and off no others. -/
theorem ofExpr?_exact (e : Expr) :
    (∀ path, ofExpr? e = some path ↔ e.unconverted = path.toExpr) ∧
      (ofExpr? e = none ↔ ∀ name, e.origin ≠ .parameter name) ∧
      ∀ path : Path, ofExpr? e = some path ↔ path.toExpr.Converted e :=
  ⟨fun _ => ofExpr?_eq_some_iff, read_eq_none_iff, fun _ => ofExpr?_eq_some_iff.trans converted_toExpr_iff.symm⟩

example : ofExpr? (.convert (.member (.convert (.convert (.member (.parameter "c") "venue"))) "name")) =
    some ⟨"c", ["venue", "name"]⟩ := rfl

end Path
end ObjectQuery
