import Mathlib.Data.Int.Order.Basic
import Mathlib.Order.Lattice
import ObjectQuery.Proofs.Mirror.Sameness

/-!
Conditions that may be unknown. Conjunction, disjunction and negation are simplified where they are built; whatever the
operands mean, true, false or unknown, the result means what the connective says of them.
-/
namespace ObjectQuery

namespace Truth

/-- A conjunction one of whose sides may be unknown. -/
def both : Option Bool → Option Bool → Option Bool
  | some false, _ => some false
  | _, some false => some false
  | some true, t => t
  | none, _ => none

def either : Option Bool → Option Bool → Option Bool
  | some true, _ => some true
  | _, some true => some true
  | some false, t => t
  | none, _ => none

variable (t : Option Bool)

@[simp] theorem both_false_left : both (some false) t = some false := rfl

@[simp] theorem both_false_right : both t (some false) = some false := by
  rcases t with _ | _ | _ <;> rfl

@[simp] theorem both_true_left : both (some true) t = t := by
  rcases t with _ | _ | _ <;> rfl

@[simp] theorem both_true_right : both t (some true) = t := by
  rcases t with _ | _ | _ <;> rfl

@[simp] theorem both_self : both t t = t := by
  rcases t with _ | _ | _ <;> rfl

@[simp] theorem either_true_left : either (some true) t = some true := rfl

@[simp] theorem either_true_right : either t (some true) = some true := by
  rcases t with _ | _ | _ <;> rfl

@[simp] theorem either_false_left : either (some false) t = t := by
  rcases t with _ | _ | _ <;> rfl

@[simp] theorem either_false_right : either t (some false) = t := by
  rcases t with _ | _ | _ <;> rfl

@[simp] theorem either_self : either t t = t := by
  rcases t with _ | _ | _ <;> rfl

theorem map_not_map_not : (t.map Bool.not).map Bool.not = t := by
  rcases t with _ | _ | _ <;> rfl

end Truth

namespace Predicate

/-- A reading of conditions in three values: the connectives are Kleene's, opposite comparisons have opposite values,
and what is the same has the same value. -/
structure Kleene (f : Predicate → Option Bool) : Prop where
  always : f .always = some true
  never : f .never = some false
  opposite : ∀ op a b, f (.compare op.opposite a b) = (f (.compare op a b)).map Bool.not
  and : ∀ p q, f (.and p q) = Truth.both (f p) (f q)
  or : ∀ p q, f (.or p q) = Truth.either (f p) (f q)
  not : ∀ p, f (.not p) = (f p).map Bool.not
  same : ∀ {p q}, p.same q → f p = f q

namespace Kleene

variable {f : Predicate → Option Bool} (hf : Kleene f)
include hf

theorem ofBool (t : Bool) : f (.ofBool t) = some t := by
  cases t with
  | false => exact hf.never
  | true => exact hf.always

theorem negate (p : Predicate) : f p.negate = (f p).map Bool.not := by
  cases p with
  | always => simp [Predicate.negate, hf.always, hf.never]
  | never => simp [Predicate.negate, hf.always, hf.never]
  | compare op a b => exact hf.opposite op a b
  | not p => rw [Predicate.negate, hf.not, Truth.map_not_map_not]
  | isNull | and | or => exact hf.not _

theorem conjunction (p q : Predicate) : f (p.conjunction q) = Truth.both (f p) (f q) := by
  rw [conjunction_eq]
  split
  · next hp => simp [eq_ofBool_of_constant? hp, hf.ofBool, hf.never]
  · next hq _ => simp [eq_ofBool_of_constant? hq, hf.ofBool, hf.never]
  · next hp _ => simp [eq_ofBool_of_constant? hp, hf.ofBool]
  · next hq _ _ => simp [eq_ofBool_of_constant? hq, hf.ofBool]
  · split
    · next hsame => simp [hf.same hsame]
    · exact hf.and p q

theorem disjunction (p q : Predicate) : f (p.disjunction q) = Truth.either (f p) (f q) := by
  rw [disjunction_eq]
  split
  · next hp => simp [eq_ofBool_of_constant? hp, hf.ofBool, hf.always]
  · next hq _ => simp [eq_ofBool_of_constant? hq, hf.ofBool, hf.always]
  · next hp _ => simp [eq_ofBool_of_constant? hp, hf.ofBool]
  · next hq _ _ => simp [eq_ofBool_of_constant? hq, hf.ofBool]
  · split
    · next hsame => simp [hf.same hsame]
    · exact hf.or p q

end Kleene
end Predicate

/-- Whether a comparison holds of two values of an ordered domain. -/
def Comparison.holds {D : Type*} [LinearOrder D] : Comparison → D → D → Bool
  | .equal, x, y => x = y
  | .unequal, x, y => x ≠ y
  | .less, x, y => x < y
  | .lessOrEqual, x, y => x ≤ y
  | .greater, x, y => y < x
  | .greaterOrEqual, x, y => y ≤ x

theorem Comparison.holds_opposite {D : Type*} [LinearOrder D] (op : Comparison) (x y : D) :
    op.opposite.holds x y = !op.holds x y := by
  rw [Bool.eq_iff_iff]
  cases op <;> simp [opposite, holds]

/-- A value for each expression, which may be null: any at all, as long as equal expressions have equal values. -/
structure Valuation (D : Type*) where
  value : SqlExpr → Option D
  value_of_same : ∀ {a b : SqlExpr}, a.same b → value a = value b

/-- Whole numbers are their own values, everything else is null. -/
def Valuation.wholeNumbers : Valuation Int where
  value
    | .literal (.int n) => some n
    | _ => none
  value_of_same {a b} h := by
    cases a <;> cases b <;> simp only [SqlExpr.same, Bool.false_eq_true] at h <;> try rfl
    case literal v w =>
      cases v <;> cases w <;> simp_all [Literal.same]

namespace Predicate

variable {D : Type*} [LinearOrder D]

/-- The value of a condition: a comparison with null is unknown, whether a value is null is always known. -/
def truth (v : Valuation D) : Predicate → Option Bool
  | .always => some true
  | .never => some false
  | .compare op lhs rhs => (v.value lhs).bind fun x => (v.value rhs).map fun y => op.holds x y
  | .isNull e => some (v.value e).isNone
  | .and lhs rhs => Truth.both (lhs.truth v) (rhs.truth v)
  | .or lhs rhs => Truth.either (lhs.truth v) (rhs.truth v)
  | .not inner => (inner.truth v).map Bool.not
  termination_by structural p => p

theorem truth_of_same (v : Valuation D) {p q : Predicate} (h : p.same q) : p.truth v = q.truth v := by
  cases p <;> cases q <;> simp only [same, Bool.false_eq_true, Bool.and_eq_true, beq_iff_eq] at h
  case always | never => rfl
  case compare =>
    obtain ⟨⟨rfl, hl⟩, hr⟩ := h
    simp only [truth, v.value_of_same hl, v.value_of_same hr]
  case isNull => simp only [truth, v.value_of_same h]
  case and => simp only [truth, truth_of_same v h.1, truth_of_same v h.2]
  case or => simp only [truth, truth_of_same v h.1, truth_of_same v h.2]
  case not => simp only [truth, truth_of_same v h]
  termination_by structural p

theorem truth_opposite (v : Valuation D) (op : Comparison) (a b : SqlExpr) :
    (compare op.opposite a b).truth v = ((compare op a b).truth v).map Bool.not := by
  cases ha : v.value a <;> cases hb : v.value b <;> simp [truth, ha, hb, Comparison.holds_opposite]

theorem kleene_truth (v : Valuation D) : Kleene (truth v) where
  always := rfl
  never := rfl
  opposite := truth_opposite v
  and _ _ := rfl
  or _ _ := rfl
  not _ := rfl
  same := truth_of_same v

/-- Connectives over conditions, nested in any way. -/
inductive Nesting where
  | leaf (p : Predicate)
  | and (lhs rhs : Nesting)
  | or (lhs rhs : Nesting)
  | not (inner : Nesting)

namespace Nesting

/-- The condition that is built, each connective simplified. -/
def simplified : Nesting → Predicate
  | leaf p => p
  | and lhs rhs => lhs.simplified.conjunction rhs.simplified
  | or lhs rhs => lhs.simplified.disjunction rhs.simplified
  | not inner => inner.simplified.negate

/-- The condition as it is written. -/
def plain : Nesting → Predicate
  | leaf p => p
  | and lhs rhs => .and lhs.plain rhs.plain
  | or lhs rhs => .or lhs.plain rhs.plain
  | not inner => .not inner.plain

theorem simplified_eq_plain {f : Predicate → Option Bool} (hf : Kleene f) (n : Nesting) :
    f n.simplified = f n.plain := by
  induction n with
  | leaf p => rfl
  | and lhs rhs hl hr => rw [simplified, plain, hf.conjunction, hf.and, hl, hr]
  | or lhs rhs hl hr => rw [simplified, plain, hf.disjunction, hf.or, hl, hr]
  | not inner h => rw [simplified, plain, hf.negate, hf.not, h]

end Nesting

/-- Under every valuation the simplified connectives are Kleene's, and so conditions built with them mean the same as
those that are not simplified. -/
theorem truth_connectives (v : Valuation D) :
    (∀ p q : Predicate, (p.conjunction q).truth v = Truth.both (p.truth v) (q.truth v)) ∧
    (∀ p q : Predicate, (p.disjunction q).truth v = Truth.either (p.truth v) (q.truth v)) ∧
    (∀ p : Predicate, p.negate.truth v = (p.truth v).map Bool.not) ∧
    ∀ n : Nesting, n.simplified.truth v = n.plain.truth v := by
  have hv := kleene_truth v
  exact ⟨hv.conjunction, hv.disjunction, hv.negate, Nesting.simplified_eq_plain hv⟩

/-- What is not known to be less is not known to be greater or equal either. -/
example : ((compare .less (.literal (.int 1)) .null).conjunction (isNull .null)).negate.truth .wholeNumbers = none :=
  rfl

end Predicate
end ObjectQuery
