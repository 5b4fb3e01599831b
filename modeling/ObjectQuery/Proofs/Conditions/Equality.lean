import Mathlib.Data.List.Lex
import ObjectQuery.Proofs.Mirror.Connectives
import ObjectQuery.Proofs.Repeated.Ordinals

/-!
Equalities are simplified where they are built: operands that are the same need no comparison, and different literals
never agree. Whatever the operands stand for, the result means what the comparison does, with one exception. A null is
equal to nothing as far as comparisons know, but here it is equal to itself.
-/
namespace ObjectQuery

/-! Literals told apart by numbers. -/

namespace Binary64

def number (x : Binary64) : Nat :=
  if x.isZero then 0 else x.bits.toNat

theorem bits_ne_zero {x : Binary64} (h : x.isZero = false) : x.bits.toNat ≠ 0 := by
  intro h0
  simp [isZero, biasedExponent, fraction, h0] at h

theorem number_eq_iff {x y : Binary64} (hx : x.isNaN = false) (hy : y.isNaN = false) :
    x.number = y.number ↔ x.equals y := by
  by_cases h : x = y
  · subst h
    simp [equals_self_iff, hx]
  · have hbits : x.bits.toNat ≠ y.bits.toNat := fun he => h (congrArg mk (UInt64.toNat_inj.mp he))
    cases hzx : x.isZero <;> cases hzy : y.isZero <;> simp [number, equals, hx, hy, hzx, hzy, h, hbits]
    · exact bits_ne_zero hzx
    · exact (bits_ne_zero hzy).symm

end Binary64

namespace Literal

/-- Numbers that say of which kind the literal is, and which one of them. -/
def digits : Literal → List Nat
  | .bool b => [0, b.toNat]
  | .int n => [1, n.toNat, (-n).toNat]
  | .float x => [2, x.number]
  | .text s => 3 :: s.toList.map Char.toNat

theorem digits_eq_iff {a b : Literal} (ha : a.isNaN = false) (hb : b.isNaN = false) :
    a.digits = b.digits ↔ a.same b := by
  cases a <;> cases b <;> simp only [digits, same, List.cons.injEq, beq_iff_eq, and_true, true_and] <;> try simp
  case bool s t => cases s <;> cases t <;> simp
  case int m n => omega
  case float x y => exact Binary64.number_eq_iff ha hb
  case text s t =>
    have hinj : Function.Injective Char.toNat := fun c d h => Char.toNat_inj.mp h
    rw [hinj.list_map.eq_iff, String.toList_inj]

theorem isNaN_of_same {a b : Literal} (h : a.same b) : a.isNaN = false := by
  have hself : a.same a := same_trans h ((same_comm b a).trans h)
  simpa [same_self] using hself

end Literal

namespace Valuation

/-- Literals other than NaN are values, equal ones exactly if they are the same as literals. -/
def ReadsLiterals {D : Type*} [LinearOrder D] (v : Valuation D) : Prop :=
  ∀ a b : Literal, a.isNaN = false → b.isNaN = false →
    (Predicate.compare .equal (.literal a) (.literal b)).truth v = some (a.same b)

def literals : Valuation (List Nat) where
  value
    | .literal a => some a.digits
    | _ => none
  value_of_same {a b} h := by
    cases a <;> cases b <;> simp only [SqlExpr.same, Bool.false_eq_true] at h <;> try rfl
    case literal a b =>
      have hb : b.isNaN = false := Literal.isNaN_of_same ((Literal.same_comm b a).trans h)
      exact congrArg some ((Literal.digits_eq_iff (Literal.isNaN_of_same h) hb).mpr h)

theorem readsLiterals_literals : literals.ReadsLiterals := by
  intro a b ha hb
  simp [Predicate.truth, literals, Comparison.holds, Literal.digits_eq_iff ha hb]

end Valuation

theorem SqlExpr.isNaN_of_holdsNaN {a : Literal} (h : (SqlExpr.literal a).holdsNaN = false) : a.isNaN = false := by
  simpa [holdsNaN, leaves, isNaN] using h

namespace Predicate

variable {D : Type*} [LinearOrder D] {v : Valuation D} {l r : SqlExpr}

theorem truth_equal_of_same (h : l.same r) : (equal l r).truth v = some true := by
  rw [equal, if_pos h]
  rfl

theorem truth_compare_of_same (h : l.same r) :
    (compare .equal l r).truth v = (v.value l).map fun _ => true := by
  cases hv : v.value l <;> simp [truth, ← v.value_of_same h, hv, Comparison.holds]

/-- Operands that are not the same are compared, unless they are literals. -/
theorem truth_equal_of_not_same (hv : v.ReadsLiterals) (hl : l.holdsNaN = false) (hr : r.holdsNaN = false)
    (h : ¬ l.same r) : (equal l r).truth v = (compare .equal l r).truth v := by
  rw [equal, if_neg h]
  split
  · next hliterals =>
    cases l <;> cases r <;> first | cases hliterals | skip
    case literal a b =>
      rw [hv a b (SqlExpr.isNaN_of_holdsNaN hl) (SqlExpr.isNaN_of_holdsNaN hr), Option.some.inj hliterals]
      rfl
  · rfl

theorem truth_equal_eq_iff (hv : v.ReadsLiterals) (hl : l.holdsNaN = false) (hr : r.holdsNaN = false) :
    (equal l r).truth v = (compare .equal l r).truth v ↔ ¬ (l.same r ∧ v.value l = none) := by
  by_cases h : l.same r
  · rw [truth_equal_of_same h, truth_compare_of_same h]
    cases v.value l <;> simp [h]
  · simp [truth_equal_of_not_same hv hl hr h, h]

theorem truth_unequal_eq_iff :
    (unequal l r).truth v = (compare .unequal l r).truth v ↔ (equal l r).truth v = (compare .equal l r).truth v := by
  have hinj : Function.Injective (Option.map Bool.not) := Option.map_injective fun _ _ => Bool.not_inj
  rw [unequal, (kleene_truth v).negate, show Comparison.unequal = Comparison.opposite .equal from rfl,
    truth_opposite v .equal l r, hinj.eq_iff]

/-- An equality means what the comparison does, and so does an inequality, exactly if its operands are not the same
null. If they are, comparisons are unknown; the equality holds and the inequality does not. -/
theorem truth_equality (hv : v.ReadsLiterals) (hl : l.holdsNaN = false) (hr : r.holdsNaN = false) :
    ((equal l r).truth v = (compare .equal l r).truth v ↔ ¬ (l.same r ∧ v.value l = none)) ∧
    ((unequal l r).truth v = (compare .unequal l r).truth v ↔ ¬ (l.same r ∧ v.value l = none)) ∧
    (l.same r → v.value l = none → (equal l r).truth v = some true ∧ (unequal l r).truth v = some false ∧
      (compare .equal l r).truth v = none ∧ (compare .unequal l r).truth v = none) := by
  have hequal := truth_equal_eq_iff hv hl hr
  refine ⟨hequal, truth_unequal_eq_iff.trans hequal, fun h hnull => ?_⟩
  have hholds : (equal l r).truth v = some true := truth_equal_of_same h
  have hunknown : (compare .equal l r).truth v = none := by rw [truth_compare_of_same h, hnull]; rfl
  refine ⟨hholds, ?_, hunknown, ?_⟩
  · rw [unequal, (kleene_truth v).negate, hholds]
    rfl
  · exact (truth_opposite v .equal l r).trans (by rw [hunknown]; rfl)

/-- Columns that may be null: one of them is not known to be equal to the other. -/
theorem truth_equality_columns :
    let manager := SqlExpr.column ⟨0, 2⟩ (some "t1")
    let deputy := SqlExpr.column ⟨0, 3⟩ (some "t1")
    Valuation.literals.ReadsLiterals ∧ manager.holdsNaN = false ∧ deputy.holdsNaN = false ∧
      (equal manager deputy).truth .literals = (compare .equal manager deputy).truth .literals ∧
      (unequal manager deputy).truth .literals = (compare .unequal manager deputy).truth .literals := by
  intro manager deputy
  have hreads := Valuation.readsLiterals_literals
  obtain ⟨hequal, hunequal, -⟩ := truth_equality (l := manager) (r := deputy) hreads rfl rfl
  have hother : ¬ (manager.same deputy ∧ Valuation.literals.value manager = none) := by
    rintro ⟨hsame, -⟩
    cases hsame
  exact ⟨hreads, rfl, rfl, hequal.mpr hother, hunequal.mpr hother⟩

/-- A column that is null is not known to be equal to itself, or unequal; simplified, it is equal. -/
theorem not_truth_equality :
    let manager := SqlExpr.column ⟨0, 2⟩ (some "t1")
    Valuation.literals.ReadsLiterals ∧ manager.holdsNaN = false ∧
      (equal manager manager).truth .literals = some true ∧
      (compare .equal manager manager).truth .literals = none ∧
      (unequal manager manager).truth .literals = some false ∧
      (compare .unequal manager manager).truth .literals = none :=
  ⟨Valuation.readsLiterals_literals, rfl, rfl, rfl, rfl, rfl⟩

end Predicate

end ObjectQuery
