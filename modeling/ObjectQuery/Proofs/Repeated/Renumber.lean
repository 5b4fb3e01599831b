import Mathlib.Logic.Function.Basic
import ObjectQuery.Proofs.Mirror.Inline
import ObjectQuery.Proofs.Mirror.Parameters

/-!
Sub-queries and constants under other numbers. Whether two values are the same does not depend on the numbers, so what
is simplified is simplified in the same way; and a value in which nothing is numbered is left as it is.
-/
namespace ObjectQuery

/-- Other names of the parameters that are made from constants, and other numbers of sub-queries. -/
structure Renumbering where
  text : String → String
  number : StatementId → StatementId
  text_injective : text.Injective
  number_injective : number.Injective

/-- A sub-query, or a parameter that is made from a constant. -/
def SqlExpr.isNumbered : SqlExpr → Bool
  | .subquery _ | .parameter _ (some _) => true
  | _ => false

mutual

def SqlExpr.renumber (ρ : Renumbering) : SqlExpr → SqlExpr
  | .column id aliasName => .column id aliasName
  | .parameter name none => .parameter name none
  | .parameter name (some v) => .parameter (ρ.text name) (some v)
  | .literal v => .literal v
  | .null => .null
  | .arithmetic op lhs rhs => .arithmetic op (lhs.renumber ρ) (rhs.renumber ρ)
  | .function name args => .function name (SqlExpr.renumberAll ρ args)
  | .condition p => .condition (p.renumber ρ)
  | .subquery number => .subquery (ρ.number number)
  | .star => .star
  termination_by structural v => v

def SqlExpr.renumberAll (ρ : Renumbering) : List SqlExpr → List SqlExpr
  | [] => []
  | v :: vs => v.renumber ρ :: SqlExpr.renumberAll ρ vs
  termination_by structural vs => vs

def Predicate.renumber (ρ : Renumbering) : Predicate → Predicate
  | .always => .always
  | .never => .never
  | .compare op lhs rhs => .compare op (lhs.renumber ρ) (rhs.renumber ρ)
  | .isNull v => .isNull (v.renumber ρ)
  | .and p q => .and (p.renumber ρ) (q.renumber ρ)
  | .or p q => .or (p.renumber ρ) (q.renumber ρ)
  | .not p => .not (p.renumber ρ)
  termination_by structural p => p

end

variable {ρ : Renumbering}

theorem Renumbering.text_beq (ρ : Renumbering) (a b : String) : (ρ.text a == ρ.text b) = (a == b) := by
  rw [Bool.eq_iff_iff, beq_iff_eq, beq_iff_eq, ρ.text_injective.eq_iff]

theorem Renumbering.number_beq (ρ : Renumbering) (m n : StatementId) : (ρ.number m == ρ.number n) = (m == n) := by
  rw [Bool.eq_iff_iff, beq_iff_eq, beq_iff_eq, ρ.number_injective.eq_iff]

/-! Sameness does not depend on the numbers. -/

mutual

theorem SqlExpr.same_renumber (ρ : Renumbering) (a b : SqlExpr) : (a.renumber ρ).same (b.renumber ρ) = a.same b := by
  cases a with
  | column | literal | null | star =>
    cases b with
    | parameter name v => cases v <;> rfl
    | _ => rfl
  | parameter name v =>
    cases b with
    | parameter other w =>
      cases v <;> cases w <;> simp [SqlExpr.renumber, SqlExpr.same, Literal.sameOption, ρ.text_beq]
    | _ => cases v <;> rfl
  | subquery n =>
    cases b with
    | subquery k => exact ρ.number_beq n k
    | parameter name v => cases v <;> rfl
    | _ => rfl
  | arithmetic f a c =>
    cases b with
    | arithmetic g b d => simp [SqlExpr.renumber, SqlExpr.same, a.same_renumber ρ b, c.same_renumber ρ d]
    | parameter name v => cases v <;> rfl
    | _ => rfl
  | function f as =>
    cases b with
    | function g bs => simp [SqlExpr.renumber, SqlExpr.same, SqlExpr.sameAll_renumberAll ρ as bs]
    | parameter name v => cases v <;> rfl
    | _ => rfl
  | condition p =>
    cases b with
    | condition q => exact p.same_renumber ρ q
    | parameter name v => cases v <;> rfl
    | _ => rfl
  termination_by structural a

theorem SqlExpr.sameAll_renumberAll (ρ : Renumbering) (as bs : List SqlExpr) :
    SqlExpr.sameAll (SqlExpr.renumberAll ρ as) (SqlExpr.renumberAll ρ bs) = SqlExpr.sameAll as bs := by
  cases as with
  | nil => cases bs <;> rfl
  | cons a as =>
    cases bs with
    | nil => rfl
    | cons b bs =>
      simp [SqlExpr.renumberAll, SqlExpr.sameAll, a.same_renumber ρ b, SqlExpr.sameAll_renumberAll ρ as bs]
  termination_by structural as

theorem Predicate.same_renumber (ρ : Renumbering) (p q : Predicate) :
    (p.renumber ρ).same (q.renumber ρ) = p.same q := by
  cases p with
  | always | never => cases q <;> rfl
  | compare f a b =>
    cases q with
    | compare g c d => simp [Predicate.renumber, Predicate.same, a.same_renumber ρ c, b.same_renumber ρ d]
    | _ => rfl
  | isNull a =>
    cases q with
    | isNull b => exact a.same_renumber ρ b
    | _ => rfl
  | and p p' =>
    cases q with
    | and q q' => simp [Predicate.renumber, Predicate.same, p.same_renumber ρ q, p'.same_renumber ρ q']
    | _ => rfl
  | or p p' =>
    cases q with
    | or q q' => simp [Predicate.renumber, Predicate.same, p.same_renumber ρ q, p'.same_renumber ρ q']
    | _ => rfl
  | not p =>
    cases q with
    | not q => exact p.same_renumber ρ q
    | _ => rfl
  termination_by structural p

end

namespace SqlExpr

@[simp] theorem renumber_ofColumn (ρ : Renumbering) (id : ColumnId) (aliasName : Option String) :
    (column id aliasName).renumber ρ = column id aliasName := rfl

@[simp] theorem literalsEqual?_renumber (ρ : Renumbering) (a b : SqlExpr) :
    (a.renumber ρ).literalsEqual? (b.renumber ρ) = a.literalsEqual? b := by
  cases a with
  | parameter name v =>
    cases v <;> cases b <;> rfl
  | literal =>
    cases b with
    | parameter name v => cases v <;> rfl
    | _ => rfl
  | _ => rfl

end SqlExpr

namespace Predicate

@[simp] theorem renumber_equal (ρ : Renumbering) (a b : SqlExpr) :
    (equal a b).renumber ρ = equal (a.renumber ρ) (b.renumber ρ) := by
  simp only [equal, SqlExpr.same_renumber, SqlExpr.literalsEqual?_renumber]
  split
  · rfl
  · split <;> rfl

@[simp] theorem renumber_negate (ρ : Renumbering) (p : Predicate) : p.negate.renumber ρ = (p.renumber ρ).negate := by
  cases p <;> rfl

@[simp] theorem renumber_unequal (ρ : Renumbering) (a b : SqlExpr) :
    (unequal a b).renumber ρ = unequal (a.renumber ρ) (b.renumber ρ) := by
  rw [unequal, renumber_negate, renumber_equal, unequal]

@[simp] theorem constant?_renumber (ρ : Renumbering) (p : Predicate) : (p.renumber ρ).constant? = p.constant? := by
  cases p <;> rfl

@[simp] theorem renumber_conjunction (ρ : Renumbering) (p q : Predicate) :
    (p.conjunction q).renumber ρ = (p.renumber ρ).conjunction (q.renumber ρ) := by
  simp only [conjunction_eq, constant?_renumber, same_renumber]
  split <;> try rfl
  split <;> rfl

@[simp] theorem renumber_disjunction (ρ : Renumbering) (p q : Predicate) :
    (p.disjunction q).renumber ρ = (p.renumber ρ).disjunction (q.renumber ρ) := by
  simp only [disjunction_eq, constant?_renumber, same_renumber]
  split <;> try rfl
  split <;> rfl

end Predicate

namespace SqlExpr

theorem renumber_test (ρ : Renumbering) (v : SqlExpr) : v.test.renumber ρ = (v.renumber ρ).test := by
  cases v with
  | condition p => rfl
  | parameter name v => cases v <;> exact Predicate.renumber_equal ρ _ _
  | _ => exact Predicate.renumber_equal ρ _ _

theorem renumber_eq_null_iff (ρ : Renumbering) (v : SqlExpr) : v.renumber ρ = .null ↔ v = .null := by
  cases v with
  | parameter name value => cases value <;> simp [renumber]
  | _ => simp [renumber]

end SqlExpr

theorem Compiler.renumber_comparison (ρ : Renumbering) (op : Comparison) (a b : SqlExpr) :
    (comparison op a b).renumber ρ = comparison op (a.renumber ρ) (b.renumber ρ) := by
  by_cases hb : b = .null
  · subst hb
    cases op <;> cases a with
    | parameter name value => cases value <;> rfl
    | _ => rfl
  · by_cases ha : a = .null
    · subst ha
      cases op with
      | equal => rw [SqlExpr.renumber, comparison_equal_null, comparison_equal_null, Predicate.renumber]
      | unequal =>
        rw [SqlExpr.renumber, comparison_unequal_null, comparison_unequal_null, Predicate.renumber, Predicate.renumber]
      | less | lessOrEqual | greater | greaterOrEqual => rfl
    · have ha' := mt (a.renumber_eq_null_iff ρ).mp ha
      have hb' := mt (b.renumber_eq_null_iff ρ).mp hb
      rw [comparison_of_ne_null op ha hb, comparison_of_ne_null op ha' hb']
      cases op with
      | equal => exact Predicate.renumber_equal ρ a b
      | unequal => exact Predicate.renumber_unequal ρ a b
      | less | lessOrEqual | greater | greaterOrEqual => rfl

/-! Where nothing is numbered, nothing changes, and nowhere else. -/

mutual

theorem SqlExpr.leaves_renumber (ρ : Renumbering) (v : SqlExpr) :
    (v.renumber ρ).leaves = v.leaves.map (SqlExpr.renumber ρ) := by
  cases v with
  | column | literal | null | star | subquery => rfl
  | parameter name v => cases v <;> rfl
  | arithmetic op lhs rhs =>
    rw [SqlExpr.renumber, SqlExpr.leaves, SqlExpr.leaves, List.map_append, lhs.leaves_renumber ρ, rhs.leaves_renumber ρ]
  | function name args => exact SqlExpr.leavesAll_renumberAll ρ args
  | condition p => exact p.leaves_renumber ρ
  termination_by structural v

theorem SqlExpr.leavesAll_renumberAll (ρ : Renumbering) (vs : List SqlExpr) :
    SqlExpr.leavesAll (SqlExpr.renumberAll ρ vs) = (SqlExpr.leavesAll vs).map (SqlExpr.renumber ρ) := by
  cases vs with
  | nil => rfl
  | cons v vs =>
    rw [SqlExpr.renumberAll, SqlExpr.leavesAll, SqlExpr.leavesAll, List.map_append, v.leaves_renumber ρ,
      SqlExpr.leavesAll_renumberAll ρ vs]
  termination_by structural vs

theorem Predicate.leaves_renumber (ρ : Renumbering) (p : Predicate) :
    (p.renumber ρ).leaves = p.leaves.map (SqlExpr.renumber ρ) := by
  cases p with
  | always | never => rfl
  | compare op lhs rhs =>
    rw [Predicate.renumber, Predicate.leaves, Predicate.leaves, List.map_append, lhs.leaves_renumber ρ,
      rhs.leaves_renumber ρ]
  | isNull v => exact v.leaves_renumber ρ
  | and p q | or p q =>
    rw [Predicate.renumber, Predicate.leaves, Predicate.leaves, List.map_append, p.leaves_renumber ρ,
      q.leaves_renumber ρ]
  | not p => exact p.leaves_renumber ρ
  termination_by structural p

end

mutual

theorem SqlExpr.renumber_of_plain (v : SqlExpr) (h : ∀ l ∈ v.leaves, l.isNumbered = false) : v.renumber ρ = v := by
  cases v with
  | column | literal | null | star => rfl
  | subquery n => cases h (.subquery n) (by simp [SqlExpr.leaves])
  | parameter name v =>
    cases v with
    | none => rfl
    | some v => cases h (.parameter name (some v)) (by simp [SqlExpr.leaves])
  | arithmetic op lhs rhs =>
    rw [SqlExpr.leaves, List.forall_mem_append] at h
    rw [SqlExpr.renumber, lhs.renumber_of_plain h.1, rhs.renumber_of_plain h.2]
  | function name args => rw [SqlExpr.renumber, SqlExpr.renumberAll_of_plain args h]
  | condition p => rw [SqlExpr.renumber, p.renumber_of_plain h]
  termination_by structural v

theorem SqlExpr.renumberAll_of_plain (vs : List SqlExpr) (h : ∀ l ∈ SqlExpr.leavesAll vs, l.isNumbered = false) :
    SqlExpr.renumberAll ρ vs = vs := by
  cases vs with
  | nil => rfl
  | cons v vs =>
    rw [SqlExpr.leavesAll, List.forall_mem_append] at h
    rw [SqlExpr.renumberAll, v.renumber_of_plain h.1, SqlExpr.renumberAll_of_plain vs h.2]
  termination_by structural vs

theorem Predicate.renumber_of_plain (p : Predicate) (h : ∀ l ∈ p.leaves, l.isNumbered = false) : p.renumber ρ = p := by
  cases p with
  | always | never => rfl
  | compare op lhs rhs =>
    rw [Predicate.leaves, List.forall_mem_append] at h
    rw [Predicate.renumber, lhs.renumber_of_plain h.1, rhs.renumber_of_plain h.2]
  | isNull v => rw [Predicate.renumber, v.renumber_of_plain h]
  | and p q | or p q =>
    rw [Predicate.leaves, List.forall_mem_append] at h
    rw [Predicate.renumber, p.renumber_of_plain h.1, q.renumber_of_plain h.2]
  | not p => rw [Predicate.renumber, p.renumber_of_plain h]
  termination_by structural p

end

theorem SqlExpr.renumber_leaf_eq (v : SqlExpr) (h : v.renumber ρ = v) : ∀ l ∈ v.leaves, l.renumber ρ = l := by
  have hmap := SqlExpr.leaves_renumber ρ v
  rw [h] at hmap
  intro l hl
  obtain ⟨i, hi⟩ := List.mem_iff_getElem?.mp hl
  have hsame : (v.leaves.map (SqlExpr.renumber ρ))[i]? = some l := hmap ▸ hi
  rw [List.getElem?_map, hi] at hsame
  exact Option.some.inj hsame

/-- The value is the same as itself, and nothing in it is numbered. -/
def SqlExpr.Lasts (v : SqlExpr) : Prop :=
  v.same v ∧ ∀ l ∈ v.leaves, l.isNumbered = false

instance (v : SqlExpr) : Decidable v.Lasts :=
  inferInstanceAs (Decidable (_ ∧ _))

open Build in
/-- Numbers that are greater by so much. -/
noncomputable def Renumbering.shift (statements constants : Nat) : Renumbering where
  text := Function.extend parameterText (fun k => parameterText (k + constants)) id
  number m := m + statements
  text_injective := by
    have hinjective : parameterText.Injective := fun _ _ => parameterText_injective
    intro a b hab
    by_cases ha : ∃ k, parameterText k = a
    · obtain ⟨k, rfl⟩ := ha
      by_cases hb : ∃ l, parameterText l = b
      · obtain ⟨l, rfl⟩ := hb
        simp only [hinjective.extend_apply] at hab
        rw [Nat.add_right_cancel (parameterText_injective hab)]
      · rw [hinjective.extend_apply, Function.extend_apply' _ _ _ hb] at hab
        exact absurd ⟨_, hab⟩ hb
    · by_cases hb : ∃ l, parameterText l = b
      · obtain ⟨l, rfl⟩ := hb
        rw [hinjective.extend_apply, Function.extend_apply' _ _ _ ha] at hab
        exact absurd ⟨_, hab.symm⟩ ha
      · rwa [Function.extend_apply' _ _ _ ha, Function.extend_apply' _ _ _ hb] at hab
  number_injective _ _ := Nat.add_right_cancel

theorem Renumbering.text_shift (statements constants k : Nat) :
    (Renumbering.shift statements constants).text (Build.parameterText k) = Build.parameterText (k + constants) := by
  have hinjective : Build.parameterText.Injective := fun _ _ => Build.parameterText_injective
  exact hinjective.extend_apply (fun k => Build.parameterText (k + constants)) id k

end ObjectQuery
