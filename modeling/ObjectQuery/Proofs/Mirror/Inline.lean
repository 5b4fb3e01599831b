import ObjectQuery.Proofs.Mirror.Identical
import ObjectQuery.Proofs.Mirror.Sameness

/-!
Parameters replaced by the constants that they carry. Conditions are simplified again on the way, as they would have
been with the constants in the first place.
-/
namespace ObjectQuery

mutual

def SqlExpr.inline : SqlExpr → SqlExpr
  | .parameter _ (some v) => .literal v
  | .arithmetic op lhs rhs => .arithmetic op lhs.inline rhs.inline
  | .function name args => .function name (SqlExpr.inlineAll args)
  | .condition p => .condition p.inline
  | .parameter name none => .parameter name none
  | .column id aliasName => .column id aliasName
  | .literal value => .literal value
  | .null => .null
  | .subquery number => .subquery number
  | .star => .star
  termination_by structural e => e

def SqlExpr.inlineAll : List SqlExpr → List SqlExpr
  | [] => []
  | e :: es => e.inline :: SqlExpr.inlineAll es
  termination_by structural es => es

def Predicate.inline : Predicate → Predicate
  | .always => .always
  | .never => .never
  | .compare .equal lhs rhs => .equal lhs.inline rhs.inline
  | .compare .unequal lhs rhs => .unequal lhs.inline rhs.inline
  | .compare op lhs rhs => .compare op lhs.inline rhs.inline
  | .isNull value => .isNull value.inline
  | .and lhs rhs => lhs.inline.conjunction rhs.inline
  | .or lhs rhs => lhs.inline.disjunction rhs.inline
  | .not inner => inner.inline.negate
  termination_by structural p => p

end

theorem SqlExpr.inlineAll_eq (es : List SqlExpr) : SqlExpr.inlineAll es = es.map SqlExpr.inline := by
  induction es with
  | nil => rfl
  | cons e es ih => rw [SqlExpr.inlineAll, ih, List.map_cons]

namespace Predicate

variable {p p' q q' : Predicate}

/-! A condition whose parameters are replaced is simplified, so that denying it twice gives it back. -/

theorem negate_negate_equal (a b : SqlExpr) : (equal a b).negate.negate = equal a b := by
  unfold equal
  split
  · rfl
  · split <;> rfl

theorem negate_negate_conjunction (hp : p.negate.negate = p) (hq : q.negate.negate = q) :
    (p.conjunction q).negate.negate = p.conjunction q := by
  rw [conjunction_eq]
  split
  · rfl
  · rfl
  · exact hq
  · exact hp
  · split
    · exact hp
    · rfl

theorem negate_negate_disjunction (hp : p.negate.negate = p) (hq : q.negate.negate = q) :
    (p.disjunction q).negate.negate = p.disjunction q := by
  rw [disjunction_eq]
  split
  · rfl
  · rfl
  · exact hq
  · exact hp
  · split
    · exact hp
    · rfl

theorem negate_negate_inline : ∀ p : Predicate, p.inline.negate.negate = p.inline
  | .always | .never | .isNull _ => rfl
  | .compare .equal a b => negate_negate_equal a.inline b.inline
  | .compare .unequal a b => congrArg negate (negate_negate_equal a.inline b.inline)
  | .compare .less _ _ | .compare .lessOrEqual _ _ | .compare .greater _ _ | .compare .greaterOrEqual _ _ => rfl
  | .and p q => negate_negate_conjunction (negate_negate_inline p) (negate_negate_inline q)
  | .or p q => negate_negate_disjunction (negate_negate_inline p) (negate_negate_inline q)
  | .not p => congrArg negate (negate_negate_inline p)
  termination_by structural p => p

end Predicate

/-! What is the same stays the same when parameters are replaced. -/

mutual

theorem SqlExpr.same_inline {a b : SqlExpr} (h : a.same b) : a.inline.same b.inline := by
  cases a <;> cases b <;> simp only [SqlExpr.same, Bool.false_eq_true, Bool.and_eq_true, beq_iff_eq] at h
  case column => simp [SqlExpr.inline, SqlExpr.same, h]
  case parameter v _ w =>
    cases v <;> cases w <;> simp_all [SqlExpr.inline, SqlExpr.same, Literal.sameOption]
  case literal => exact h
  case null | star => rfl
  case arithmetic =>
    simp [SqlExpr.inline, SqlExpr.same, h.1.1, SqlExpr.same_inline h.1.2, SqlExpr.same_inline h.2]
  case function => simp [SqlExpr.inline, SqlExpr.same, h.1, SqlExpr.sameAll_inline h.2]
  case condition => exact Predicate.same_inline h
  case subquery => simp [SqlExpr.inline, SqlExpr.same, h]
  termination_by structural a

theorem SqlExpr.sameAll_inline {as bs : List SqlExpr} (h : SqlExpr.sameAll as bs) :
    SqlExpr.sameAll (SqlExpr.inlineAll as) (SqlExpr.inlineAll bs) := by
  cases as <;> cases bs <;> simp only [SqlExpr.sameAll, Bool.false_eq_true, Bool.and_eq_true] at h
  case nil => rfl
  case cons => simp [SqlExpr.inlineAll, SqlExpr.sameAll, SqlExpr.same_inline h.1, SqlExpr.sameAll_inline h.2]
  termination_by structural as

theorem Predicate.same_inline {p q : Predicate} (h : p.same q) : p.inline.same q.inline := by
  cases p <;> cases q <;> simp only [Predicate.same, Bool.false_eq_true, Bool.and_eq_true, beq_iff_eq] at h
  case always | never => rfl
  case compare op a b op' c d =>
    obtain ⟨⟨rfl, hac⟩, hbd⟩ := h
    have hac := SqlExpr.same_inline hac
    have hbd := SqlExpr.same_inline hbd
    cases op with
    | equal => exact Predicate.same_equal hac hbd
    | unequal => exact Predicate.same_negate (Predicate.same_equal hac hbd)
    | less | lessOrEqual | greater | greaterOrEqual => simp [Predicate.inline, Predicate.same, hac, hbd]
  case isNull => exact SqlExpr.same_inline h
  case and => exact Predicate.same_conjunction (Predicate.same_inline h.1) (Predicate.same_inline h.2)
  case or => exact Predicate.same_disjunction (Predicate.same_inline h.1) (Predicate.same_inline h.2)
  case not => exact Predicate.same_negate (Predicate.same_inline h)
  termination_by structural p

end

namespace Predicate

/-! Replacing parameters after a simplification comes to the same as before it. -/

theorem inline_equal (a b : SqlExpr) : (equal a b).inline = equal a.inline b.inline := by
  by_cases hsame : a.same b
  · rw [equal, if_pos hsame, equal, if_pos (SqlExpr.same_inline hsame)]
    rfl
  · by_cases hliterals : a.literalsEqual? b = some false
    · cases a <;> cases b <;> first | cases hliterals | skip
      rw [SqlExpr.inline, SqlExpr.inline, equal, if_neg hsame, if_pos hliterals]
      rfl
    · rw [equal, if_neg hsame, if_neg hliterals]
      rfl

theorem inline_negate (p : Predicate) : p.negate.inline = p.inline.negate := by
  cases p with
  | always | never | isNull | and | or => rfl
  | not p => exact (negate_negate_inline p).symm
  | compare op a b =>
    cases op with
    | unequal => exact (negate_negate_equal a.inline b.inline).symm
    | equal | less | lessOrEqual | greater | greaterOrEqual => rfl

theorem inline_conjunction (p q : Predicate) : (p.conjunction q).inline = p.inline.conjunction q.inline := by
  rw [conjunction_eq]
  split
  · next hp => rw [eq_ofBool_of_constant? hp]; exact (never_conjunction _).symm
  · next hq _ => rw [eq_ofBool_of_constant? hq]; exact (conjunction_never _).symm
  · next hp _ => rw [eq_ofBool_of_constant? hp]; exact (always_conjunction _).symm
  · next hq _ _ => rw [eq_ofBool_of_constant? hq]; exact (conjunction_always _).symm
  · split
    · next h => rw [conjunction_of_same (same_inline h)]
    · rfl

theorem inline_disjunction (p q : Predicate) : (p.disjunction q).inline = p.inline.disjunction q.inline := by
  rw [disjunction_eq]
  split
  · next hp => rw [eq_ofBool_of_constant? hp]; exact (always_disjunction _).symm
  · next hq _ => rw [eq_ofBool_of_constant? hq]; exact (disjunction_always _).symm
  · next hp _ => rw [eq_ofBool_of_constant? hp]; exact (never_disjunction _).symm
  · next hq _ _ => rw [eq_ofBool_of_constant? hq]; exact (disjunction_never _).symm
  · split
    · next h => rw [disjunction_of_same (same_inline h)]
    · rfl

end Predicate

theorem SqlExpr.inline_test (v : SqlExpr) : v.test.inline = v.inline.test := by
  cases v with
  | condition p => rfl
  | parameter name value => cases value <;> exact Predicate.inline_equal _ _
  | _ => exact Predicate.inline_equal _ _

/-- Null stays null, and nothing else becomes null. -/
theorem SqlExpr.inline_eq_null_iff (v : SqlExpr) : v.inline = .null ↔ v = .null := by
  cases v with
  | parameter name value => cases value <;> simp [inline]
  | _ => simp [inline]

namespace Compiler

variable {a b : SqlExpr}

theorem comparison_equal_null (b : SqlExpr) : comparison .equal .null b = .isNull b := by
  cases b <;> rfl

theorem comparison_unequal_null (b : SqlExpr) : comparison .unequal .null b = .not (.isNull b) := by
  cases b <;> rfl

theorem comparison_of_ne_null (op : Comparison) (ha : a ≠ .null) (hb : b ≠ .null) :
    comparison op a b =
      match op with
      | .equal => .equal a b
      | .unequal => .unequal a b
      | op => .compare op a b := by
  unfold comparison
  split <;> first | rfl | contradiction | skip
  all_goals simp_all

theorem inline_comparison (op : Comparison) (a b : SqlExpr) :
    (comparison op a b).inline = comparison op a.inline b.inline := by
  by_cases hb : b = .null
  · subst hb
    cases op <;> cases a <;> rfl
  · by_cases ha : a = .null
    · subst ha
      cases op with
      | equal => rw [SqlExpr.inline, comparison_equal_null, comparison_equal_null, Predicate.inline]
      | unequal =>
        rw [SqlExpr.inline, comparison_unequal_null, comparison_unequal_null, Predicate.inline, Predicate.inline]
        rfl
      | less | lessOrEqual | greater | greaterOrEqual => rfl
    · have ha' := mt a.inline_eq_null_iff.mp ha
      have hb' := mt b.inline_eq_null_iff.mp hb
      rw [comparison_of_ne_null op ha hb, comparison_of_ne_null op ha' hb']
      cases op with
      | equal => exact Predicate.inline_equal a b
      | unequal => exact (Predicate.inline_negate _).trans (congrArg _ (Predicate.inline_equal a b))
      | less | lessOrEqual | greater | greaterOrEqual => rfl

end Compiler

/-- Constants made parameters on the left, and left as they are on the right. -/
def Reading.inlined {c c' : Compiler} (hc : c.settings.parameterizeConstants = true)
    (hc' : c'.settings.parameterizeConstants = false) : Reading c c' where
  Ghost := Unit
  later _ _ := True
  counts _ _ _ := True
  value _ v w := v.inline = w
  condition _ p q := p.inline = q
  selects _ _ _ := True
  refl _ := trivial
  trans _ _ := trivial
  value_mono _ := id
  condition_mono _ := id
  selects_mono _ := id
  constant v _ := ⟨(), trivial, trivial, by simp [Compiler.constant, hc, hc', SqlExpr.inline]⟩
  column _ _ := rfl
  null := rfl
  star := rfl
  subquery _ := rfl
  arithmetic := by
    rintro _ l _ r _ op rfl rfl
    rfl
  function := by
    intro _ vs ws name h
    have hws : vs.map SqlExpr.inline = ws := by
      rw [← List.forall₂_map_left_iff (f := SqlExpr.inline) (R := Eq), List.forall₂_eq_eq_eq] at h
      exact h
    rw [SqlExpr.inline, SqlExpr.inlineAll_eq, hws]
  ofCondition h := congrArg SqlExpr.condition h
  test := by
    rintro _ v _ rfl
    exact v.inline_test
  ofBool b := by cases b <;> rfl
  comparison := by
    rintro _ l _ r _ op rfl rfl
    exact Compiler.inline_comparison op l r
  negate := by
    rintro _ p _ rfl
    exact p.inline_negate
  conjunction := by
    rintro _ p _ q _ rfl rfl
    exact p.inline_conjunction q
  disjunction := by
    rintro _ p _ q _ rfl rfl
    exact p.inline_disjunction q
  selected _ := trivial
  add _ _ := trivial

end ObjectQuery
