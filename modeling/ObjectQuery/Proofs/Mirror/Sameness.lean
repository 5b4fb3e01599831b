import ObjectQuery.Statement.Predicate

/-!
Sameness of values and conditions is symmetric and transitive, and what is simplified from the same parts is the same. A
value that holds a NaN is not the same as anything.
-/
namespace ObjectQuery

theorem Binary64.equals_trans {x y z : Binary64} (h : x.equals y) (k : y.equals z) : x.equals z := by
  simp only [equals, Bool.and_eq_true, Bool.or_eq_true, decide_eq_true_eq] at h k ⊢
  obtain ⟨⟨hx, -⟩, hxy⟩ := h
  obtain ⟨⟨-, hz⟩, hyz⟩ := k
  refine ⟨⟨hx, hz⟩, ?_⟩
  rcases hxy with rfl | ⟨hx, hy⟩
  · exact hyz
  · rcases hyz with rfl | ⟨-, hz⟩
    · exact .inr ⟨hx, hy⟩
    · exact .inr ⟨hx, hz⟩

theorem Literal.same_comm (v w : Literal) : v.same w = w.same v := by
  cases v with
  | bool a => cases w with
    | bool b => exact Bool.beq_comm
    | _ => rfl
  | int a => cases w with
    | int b => exact Bool.beq_comm
    | _ => rfl
  | float a => cases w with
    | float b => exact Binary64.equals_comm a b
    | _ => rfl
  | text a => cases w with
    | text b => exact Bool.beq_comm
    | _ => rfl

theorem Literal.same_trans {u v w : Literal} (h : u.same v) (k : v.same w) : u.same w := by
  cases u <;> cases v <;> first | cases h | skip
  all_goals cases w <;> first | cases k | skip
  all_goals simp only [Literal.same, beq_iff_eq] at h k ⊢
  · rw [h, k]
  · rw [h, k]
  · exact Binary64.equals_trans h k
  · rw [h, k]

theorem Literal.sameOption_comm (v w : Option Literal) : sameOption v w = sameOption w v := by
  cases v <;> cases w <;> first | rfl | exact same_comm _ _

theorem Literal.sameOption_trans {u v w : Option Literal} (h : sameOption u v) (k : sameOption v w) :
    sameOption u w := by
  cases u <;> cases v <;> first | cases h | skip
  all_goals cases w <;> first | cases k | skip
  · rfl
  · exact same_trans h k

mutual

theorem SqlExpr.same_comm (a b : SqlExpr) : a.same b = b.same a := by
  cases a with
  | column | literal | null | subquery | star | parameter =>
    cases b <;> simp [SqlExpr.same, Literal.same_comm, Literal.sameOption_comm, BEq.comm]
  | arithmetic f a c =>
    cases b with
    | arithmetic g b d => rw [SqlExpr.same, SqlExpr.same, a.same_comm b, c.same_comm d, BEq.comm (a := f)]
    | _ => rfl
  | function f as =>
    cases b with
    | function g bs => rw [SqlExpr.same, SqlExpr.same, SqlExpr.sameAll_comm as bs, BEq.comm (a := f)]
    | _ => rfl
  | condition p =>
    cases b with
    | condition q => exact p.same_comm q
    | _ => rfl
  termination_by structural a

theorem SqlExpr.sameAll_comm (as bs : List SqlExpr) : SqlExpr.sameAll as bs = SqlExpr.sameAll bs as := by
  cases as with
  | nil => cases bs <;> rfl
  | cons a as =>
    cases bs with
    | nil => rfl
    | cons b bs => rw [SqlExpr.sameAll, SqlExpr.sameAll, a.same_comm b, SqlExpr.sameAll_comm as bs]
  termination_by structural as

theorem Predicate.same_comm (p q : Predicate) : p.same q = q.same p := by
  cases p with
  | always | never => cases q <;> rfl
  | compare f a b =>
    cases q with
    | compare g c d => rw [Predicate.same, Predicate.same, a.same_comm c, b.same_comm d, BEq.comm (a := f)]
    | _ => rfl
  | isNull a =>
    cases q with
    | isNull b => exact a.same_comm b
    | _ => rfl
  | and p p' =>
    cases q with
    | and q q' => rw [Predicate.same, Predicate.same, p.same_comm q, p'.same_comm q']
    | _ => rfl
  | or p p' =>
    cases q with
    | or q q' => rw [Predicate.same, Predicate.same, p.same_comm q, p'.same_comm q']
    | _ => rfl
  | not p =>
    cases q with
    | not q => exact p.same_comm q
    | _ => rfl
  termination_by structural p

end

mutual

theorem SqlExpr.same_trans {a b c : SqlExpr} (h : a.same b) (k : b.same c) : a.same c := by
  cases a <;> cases b <;> simp only [SqlExpr.same, Bool.false_eq_true] at h <;>
    cases c <;> simp only [SqlExpr.same, Bool.false_eq_true, Bool.and_eq_true, beq_iff_eq] at h k ⊢
  case column => exact ⟨h.1.trans k.1, h.2.trans k.2⟩
  case parameter => exact ⟨h.1.trans k.1, Literal.sameOption_trans h.2 k.2⟩
  case literal => exact Literal.same_trans h k
  case arithmetic => exact ⟨⟨h.1.1.trans k.1.1, SqlExpr.same_trans h.1.2 k.1.2⟩, SqlExpr.same_trans h.2 k.2⟩
  case function => exact ⟨h.1.trans k.1, SqlExpr.sameAll_trans h.2 k.2⟩
  case condition => exact Predicate.same_trans h k
  case subquery => exact h.trans k
  termination_by structural a

theorem SqlExpr.sameAll_trans {as bs cs : List SqlExpr} (h : SqlExpr.sameAll as bs) (k : SqlExpr.sameAll bs cs) :
    SqlExpr.sameAll as cs := by
  cases as <;> cases bs <;> simp only [SqlExpr.sameAll, Bool.false_eq_true] at h <;>
    cases cs <;> simp only [SqlExpr.sameAll, Bool.false_eq_true, Bool.and_eq_true] at h k ⊢
  case cons => exact ⟨SqlExpr.same_trans h.1 k.1, SqlExpr.sameAll_trans h.2 k.2⟩
  termination_by structural as

theorem Predicate.same_trans {p q r : Predicate} (h : p.same q) (k : q.same r) : p.same r := by
  cases p <;> cases q <;> simp only [Predicate.same, Bool.false_eq_true] at h <;>
    cases r <;> simp only [Predicate.same, Bool.false_eq_true, Bool.and_eq_true, beq_iff_eq] at h k ⊢
  case compare => exact ⟨⟨h.1.1.trans k.1.1, SqlExpr.same_trans h.1.2 k.1.2⟩, SqlExpr.same_trans h.2 k.2⟩
  case isNull => exact SqlExpr.same_trans h k
  case and => exact ⟨Predicate.same_trans h.1 k.1, Predicate.same_trans h.2 k.2⟩
  case or => exact ⟨Predicate.same_trans h.1 k.1, Predicate.same_trans h.2 k.2⟩
  case not => exact Predicate.same_trans h k
  termination_by structural p

end

/-- Operands that are the same are compared in the same way with others. -/
theorem SqlExpr.same_congr {a b c d : SqlExpr} (hac : a.same c) (hbd : b.same d) : a.same b = c.same d := by
  rw [Bool.eq_iff_iff]
  constructor
  · exact fun h => same_trans (same_trans ((same_comm c a).trans hac) h) hbd
  · exact fun h => same_trans (same_trans hac h) ((same_comm d b).trans hbd)

namespace Predicate

variable {p p' q q' : Predicate} {a b c d : SqlExpr}

/-- The truth value of a condition that is a constant. -/
def constant? : Predicate → Option Bool
  | .always => some true
  | .never => some false
  | _ => none

theorem eq_ofBool_of_constant? {t : Bool} (h : p.constant? = some t) : p = ofBool t := by
  cases p <;> cases h <;> rfl

theorem conjunction_eq (p q : Predicate) : p.conjunction q =
    match p.constant?, q.constant? with
    | some false, _ => .never
    | _, some false => .never
    | some true, _ => q
    | _, some true => p
    | none, none => if p.same q then p else .and p q := by
  cases p <;> cases q <;> rfl

theorem disjunction_eq (p q : Predicate) : p.disjunction q =
    match p.constant?, q.constant? with
    | some true, _ => .always
    | _, some true => .always
    | some false, _ => q
    | _, some false => p
    | none, none => if p.same q then p else .or p q := by
  cases p <;> cases q <;> rfl

/-! What is simplified from the same parts is the same. -/

theorem same_congr (hp : p.same p') (hq : q.same q') : p.same q = p'.same q' :=
  SqlExpr.same_congr (a := .condition p) (b := .condition q) (c := .condition p') (d := .condition q') hp hq

theorem constant?_congr (h : p.same q) : p.constant? = q.constant? := by
  cases p <;> cases q <;> first | rfl | cases h

theorem literalsEqual?_congr (hac : a.same c) (hbd : b.same d) : a.literalsEqual? b = c.literalsEqual? d := by
  cases a <;> cases c <;> simp only [SqlExpr.same, Bool.false_eq_true] at hac <;>
    cases b <;> cases d <;> simp only [SqlExpr.same, Bool.false_eq_true] at hbd <;> try rfl
  exact congrArg some
    (SqlExpr.same_congr (a := .literal _) (b := .literal _) (c := .literal _) (d := .literal _) hac hbd)

theorem same_equal (hac : a.same c) (hbd : b.same d) : (equal a b).same (equal c d) := by
  unfold equal
  rw [SqlExpr.same_congr hac hbd, literalsEqual?_congr hac hbd]
  split
  · rfl
  · split
    · rfl
    · simp [same, hac, hbd]

theorem same_negate (h : p.same q) : p.negate.same q.negate := by
  cases p <;> cases q <;> simp only [same, Bool.false_eq_true] at h <;>
    simp_all [negate, same]

theorem same_conjunction (hp : p.same p') (hq : q.same q') : (p.conjunction q).same (p'.conjunction q') := by
  rw [conjunction_eq, conjunction_eq, constant?_congr hp, constant?_congr hq, same_congr hp hq]
  split
  · rfl
  · rfl
  · exact hq
  · exact hp
  · split
    · exact hp
    · simp [same, hp, hq]

theorem same_disjunction (hp : p.same p') (hq : q.same q') : (p.disjunction q).same (p'.disjunction q') := by
  rw [disjunction_eq, disjunction_eq, constant?_congr hp, constant?_congr hq, same_congr hp hq]
  split
  · rfl
  · rfl
  · exact hq
  · exact hp
  · split
    · exact hp
    · simp [same, hp, hq]

theorem never_conjunction (q : Predicate) : never.conjunction q = never := by
  cases q <;> rfl

theorem conjunction_never (p : Predicate) : p.conjunction never = never := by
  cases p <;> rfl

theorem always_conjunction (q : Predicate) : always.conjunction q = q := by
  cases q <;> rfl

theorem conjunction_always (p : Predicate) : p.conjunction always = p := by
  cases p <;> rfl

theorem always_disjunction (q : Predicate) : always.disjunction q = always := by
  cases q <;> rfl

theorem disjunction_always (p : Predicate) : p.disjunction always = always := by
  cases p <;> rfl

theorem never_disjunction (q : Predicate) : never.disjunction q = q := by
  cases q <;> rfl

theorem disjunction_never (p : Predicate) : p.disjunction never = p := by
  cases p <;> rfl

theorem conjunction_of_same (h : p.same q) : p.conjunction q = p := by
  cases hp : p.constant? with
  | none => simp only [conjunction_eq, ← constant?_congr h, hp, h, if_true]
  | some t =>
    rw [eq_ofBool_of_constant? hp, eq_ofBool_of_constant? ((constant?_congr h).symm.trans hp)]
    cases t <;> rfl

theorem disjunction_of_same (h : p.same q) : p.disjunction q = p := by
  cases hp : p.constant? with
  | none => simp only [disjunction_eq, ← constant?_congr h, hp, h, if_true]
  | some t =>
    rw [eq_ofBool_of_constant? hp, eq_ofBool_of_constant? ((constant?_congr h).symm.trans hp)]
    cases t <;> rfl

end Predicate
end ObjectQuery
