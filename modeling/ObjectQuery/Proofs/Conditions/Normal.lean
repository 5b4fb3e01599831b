import ObjectQuery.Proofs.Coherent
import ObjectQuery.Proofs.Fills
import ObjectQuery.Proofs.Mirror.Sameness

/-!
Conditions in normal form: constants stand alone, and a negation is never of a comparison or of another negation. The
simplified connectives keep to it, so everything that is compiled is in normal form, the conditions that are used as
values included.
-/
namespace ObjectQuery

namespace Predicate

/-- No constant in it, and nothing negated that has a simpler form. -/
def isReduced : Predicate → Bool
  | .always | .never => false
  | .compare .. | .isNull _ => true
  | .and lhs rhs | .or lhs rhs => lhs.isReduced && rhs.isReduced
  | .not (.isNull _) => true
  | .not (.and lhs rhs) | .not (.or lhs rhs) => lhs.isReduced && rhs.isReduced
  | .not _ => false
  termination_by structural p => p

/-- A condition in normal form is a constant, or has none in it. -/
def isNormal (p : Predicate) : Bool :=
  p.constant?.isSome || p.isReduced

end Predicate

mutual

/-- The conditions that are used as values, however deep. -/
def SqlExpr.conditions : SqlExpr → List Predicate
  | .arithmetic _ lhs rhs => lhs.conditions ++ rhs.conditions
  | .function _ args => SqlExpr.conditionsAll args
  | .condition p => p :: p.conditions
  | .column .. | .parameter .. | .literal _ | .null | .subquery _ | .star => []
  termination_by structural e => e

def SqlExpr.conditionsAll : List SqlExpr → List Predicate
  | [] => []
  | e :: es => e.conditions ++ SqlExpr.conditionsAll es
  termination_by structural es => es

/-- Those of its operands. -/
def Predicate.conditions : Predicate → List Predicate
  | .always => []
  | .never => []
  | .compare _ lhs rhs => lhs.conditions ++ rhs.conditions
  | .isNull value => value.conditions
  | .and lhs rhs => lhs.conditions ++ rhs.conditions
  | .or lhs rhs => lhs.conditions ++ rhs.conditions
  | .not inner => inner.conditions
  termination_by structural p => p

end

theorem SqlExpr.conditionsAll_eq (es : List SqlExpr) :
    SqlExpr.conditionsAll es = es.flatMap SqlExpr.conditions := by
  induction es with
  | nil => rfl
  | cons e es ih => rw [SqlExpr.conditionsAll, ih, List.flatMap_cons]

namespace Predicate

variable {p q : Predicate}

theorem isNormal_of_isReduced (h : p.isReduced) : p.isNormal := by
  rw [isNormal, h, Bool.or_true]

theorem isReduced_of_isNormal (h : p.isNormal) (hp : p.constant? = none) : p.isReduced := by
  simpa [isNormal, hp] using h

theorem isNormal_ofBool (b : Bool) : (ofBool b).isNormal := by
  cases b <;> rfl

theorem isNormal_equal (lhs rhs : SqlExpr) : (equal lhs rhs).isNormal := by
  unfold equal
  split
  · rfl
  · split <;> rfl

theorem isReduced_negate (h : p.isReduced) : p.negate.isReduced := by
  cases p with
  | always | never => cases h
  | compare | isNull => rfl
  | and | or => exact h
  | not inner =>
    cases inner with
    | isNull => rfl
    | and | or => exact h
    | always | never | compare | not => cases h

theorem isNormal_negate (h : p.isNormal) : p.negate.isNormal := by
  cases hp : p.constant? with
  | none => exact isNormal_of_isReduced (isReduced_negate (isReduced_of_isNormal h hp))
  | some b =>
    rw [eq_ofBool_of_constant? hp]
    cases b <;> rfl

theorem isNormal_unequal (lhs rhs : SqlExpr) : (unequal lhs rhs).isNormal :=
  isNormal_negate (isNormal_equal lhs rhs)

/-- Two negations of a condition in normal form cancel out. -/
theorem negate_negate (h : p.isNormal) : p.negate.negate = p := by
  cases p with
  | always | never | isNull | and | or => rfl
  | compare op => rw [negate, negate, op.opposite_opposite]
  | not inner =>
    cases inner with
    | isNull | and | or => rfl
    | always | never | compare | not => cases h

theorem isNormal_conjunction (hp : p.isNormal) (hq : q.isNormal) : (p.conjunction q).isNormal := by
  rw [conjunction_eq]
  split
  · rfl
  · rfl
  · exact hq
  · exact hp
  · next hcp hcq =>
    split
    · exact hp
    · refine isNormal_of_isReduced ?_
      rw [isReduced, isReduced_of_isNormal hp hcp, isReduced_of_isNormal hq hcq, Bool.and_self]

theorem isNormal_disjunction (hp : p.isNormal) (hq : q.isNormal) : (p.disjunction q).isNormal := by
  rw [disjunction_eq]
  split
  · rfl
  · rfl
  · exact hq
  · exact hp
  · next hcp hcq =>
    split
    · exact hp
    · refine isNormal_of_isReduced ?_
      rw [isReduced, isReduced_of_isNormal hp hcp, isReduced_of_isNormal hq hcq, Bool.and_self]

/-! Simplification makes no condition a value. -/

theorem conditions_ofBool_subset (b : Bool) : (ofBool b).conditions ⊆ [] := by
  cases b <;> exact List.Subset.refl []

theorem conditions_equal_subset (lhs rhs : SqlExpr) :
    (equal lhs rhs).conditions ⊆ lhs.conditions ++ rhs.conditions := by
  unfold equal
  split
  · simp [conditions]
  · split <;> simp [conditions]

theorem conditions_negate_subset (p : Predicate) : p.negate.conditions ⊆ p.conditions := by
  cases p <;> simp [negate, conditions]

theorem conditions_conjunction_subset (p q : Predicate) :
    (p.conjunction q).conditions ⊆ p.conditions ++ q.conditions := by
  unfold conjunction
  split <;> try split
  all_goals simp [conditions]

theorem conditions_disjunction_subset (p q : Predicate) :
    (p.disjunction q).conditions ⊆ p.conditions ++ q.conditions := by
  unfold disjunction
  split <;> try split
  all_goals simp [conditions]

/-- In normal form, with all conditions in it that are used as values. -/
def Tidy (p : Predicate) : Prop :=
  ∀ q ∈ p :: p.conditions, q.isNormal

theorem Tidy.isNormal (h : p.Tidy) : p.isNormal :=
  h p List.mem_cons_self

/-- What is in normal form is tidy if its operands are those of tidy conditions, or tidy values. -/
theorem Tidy.of_subset {operands : List Predicate} (hp : p.isNormal) (hsub : p.conditions ⊆ operands)
    (h : ∀ q ∈ operands, q.isNormal) : p.Tidy :=
  List.forall_mem_cons.mpr ⟨hp, fun q hq => h q (hsub hq)⟩

theorem Tidy.operands (hp : p.Tidy) (hq : q.Tidy) : ∀ r ∈ p.conditions ++ q.conditions, r.isNormal :=
  List.forall_mem_append.mpr ⟨fun r hr => hp r (List.mem_cons_of_mem p hr),
    fun r hr => hq r (List.mem_cons_of_mem q hr)⟩

end Predicate

/-- All conditions are in normal form. -/
def Content.normal (c : Compiler) : Content c where
  value _ _ v := ∀ p ∈ v.conditions, p.isNormal
  condition _ _ p := p.Tidy
  value_mono _ h := h
  condition_mono _ h := h
  value_within _ h := h
  column _ _ := nofun
  parameter := nofun
  literal := nofun
  null := nofun
  star := nofun
  arithmetic hl hr := List.forall_mem_append.mpr ⟨hl, hr⟩
  function ha p hp := by
    rw [SqlExpr.conditions, SqlExpr.conditionsAll_eq] at hp
    obtain ⟨v, hv, hp⟩ := List.mem_flatMap.mp hp
    exact ha v hv p hp
  subquery _ _ := nofun
  ofCondition h := h
  toCondition h := h
  always := .of_subset rfl (List.Subset.refl []) nofun
  ofBool := .of_subset (Predicate.isNormal_ofBool _) (Predicate.conditions_ofBool_subset _) nofun
  compare hl hr := .of_subset rfl (List.Subset.refl _) (List.forall_mem_append.mpr ⟨hl, hr⟩)
  isNull hv := .of_subset rfl (List.Subset.refl _) hv
  equal hl hr := .of_subset (Predicate.isNormal_equal _ _) (Predicate.conditions_equal_subset _ _)
    (List.forall_mem_append.mpr ⟨hl, hr⟩)
  negate hp := .of_subset (Predicate.isNormal_negate hp.isNormal) (Predicate.conditions_negate_subset _)
    (List.forall_mem_cons.mp hp).2
  conjunction hp hq := .of_subset (Predicate.isNormal_conjunction hp.isNormal hq.isNormal)
    (Predicate.conditions_conjunction_subset _ _) (hp.operands hq)
  disjunction hp hq := .of_subset (Predicate.isNormal_disjunction hp.isNormal hq.isNormal)
    (Predicate.conditions_disjunction_subset _ _) (hp.operands hq)

/-- The condition, those of the joins, and all that are used as values. -/
def Statement.conditions (s : Statement) : List Predicate :=
  (s.condition :: s.condition.conditions) ++ s.sources.joins.flatMap (fun j => j.on :: j.on.conditions) ++
    s.select.flatMap SqlExpr.conditions ++ s.update.items.flatMap fun i => i.value.conditions

theorem Content.Fills.conditions {c : Compiler} {σ : World} {m : StatementId} {s : Statement}
    (h : (Content.normal c).Fills σ m s) : ∀ p ∈ s.conditions, p.isNormal := by
  intro p hp
  simp only [Statement.conditions, List.mem_append, List.mem_flatMap] at hp
  obtain ((hp | ⟨j, hj, hp⟩) | ⟨v, hv, hp⟩) | ⟨i, hi, hp⟩ := hp
  · exact h.condition p hp
  · exact h.joins j hj p hp
  · exact h.select v hv p hp
  · exact h.items i hi p hp

/-- The simplified connectives keep to the normal form, in which negations cancel out, and all conditions of a compiled
query are in normal form. -/
theorem Compiler.conditions_normal :
    (∀ l r : SqlExpr, (Predicate.equal l r).isNormal ∧ (Predicate.unequal l r).isNormal) ∧
    (∀ p q : Predicate, p.isNormal → q.isNormal → (p.conjunction q).isNormal ∧ (p.disjunction q).isNormal) ∧
    (∀ p : Predicate, p.isNormal → p.negate.isNormal ∧ p.negate.negate = p) ∧
    (∀ b : Bool, (Predicate.ofBool b).isNormal) ∧
    ∀ (c : Compiler) (fuel : Nat) (node : Node) (q : CompiledQuery), c.compile fuel node = .ok q →
      ∀ s ∈ q.statements, ∀ p ∈ s.conditions, p.isNormal := by
  refine ⟨fun l r => ⟨Predicate.isNormal_equal l r, Predicate.isNormal_unequal l r⟩,
    fun p q hp hq => ⟨Predicate.isNormal_conjunction hp hq, Predicate.isNormal_disjunction hp hq⟩,
    fun p hp => ⟨Predicate.isNormal_negate hp, Predicate.negate_negate hp⟩, Predicate.isNormal_ofBool, ?_⟩
  intro c fuel node q hq s hs
  obtain ⟨τ, hsteps, hstatements, -⟩ := steps_of_compile hq (.normal c)
  obtain ⟨m, hm⟩ := List.mem_iff_getElem?.mp hs
  rw [← hstatements] at hm
  exact (Steps.fills hsteps m s hm).conditions

/-- Employees who are not both without a name and without a manager's name, or else have the number one. Whether they
have a name is selected. -/
def named : Node :=
  let isNull (e : Expr) : Expr := .binary (.comparison .equal) e .null
  let name := Expr.member (.parameter "e") "name"
  let managerName := Expr.member (.member (.parameter "e") "manager") "name"
  ((Node.source "Employee").filter ⟨["e"], .binary .or (.not (.binary .and (isNull name) (isNull managerName)))
    (.binary (.comparison .equal) (.member (.parameter "e") "id") (.literal (.int 1)))⟩).select
    ⟨["e"], .construct [("named", .not (isNull name))]⟩

def namedQuery : CompiledQuery :=
  (Compiler.company.compile 12 named).toOption.getD default

/-- The condition, that of the join, and the one that is selected. -/
theorem conditions_normal_named :
    Compiler.company.compile 12 named = .ok namedQuery ∧ ∃ s, namedQuery.statements = [s] ∧ s.conditions.length = 3 ∧
      ∀ p ∈ s.conditions, p.isNormal := by
  have hq : Compiler.company.compile 12 named = .ok namedQuery := rfl
  refine ⟨hq, _, rfl, rfl, ?_⟩
  exact Compiler.conditions_normal.2.2.2.2 _ _ _ _ hq _ List.mem_cons_self

end ObjectQuery
