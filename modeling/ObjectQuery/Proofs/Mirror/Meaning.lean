import ObjectQuery.Proofs.Mirror.Connectives
import ObjectQuery.Proofs.Mirror.Inline
import ObjectQuery.Proofs.Mirror.Parameters

/-!
What conditions and values mean. Parameters are told apart from constants by their shape only: where a parameter has
the value that it carries, a query means the same whether its constants are parameters or not. There is one exception.
Operands of an equality that are the same need no comparison, unless they are null; and with parameters in them it shows
too late that they are the same.
-/
namespace ObjectQuery

/-- What the leaves of values stand for, and what is done to them. No value is null. -/
structure Interpretation (V : Type) where
  literal : Literal → V
  column : ColumnId → Option String → Option V
  parameter : String → Option V
  subquery : StatementId → Option V
  star : Option V
  truth : Bool → V
  arithmetic : Arithmetic → Option V → Option V → Option V
  function : String → List (Option V) → Option V
  compare : Comparison → V → V → Bool

namespace Interpretation

variable {V : Type} (I : Interpretation V)

/-- Comparisons with null are unknown. -/
def compares (op : Comparison) (x y : Option V) : Option Bool :=
  x.bind fun x => y.map fun y => I.compare op x y

/-- Both are null, or they are equal values. -/
def Agree : Option V → Option V → Prop
  | none, none => True
  | some x, some y => I.compare .equal x y
  | _, _ => False

end Interpretation

mutual

def SqlExpr.eval {V : Type} (I : Interpretation V) : SqlExpr → Option V
  | .column id aliasName => I.column id aliasName
  | .parameter name _ => I.parameter name
  | .literal v => some (I.literal v)
  | .null => none
  | .arithmetic op lhs rhs => I.arithmetic op (lhs.eval I) (rhs.eval I)
  | .function name args => I.function name (SqlExpr.evalAll I args)
  | .condition p => (p.eval I).map I.truth
  | .subquery number => I.subquery number
  | .star => I.star
  termination_by structural e => e

def SqlExpr.evalAll {V : Type} (I : Interpretation V) : List SqlExpr → List (Option V)
  | [] => []
  | e :: es => e.eval I :: SqlExpr.evalAll I es
  termination_by structural es => es

def Predicate.eval {V : Type} (I : Interpretation V) : Predicate → Option Bool
  | .always => some true
  | .never => some false
  | .compare op lhs rhs => I.compares op (lhs.eval I) (rhs.eval I)
  | .isNull value => some (value.eval I).isNone
  | .and lhs rhs => Truth.both (lhs.eval I) (rhs.eval I)
  | .or lhs rhs => Truth.either (lhs.eval I) (rhs.eval I)
  | .not inner => (inner.eval I).map Bool.not
  termination_by structural p => p

end

/-! No two nulls are asked to be equal, however deep. -/

mutual

def SqlExpr.Distinguishes {V : Type} (I : Interpretation V) : SqlExpr → Prop
  | .arithmetic _ lhs rhs => lhs.Distinguishes I ∧ rhs.Distinguishes I
  | .function _ args => SqlExpr.DistinguishesAll I args
  | .condition p => p.Distinguishes I
  | _ => True
  termination_by structural e => e

def SqlExpr.DistinguishesAll {V : Type} (I : Interpretation V) : List SqlExpr → Prop
  | [] => True
  | e :: es => e.Distinguishes I ∧ SqlExpr.DistinguishesAll I es
  termination_by structural es => es

def Predicate.Distinguishes {V : Type} (I : Interpretation V) : Predicate → Prop
  | .compare op lhs rhs =>
    lhs.Distinguishes I ∧ rhs.Distinguishes I ∧
      (op = .equal ∨ op = .unequal → lhs.eval I = none → rhs.eval I ≠ none)
  | .isNull value => value.Distinguishes I
  | .and lhs rhs | .or lhs rhs => lhs.Distinguishes I ∧ rhs.Distinguishes I
  | .not inner => inner.Distinguishes I
  | .always | .never => True
  termination_by structural p => p

end

namespace Interpretation

variable {V : Type} {I : Interpretation V}

/-- Literals are equal as they are the same; every other value is equal to itself, and nothing distinguishes what is
equal; comparisons are total. -/
structure Lawful (I : Interpretation V) : Prop where
  literal : ∀ v w, I.compare .equal (I.literal v) (I.literal w) = v.same w
  column : ∀ id aliasName, I.Agree (I.column id aliasName) (I.column id aliasName)
  parameter : ∀ name, I.Agree (I.parameter name) (I.parameter name)
  subquery : ∀ number, I.Agree (I.subquery number) (I.subquery number)
  star : I.Agree I.star I.star
  truth : ∀ t, I.compare .equal (I.truth t) (I.truth t)
  arithmetic : ∀ {x x' y y'} (op : Arithmetic), I.Agree x x' → I.Agree y y' →
    I.Agree (I.arithmetic op x y) (I.arithmetic op x' y')
  function : ∀ {xs ys} (name : String), List.Forall₂ I.Agree xs ys → I.Agree (I.function name xs) (I.function name ys)
  compare : ∀ {x x' y y'} (op : Comparison), I.compare .equal x x' → I.compare .equal y y' →
    I.compare op x y = I.compare op x' y'
  opposite : ∀ (op : Comparison) x y, I.compare op.opposite x y = !I.compare op x y

theorem Lawful.compares (h : I.Lawful) {x x' y y' : Option V} (op : Comparison) (hx : I.Agree x x')
    (hy : I.Agree y y') : I.compares op x y = I.compares op x' y' := by
  cases x <;> cases x' <;> first | cases hx | skip
  all_goals cases y <;> cases y' <;> first | cases hy | skip
  · rfl
  · rfl
  · rfl
  · exact congrArg some (h.compare op hx hy)

theorem Lawful.compares_opposite (h : I.Lawful) (op : Comparison) (x y : Option V) :
    I.compares op.opposite x y = (I.compares op x y).map Bool.not := by
  cases x with
  | none => rfl
  | some x => cases y with
    | none => rfl
    | some y => exact congrArg some (h.opposite op x y)

theorem Agree.isNone {x y : Option V} (h : I.Agree x y) : x.isNone = y.isNone := by
  cases x <;> cases y <;> first | rfl | cases h

end Interpretation

variable {V : Type} {I : Interpretation V}

/-! What is the same means the same. -/

mutual

theorem SqlExpr.agree_of_same (hI : I.Lawful) {a b : SqlExpr} (h : a.same b) : I.Agree (a.eval I) (b.eval I) := by
  cases a <;> cases b <;> simp only [SqlExpr.same, Bool.false_eq_true, Bool.and_eq_true, beq_iff_eq] at h
  case column =>
    obtain ⟨rfl, rfl⟩ := h
    exact hI.column _ _
  case parameter =>
    obtain ⟨rfl, -⟩ := h
    exact hI.parameter _
  case literal => exact (hI.literal _ _).trans h
  case null => trivial
  case arithmetic =>
    obtain ⟨⟨rfl, hl⟩, hr⟩ := h
    exact hI.arithmetic _ (SqlExpr.agree_of_same hI hl) (SqlExpr.agree_of_same hI hr)
  case function =>
    obtain ⟨rfl, hargs⟩ := h
    exact hI.function _ (SqlExpr.agree_of_sameAll hI hargs)
  case condition p q =>
    rw [SqlExpr.eval, SqlExpr.eval, Predicate.eval_of_same hI h]
    cases q.eval I with
    | none => trivial
    | some t => exact hI.truth t
  case subquery =>
    rw [h]
    exact hI.subquery _
  case star => exact hI.star
  termination_by structural a

theorem SqlExpr.agree_of_sameAll (hI : I.Lawful) {as bs : List SqlExpr} (h : SqlExpr.sameAll as bs) :
    List.Forall₂ I.Agree (SqlExpr.evalAll I as) (SqlExpr.evalAll I bs) := by
  cases as <;> cases bs <;> simp only [SqlExpr.sameAll, Bool.false_eq_true, Bool.and_eq_true] at h
  case nil => exact .nil
  case cons => exact .cons (SqlExpr.agree_of_same hI h.1) (SqlExpr.agree_of_sameAll hI h.2)
  termination_by structural as

theorem Predicate.eval_of_same (hI : I.Lawful) {p q : Predicate} (h : p.same q) : p.eval I = q.eval I := by
  cases p <;> cases q <;> simp only [Predicate.same, Bool.false_eq_true, Bool.and_eq_true, beq_iff_eq] at h
  case always | never => rfl
  case compare =>
    obtain ⟨⟨rfl, hl⟩, hr⟩ := h
    exact hI.compares _ (SqlExpr.agree_of_same hI hl) (SqlExpr.agree_of_same hI hr)
  case isNull => rw [Predicate.eval, Predicate.eval, (SqlExpr.agree_of_same hI h).isNone]
  case and => rw [Predicate.eval, Predicate.eval, Predicate.eval_of_same hI h.1, Predicate.eval_of_same hI h.2]
  case or => rw [Predicate.eval, Predicate.eval, Predicate.eval_of_same hI h.1, Predicate.eval_of_same hI h.2]
  case not => rw [Predicate.eval, Predicate.eval, Predicate.eval_of_same hI h]
  termination_by structural p

end

/-! Conditions mean what they are simplified from. -/

namespace Predicate

theorem kleene_eval (hI : I.Lawful) : Kleene (eval I) where
  always := rfl
  never := rfl
  opposite op _ _ := hI.compares_opposite op _ _
  and _ _ := rfl
  or _ _ := rfl
  not _ := rfl
  same := eval_of_same hI

theorem eval_negate (hI : I.Lawful) (p : Predicate) : p.negate.eval I = (p.eval I).map Bool.not :=
  (kleene_eval hI).negate p

theorem eval_equal (hI : I.Lawful) {a b : SqlExpr} (h : a.eval I = none → b.eval I ≠ none) :
    (equal a b).eval I = I.compares .equal (a.eval I) (b.eval I) := by
  unfold equal
  split
  · next hsame =>
    have hagree := SqlExpr.agree_of_same hI hsame
    cases ha : a.eval I with
    | none =>
      rw [ha] at hagree
      cases hb : b.eval I with
      | none => exact absurd hb (h ha)
      | some => simp [hb, Interpretation.Agree] at hagree
    | some x =>
      rw [ha] at hagree
      cases hb : b.eval I with
      | none => simp [hb, Interpretation.Agree] at hagree
      | some y =>
        rw [hb] at hagree
        exact congrArg some hagree.symm
  · split
    · next hliterals =>
      cases a <;> cases b <;> first | cases hliterals | skip
      exact congrArg some ((hI.literal _ _).trans (Option.some.inj hliterals)).symm
    · rfl

theorem eval_conjunction (hI : I.Lawful) (p q : Predicate) :
    (p.conjunction q).eval I = Truth.both (p.eval I) (q.eval I) :=
  (kleene_eval hI).conjunction p q

theorem eval_disjunction (hI : I.Lawful) (p q : Predicate) :
    (p.disjunction q).eval I = Truth.either (p.eval I) (q.eval I) :=
  (kleene_eval hI).disjunction p q

end Predicate

/-- The parameters have the values that they carry. -/
def Interpretation.Carries (I : Interpretation V) (leaves : List SqlExpr) : Prop :=
  ∀ (name : String) (v : Literal), .parameter name (some v) ∈ leaves → I.parameter name = some (I.literal v)

theorem Interpretation.carries_append {leaves leaves' : List SqlExpr} :
    I.Carries (leaves ++ leaves') ↔ I.Carries leaves ∧ I.Carries leaves' := by
  simp only [Carries, List.mem_append, or_imp, forall_and]

/-! Parameters mean the constants that they carry. -/

mutual

theorem SqlExpr.eval_inline (hI : I.Lawful) (v : SqlExpr) (hv : v.Distinguishes I) (hc : I.Carries v.leaves) :
    v.inline.eval I = v.eval I := by
  cases v with
  | column | literal | null | subquery | star => rfl
  | parameter name value =>
    cases value with
    | none => rfl
    | some value => exact (hc name value (List.mem_singleton.mpr rfl)).symm
  | arithmetic op a b =>
    obtain ⟨ha, hb⟩ := Interpretation.carries_append.mp hc
    rw [SqlExpr.inline, SqlExpr.eval, SqlExpr.eval, a.eval_inline hI hv.1 ha, b.eval_inline hI hv.2 hb]
  | function name args =>
    rw [SqlExpr.inline, SqlExpr.eval, SqlExpr.eval, SqlExpr.evalAll_inline hI args hv hc]
  | condition p => rw [SqlExpr.inline, SqlExpr.eval, SqlExpr.eval, p.eval_inline hI hv hc]
  termination_by structural v

theorem SqlExpr.evalAll_inline (hI : I.Lawful) (vs : List SqlExpr) (hv : SqlExpr.DistinguishesAll I vs)
    (hc : I.Carries (SqlExpr.leavesAll vs)) : SqlExpr.evalAll I (SqlExpr.inlineAll vs) = SqlExpr.evalAll I vs := by
  cases vs with
  | nil => rfl
  | cons v vs =>
    obtain ⟨hhead, htail⟩ := Interpretation.carries_append.mp hc
    rw [SqlExpr.inlineAll, SqlExpr.evalAll, SqlExpr.evalAll, v.eval_inline hI hv.1 hhead,
      SqlExpr.evalAll_inline hI vs hv.2 htail]
  termination_by structural vs

theorem Predicate.eval_inline (hI : I.Lawful) (p : Predicate) (hp : p.Distinguishes I) (hc : I.Carries p.leaves) :
    p.inline.eval I = p.eval I := by
  cases p with
  | always | never => rfl
  | compare op a b =>
    obtain ⟨hda, hdb, hnull⟩ := hp
    obtain ⟨hca, hcb⟩ := Interpretation.carries_append.mp hc
    have ha := a.eval_inline hI hda hca
    have hb := b.eval_inline hI hdb hcb
    have hequal : op = .equal ∨ op = .unequal →
        (Predicate.equal a.inline b.inline).eval I = I.compares .equal (a.eval I) (b.eval I) := by
      intro hop
      rw [Predicate.eval_equal hI (by rw [ha, hb]; exact hnull hop), ha, hb]
    cases op with
    | equal => exact hequal (.inl rfl)
    | unequal =>
      rw [Predicate.inline, Predicate.unequal, Predicate.eval_negate hI, hequal (.inr rfl)]
      exact (hI.compares_opposite .equal _ _).symm
    | less | lessOrEqual | greater | greaterOrEqual =>
      rw [Predicate.inline.eq_def, Predicate.eval, Predicate.eval, ha, hb]
  | isNull v => rw [Predicate.inline, Predicate.eval, Predicate.eval, v.eval_inline hI hp hc]
  | and p q =>
    obtain ⟨hcp, hcq⟩ := Interpretation.carries_append.mp hc
    rw [Predicate.inline, Predicate.eval_conjunction hI, p.eval_inline hI hp.1 hcp, q.eval_inline hI hp.2 hcq,
      Predicate.eval]
  | or p q =>
    obtain ⟨hcp, hcq⟩ := Interpretation.carries_append.mp hc
    rw [Predicate.inline, Predicate.eval_disjunction hI, p.eval_inline hI hp.1 hcp, q.eval_inline hI hp.2 hcq,
      Predicate.eval]
  | not p => rw [Predicate.inline, Predicate.eval_negate hI, p.eval_inline hI hp hc, Predicate.eval]
  termination_by structural p

end

/-- A statement with parameters for its constants, and one with the constants. They differ in their select lists, and in
the form of their values and conditions. -/
structure Statement.Parameterizes (st st' : Statement) : Prop where
  kind : st'.kind = st.kind
  sources : st'.sources = st.sources
  target : st'.update.target = st.update.target
  columns : st'.update.items.map SetItem.column = st.update.items.map SetItem.column
  condition : ∀ {V : Type} {I : Interpretation V}, I.Lawful → I.Carries st.leaves → st.condition.Distinguishes I →
    st'.condition.eval I = st.condition.eval I
  values : ∀ {V : Type} {I : Interpretation V}, I.Lawful → I.Carries st.leaves →
    List.Forall₂ (fun i j => i.value.Distinguishes I → j.value.eval I = i.value.eval I) st.update.items
      st'.update.items

theorem Statement.parameterizes_of_inline {st st' : Statement} (kind : st'.kind = st.kind)
    (sources : st'.sources = st.sources) (target : st'.update.target = st.update.target)
    (condition : st.condition.inline = st'.condition)
    (items : List.Forall₂ (fun i j => j.column = i.column ∧ i.value.inline = j.value) st.update.items
      st'.update.items) :
    st.Parameterizes st' := by
  have hitems : st'.update.items = st.update.items.map fun i => ⟨i.column, i.value.inline⟩ := by
    have hpairs : List.Forall₂ (fun i j => (⟨i.column, i.value.inline⟩ : SetItem) = j) st.update.items
        st'.update.items := items.imp fun i j h => by rw [← h.1, h.2]
    rw [← List.forall₂_map_left_iff (f := fun i : SetItem => (⟨i.column, i.value.inline⟩ : SetItem)) (R := Eq),
      List.forall₂_eq_eq_eq] at hpairs
    exact hpairs.symm
  refine ⟨kind, sources, target, ?_, fun hI hcarries hd => ?_, fun {V I} hI hcarries => ?_⟩
  · rw [hitems, List.map_map]
    rfl
  · rw [← condition]
    refine st.condition.eval_inline hI hd fun name v hv => hcarries name v ?_
    simp [Statement.leaves, hv]
  · rw [hitems, List.forall₂_map_right_iff, List.forall₂_same]
    intro i hi hd
    refine i.value.eval_inline hI hd fun name v hv => hcarries name v ?_
    exact List.mem_append_right _ (List.mem_flatMap.mpr ⟨i, hi, hv⟩)

/-- Whether constants become parameters makes no difference to what is compiled: the same error, or the same contexts
and statements that mean the same. Only nulls that are asked to be equal make one. -/
theorem Compiler.compile_parameterize (c : Compiler) (fuel : Nat) (node : Node) :
    (∀ stop, (c.parameterize true).compile fuel node = .error stop ↔
      (c.parameterize false).compile fuel node = .error stop) ∧
      ∀ q, (c.parameterize true).compile fuel node = .ok q →
        ∃ q', (c.parameterize false).compile fuel node = .ok q' ∧ q'.root = q.root ∧ q'.rootContext = q.rootContext ∧
          q'.contexts = q.contexts ∧ List.Forall₂ Statement.Parameterizes q.statements q'.statements := by
  let M : Mirror (c.parameterize true) (c.parameterize false) := .identical (fun _ => True) (.inlined rfl rfl)
    (fun _ _ _ f _ _ => f.guarded_of_forall (fun _ _ => trivial) fun _ => trivial) rfl rfl rfl fun _ => rfl
  have houtcomes := M.outcomes_identical rfl (g := ()) trivial
    (node.guarded_of_forall (fun _ _ => trivial) fun _ => trivial) fuel
  generalize (c.parameterize true).compile fuel node = x at houtcomes
  generalize (c.parameterize false).compile fuel node = y at houtcomes
  cases houtcomes with
  | compiles root rootContext contexts statements =>
    refine ⟨fun _ => ⟨nofun, nofun⟩, ?_⟩
    rintro _ ⟨⟩
    refine ⟨_, rfl, root, rootContext, (Lexicon.Pairs.eq contexts).symm, statements.imp fun st st' h => ?_⟩
    exact Statement.parameterizes_of_inline h.kind h.sources h.target h.condition h.items
  | fails h =>
    cases h
    exact ⟨fun _ => .rfl, nofun⟩
  | halts => exact ⟨fun _ => .rfl, nofun⟩

def Literal.number? : Literal → Option Int
  | .int a => some a
  | _ => none

/-- Numbers are added, and compared as to whether they are equal. Every name stands for the number one. -/
def Interpretation.sums : Interpretation Literal where
  literal := id
  column _ _ := some (.int 0)
  parameter _ := some (.int 1)
  subquery _ := some (.int 0)
  star := none
  truth := .bool
  arithmetic
    | .add, x, y => (x.bind Literal.number?).bind fun a => (y.bind Literal.number?).map fun b => .int (a + b)
    | _, _, _ => none
  function _ _ := none
  compare
    | .equal, v, w => v.same w
    | .unequal, v, w => !v.same w
    | .less, _, _ | .greater, _, _ => false
    | .lessOrEqual, _, _ | .greaterOrEqual, _, _ => true

theorem Interpretation.lawful_sums : sums.Lawful where
  literal _ _ := rfl
  column _ _ := rfl
  parameter _ := rfl
  subquery _ := rfl
  star := trivial
  truth t := by cases t <;> rfl
  arithmetic := by
    intro x x' y y' op hx hy
    have hnumber : ∀ {x y : Option Literal}, sums.Agree x y → x.bind Literal.number? = y.bind Literal.number? := by
      rintro (_ | _ | a | _ | _) (_ | _ | b | _ | _) h <;> first | rfl | cases h | exact congrArg some (eq_of_beq h)
    cases op with
    | add =>
      rw [sums]
      dsimp only
      rw [hnumber hx, hnumber hy]
      cases x'.bind Literal.number? with
      | none => trivial
      | some a => cases y'.bind Literal.number? with
        | none => trivial
        | some b => exact beq_self_eq_true (a + b)
    | subtract | multiply | divide | concat => trivial
  function _ _ := trivial
  compare := by
    intro x x' y y' op hx hy
    have hsame : x.same y = x'.same y' :=
      SqlExpr.same_congr (a := .literal x) (b := .literal y) (c := .literal x') (d := .literal y') hx hy
    cases op <;> simp [sums, hsame]
  opposite op x y := by cases op <;> simp [sums, Comparison.opposite]

/-- Employees under the condition that one, added to the expression, is the same as itself. -/
def sumsAlike (e : Expr) : Node :=
  (Node.source "Employee").filter ⟨["e"], .binary (.comparison .equal)
    (.binary (.arithmetic .add) e (.literal (.int 1))) (.binary (.arithmetic .add) e (.literal (.int 1)))⟩

/-- All employees of the company under a condition. -/
def employeesWhere (condition : Predicate) : CompiledQuery where
  statements := [{ Statement.empty with
    select := [.column ⟨0, 0⟩ (some "t1"), .column ⟨0, 1⟩ (some "t1")]
    sources := ⟨some ⟨0, "t1"⟩, []⟩
    condition }]
  contexts := [.table none 0 ⟨"Employee", 0, "t1", []⟩, .lambda none 0 [("e", 0)]]
  root := 0
  rootContext := 0

def numberParameter (name : String) : SqlExpr :=
  .parameter name (some (.int 1))

/-- The sum of null and a constant is the same as itself, but with parameters it is not known to be. -/
theorem parameterize_null :
    ∃ p q, (Compiler.company.parameterize true).compile 9 (sumsAlike .null) = .ok (employeesWhere p) ∧
      (Compiler.company.parameterize false).compile 9 (sumsAlike .null) = .ok (employeesWhere q) ∧
      ∃ I : Interpretation Literal, I.Lawful ∧ I.Carries p.leaves ∧ (∀ id aliasName, (I.column id aliasName).isSome) ∧
        (∀ name, (I.parameter name).isSome) ∧ (∀ number, (I.subquery number).isSome) ∧
        p.eval I = none ∧ q.eval I = some true := by
  refine ⟨.compare .equal (.arithmetic .add .null (numberParameter "p1"))
    (.arithmetic .add .null (numberParameter "p2")), .always, rfl, rfl, .sums, Interpretation.lawful_sums, ?_, ?_⟩
  · intro name v h
    obtain ⟨-, rfl⟩ | ⟨-, rfl⟩ : name = "p1" ∧ v = .int 1 ∨ name = "p2" ∧ v = .int 1 := by
      simpa [numberParameter, Predicate.leaves, SqlExpr.leaves] using h
    all_goals rfl
  · exact ⟨fun _ _ => rfl, fun _ => rfl, fun _ => rfl, rfl, rfl⟩

/-- The name becomes a sum, and the number tells whether the sum of null and one is the same as itself. -/
def sumsAssigned : Node :=
  (sumsAlike (.literal (.int 1))).updateWith ⟨["e"], .construct
    [("name", .binary (.arithmetic .add) (.literal (.int 1)) (.literal (.int 1))),
      ("id", .binary (.comparison .equal) (.binary (.arithmetic .add) .null (.literal (.int 1)))
        (.binary (.arithmetic .add) .null (.literal (.int 1))))]⟩

def sumsAssignedStatement : Statement :=
  { Statement.empty with
    kind := .update
    sources := ⟨some ⟨0, "t1"⟩, []⟩
    condition := .compare .equal (.arithmetic .add (numberParameter "p1") (numberParameter "p2"))
      (.arithmetic .add (numberParameter "p3") (numberParameter "p4"))
    update := ⟨some 0, [⟨⟨0, 1⟩, .arithmetic .add (numberParameter "p5") (numberParameter "p6")⟩,
      ⟨⟨0, 0⟩, .condition (.compare .equal (.arithmetic .add .null (numberParameter "p7"))
        (.arithmetic .add .null (numberParameter "p8")))⟩]⟩ }

/-- Nulls that are asked to be equal make a difference to their own item alone. -/
theorem parameterize_sums :
    ∃ q q' st', (Compiler.company.parameterize true).compile 9 sumsAssigned = .ok q ∧
      (Compiler.company.parameterize false).compile 9 sumsAssigned = .ok q' ∧
      q.statements = [sumsAssignedStatement] ∧ q'.statements = [st'] ∧
      st'.condition = .always ∧ sumsAssignedStatement.condition.eval .sums = some true ∧
      ∃ i j i' j', sumsAssignedStatement.update.items = [i, j] ∧ st'.update.items = [i', j'] ∧
        i'.value.eval .sums = some (.int 2) ∧ i.value.eval .sums = some (.int 2) ∧
        j'.value.eval .sums = some (.bool true) ∧ j.value.eval .sums = none := by
  have hq : ∃ q, (Compiler.company.parameterize true).compile 9 sumsAssigned = .ok q ∧
      q.statements = [sumsAssignedStatement] := ⟨_, rfl, rfl⟩
  obtain ⟨q, hq, hst⟩ := hq
  have hq' : ∃ q' st' i' j', (Compiler.company.parameterize false).compile 9 sumsAssigned = .ok q' ∧
      q'.statements = [st'] ∧ st'.condition = .always ∧ st'.update.items = [i', j'] ∧
      i'.value.eval .sums = some (.int 2) ∧ j'.value.eval .sums = some (.bool true) :=
    ⟨_, _, _, _, rfl, rfl, rfl, rfl, rfl, rfl⟩
  obtain ⟨q', st', i', j', hq', hst', halways, hitems', hi', hj'⟩ := hq'
  obtain ⟨r, hr, -, -, -, hstatements⟩ := (Compiler.company.compile_parameterize 9 sumsAssigned).2 q hq
  obtain rfl := Except.ok.inj (hr.symm.trans hq')
  have hcarries : Interpretation.sums.Carries sumsAssignedStatement.leaves := by
    intro name v h
    have hv : name ∈ ["p1", "p2", "p3", "p4", "p5", "p6", "p7", "p8"] ∧ v = .int 1 := by
      simpa [sumsAssignedStatement, numberParameter, Statement.leaves, Predicate.leaves, SqlExpr.leaves,
        Statement.empty, or_and_right, or_assoc] using h
    rw [hv.2]
    rfl
  rw [hst, hst'] at hstatements
  obtain ⟨hmeans, -⟩ := List.forall₂_cons.mp hstatements
  have hcondition := hmeans.condition Interpretation.lawful_sums hcarries
    ⟨⟨trivial, trivial⟩, ⟨trivial, trivial⟩, by rintro _ ⟨⟩⟩
  have hvalues := hmeans.values Interpretation.lawful_sums hcarries
  rw [hitems'] at hvalues
  obtain ⟨hvalue, -⟩ := List.forall₂_cons.mp hvalues
  refine ⟨q, r, st', hq, hr, hst, hst', halways, ?_, _, _, i', j', rfl, hitems', hi', ?_, hj', rfl⟩
  · rw [← hcondition, halways]
    rfl
  · rw [← hvalue ⟨trivial, trivial⟩]
    exact hi'

end ObjectQuery
