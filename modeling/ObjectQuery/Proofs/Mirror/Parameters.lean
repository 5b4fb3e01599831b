import ObjectQuery.Proofs.Leaves
import ObjectQuery.Proofs.Mirror.Identical

/-!
The parameters of a compiled query. Those made from constants are numbered, so that one name never stands for two
constants. Externals keep the names that the caller gives them, whichever these are.
-/
namespace ObjectQuery

/-- Constants become parameters, or stay constants. -/
def Compiler.parameterize (c : Compiler) (on : Bool) : Compiler :=
  { c with settings := { c.settings with parameterizeConstants := on } }

/-- The parameter that an expression is, with the value that it carries. -/
def SqlExpr.parameter? : SqlExpr → Option (String × Option Literal)
  | .parameter name value => some (name, value)
  | _ => none

/-- The parameters in all values and conditions of all statements. -/
def CompiledQuery.parameters (q : CompiledQuery) : List (String × Option Literal) :=
  (q.statements.flatMap Statement.leaves).filterMap SqlExpr.parameter?

/-- Parameters of the same name carry the same value, or none carries any. -/
def CompiledQuery.Identifies (q : CompiledQuery) : Prop :=
  ∀ (name : String) (v w : Option Literal), (name, v) ∈ q.parameters → (name, w) ∈ q.parameters → v = w

theorem CompiledQuery.mem_parameters {q : CompiledQuery} {name : String} {value : Option Literal} :
    (name, value) ∈ q.parameters ↔ ∃ st ∈ q.statements, .parameter name value ∈ st.leaves := by
  rw [parameters, List.mem_filterMap]
  constructor
  · rintro ⟨leaf, hleaf, h⟩
    cases leaf with
    | parameter =>
      cases h
      exact List.mem_flatMap.mp hleaf
    | _ => cases h
  · exact fun h => ⟨_, List.mem_flatMap.mpr h, rfl⟩

def Build.parameterText (k : Nat) : String :=
  "p" ++ toString (k + 1)

theorem Build.parameterText_injective {k l : Nat} (h : parameterText k = parameterText l) : k = l :=
  Nat.succ.inj (eq_of_numbered h)

open Build

/-- A parameter that carries a value is numbered for that constant, and another one has the name of an external. -/
def Compiler.Named (c : Compiler) (outer : String → Prop) (constants : List Literal) : SqlExpr → Prop
  | .parameter name (some v) =>
    c.settings.parameterizeConstants ∧ ∃ k, constants[k]? = some v ∧ name = parameterText k
  | .parameter name none => outer name
  | _ => True

def Compiler.AllNamed (c : Compiler) (outer : String → Prop) (constants : List Literal)
    (leaves : List SqlExpr) : Prop :=
  ∀ leaf ∈ leaves, c.Named outer constants leaf

namespace Compiler

variable {c : Compiler} {outer : String → Prop} {constants constants' : List Literal} {leaves leaves' : List SqlExpr}

theorem Named.mono {leaf : SqlExpr} (h : c.Named outer constants leaf) (hc : constants <+: constants') :
    c.Named outer constants' leaf := by
  cases leaf with
  | parameter name value =>
    cases value with
    | none => exact h
    | some v =>
      obtain ⟨hp, k, hk, hname⟩ := h
      obtain ⟨hlt, rfl⟩ := List.getElem?_eq_some_iff.mp hk
      exact ⟨hp, k, List.prefix_iff_getElem?.mp hc k hlt, hname⟩
  | _ => trivial

theorem AllNamed.mono (h : c.AllNamed outer constants leaves) (hc : constants <+: constants') :
    c.AllNamed outer constants' leaves :=
  fun leaf hleaf => (h leaf hleaf).mono hc

theorem AllNamed.subset (h : c.AllNamed outer constants leaves) (hs : leaves' ⊆ leaves) :
    c.AllNamed outer constants leaves' :=
  fun leaf hleaf => h leaf (hs hleaf)

theorem AllNamed.append (h : c.AllNamed outer constants leaves) (h' : c.AllNamed outer constants leaves') :
    c.AllNamed outer constants (leaves ++ leaves') :=
  List.forall_mem_append.mpr ⟨h, h'⟩

theorem allNamed_singleton {leaf : SqlExpr} (h : c.Named outer constants leaf) : c.AllNamed outer constants [leaf] :=
  List.forall_mem_singleton.mpr h

theorem allNamed_flatMap {α : Type} {xs : List α} {f : α → List SqlExpr}
    (h : ∀ x ∈ xs, c.AllNamed outer constants (f x)) : c.AllNamed outer constants (xs.flatMap f) := by
  intro leaf hleaf
  obtain ⟨x, hx, hleaf⟩ := List.mem_flatMap.mp hleaf
  exact h x hx leaf hleaf

end Compiler

theorem SqlExpr.leaves_test_subset (v : SqlExpr) : v.test.leaves ⊆ v.leaves ++ [.literal (.bool true)] := by
  cases v with
  | condition p => exact List.subset_append_left _ _
  | _ => exact Predicate.leaves_equal_subset _ _

theorem SelectList.add_subset (vs : List SqlExpr) (v : SqlExpr) : (add vs v).1 ⊆ vs ++ [v] := by
  unfold add
  split
  · exact List.subset_append_left _ _
  · exact List.Subset.refl _

theorem forall_and_eq_of_forall₂ {α : Type} {P : α → Prop} {xs ys : List α}
    (h : List.Forall₂ (fun x y => P x ∧ x = y) xs ys) : (∀ x ∈ xs, P x) ∧ xs = ys := by
  obtain ⟨hP, heq⟩ := (List.forall₂_and_left xs ys).mp h
  rw [List.forall₂_eq_eq_eq] at heq
  exact ⟨hP, heq⟩

/-- A compilation and itself, with the constants that it has met so far. -/
def Reading.named (c : Compiler) (outer : String → Prop) : Reading c c where
  Ghost := List Literal
  later := (· <+: ·)
  counts constants m n := c.settings.parameterizeConstants → m = constants.length ∧ n = constants.length
  value constants v w := c.AllNamed outer constants v.leaves ∧ v = w
  condition constants p q := c.AllNamed outer constants p.leaves ∧ p = q
  selects constants vs ws := (∀ v ∈ vs, c.AllNamed outer constants v.leaves) ∧ vs = ws
  refl _ := List.prefix_rfl
  trans := List.IsPrefix.trans
  value_mono hg := And.imp_left (·.mono hg)
  condition_mono hg := And.imp_left (·.mono hg)
  selects_mono hg := And.imp_left fun h v hv => (h v hv).mono hg
  constant := by
    intro constants m n v hcounts
    unfold Compiler.constant Compiler.counted
    by_cases hp : c.settings.parameterizeConstants
    · obtain ⟨rfl, rfl⟩ := hcounts hp
      refine ⟨constants ++ [v], List.prefix_append _ _, fun _ => by simp [hp], ?_, rfl⟩
      rw [if_pos hp]
      exact Compiler.allNamed_singleton ⟨hp, constants.length, by simp, rfl⟩
    · refine ⟨constants, List.prefix_rfl, fun h => absurd h hp, ?_, by simp [hp]⟩
      rw [if_neg hp]
      exact Compiler.allNamed_singleton trivial
  column _ _ := ⟨Compiler.allNamed_singleton trivial, rfl⟩
  null := ⟨Compiler.allNamed_singleton trivial, rfl⟩
  star := ⟨Compiler.allNamed_singleton trivial, rfl⟩
  subquery _ := ⟨Compiler.allNamed_singleton trivial, rfl⟩
  arithmetic := by
    rintro constants l _ r _ op ⟨hl, rfl⟩ ⟨hr, rfl⟩
    exact ⟨hl.append hr, rfl⟩
  function := by
    intro constants vs ws name h
    obtain ⟨hvs, rfl⟩ := forall_and_eq_of_forall₂ h
    refine ⟨?_, rfl⟩
    rw [SqlExpr.leaves, SqlExpr.leavesAll_eq]
    exact Compiler.allNamed_flatMap hvs
  ofCondition := by
    rintro constants p _ ⟨h, rfl⟩
    exact ⟨h, rfl⟩
  test := by
    rintro constants v _ ⟨h, rfl⟩
    have htrue : c.AllNamed outer constants [.literal (.bool true)] := Compiler.allNamed_singleton trivial
    exact ⟨(h.append htrue).subset (SqlExpr.leaves_test_subset v), rfl⟩
  ofBool b := ⟨by simp [Compiler.AllNamed, Predicate.leaves_ofBool], rfl⟩
  comparison := by
    rintro constants l _ r _ op ⟨hl, rfl⟩ ⟨hr, rfl⟩
    exact ⟨(hl.append hr).subset (Compiler.leaves_comparison_subset op l r), rfl⟩
  negate := by
    rintro constants p _ ⟨h, rfl⟩
    exact ⟨h.subset (Predicate.leaves_negate_subset p), rfl⟩
  conjunction := by
    rintro constants p _ q _ ⟨hp, rfl⟩ ⟨hq, rfl⟩
    exact ⟨(hp.append hq).subset (Predicate.leaves_conjunction_subset p q), rfl⟩
  disjunction := by
    rintro constants p _ q _ ⟨hp, rfl⟩ ⟨hq, rfl⟩
    exact ⟨(hp.append hq).subset (Predicate.leaves_disjunction_subset p q), rfl⟩
  selected := forall_and_eq_of_forall₂
  add := by
    rintro constants vs _ v _ ⟨hvs, rfl⟩ ⟨hv, rfl⟩
    refine ⟨fun w hw => ?_, rfl⟩
    rcases List.mem_append.mp (SelectList.add_subset vs v hw) with hw | hw
    · exact hvs w hw
    · rw [List.mem_singleton.mp hw]
      exact hv

namespace Compiler

variable {c : Compiler} {outer : String → Prop} {node : Node} {fuel : Nat} {q : CompiledQuery}

theorem exists_named_of_compile (hc : c.schema.Guarded (.identical outer)) (hnode : node.Guarded (.identical outer))
    (h : c.compile fuel node = .ok q) :
    ∃ constants, ∀ st ∈ q.statements, c.AllNamed outer constants st.leaves := by
  let M : Mirror c c := .identical outer (.named c outer) hc rfl rfl rfl
    fun hname => ⟨Compiler.allNamed_singleton hname, rfl⟩
  have houtcomes := M.outcomes_identical rfl (g := ([] : List Literal)) (fun _ => ⟨rfl, rfl⟩) hnode fuel
  rw [h] at houtcomes
  cases houtcomes with
  | @compiles constants _ _ _ _ _ hstatements =>
    refine ⟨constants, fun st hst => ?_⟩
    obtain ⟨-, hselect, -, hjoins, hcondition, -, hitems⟩ := List.forall₂_same.mp hstatements st hst
    have hitems := List.forall₂_same.mp hitems
    refine ((((allNamed_flatMap hselect.1).append hcondition.1).append ?_).append ?_)
    · exact allNamed_flatMap fun j hj => (hjoins j hj).1
    · exact allNamed_flatMap fun i hi => (hitems i hi).2.1

/-- Constants are told apart by the names of their parameters, and the parameters without a value are externals. So the
parameters of a compiled query are identified by their names unless an external has the name of a constant. -/
theorem identifies_iff (hc : c.schema.Guarded (.identical outer)) (hnode : node.Guarded (.identical outer))
    (h : c.compile fuel node = .ok q) :
    (q.Identifies ↔ ∀ (name : String) (v : Literal), (name, some v) ∈ q.parameters → (name, none) ∉ q.parameters) ∧
      (∀ (name : String) (v : Literal), (name, some v) ∈ q.parameters →
        c.settings.parameterizeConstants ∧ ∃ k, name = parameterText k) ∧
      ∀ name : String, (name, none) ∈ q.parameters → outer name := by
  obtain ⟨constants, hnamed⟩ := exists_named_of_compile hc hnode h
  have hconstant : ∀ (name : String) (v : Literal), (name, some v) ∈ q.parameters →
      c.settings.parameterizeConstants ∧ ∃ k, constants[k]? = some v ∧ name = parameterText k := by
    intro name v hv
    obtain ⟨st, hst, hleaf⟩ := CompiledQuery.mem_parameters.mp hv
    exact hnamed st hst _ hleaf
  refine ⟨⟨?_, ?_⟩, ?_, ?_⟩
  · intro hid name v hv hnone
    cases hid name _ _ hv hnone
  · intro hclash name v w hv hw
    cases v with
    | none =>
      cases w with
      | none => rfl
      | some w => exact absurd hv (hclash name w hw)
    | some v =>
      cases w with
      | none => exact absurd hw (hclash name v hv)
      | some w =>
        obtain ⟨-, k, hk, hname⟩ := hconstant name v hv
        obtain ⟨-, l, hl, hname'⟩ := hconstant name w hw
        rw [parameterText_injective (hname.symm.trans hname'), hl] at hk
        exact hk.symm
  · exact fun name v hv => (hconstant name v hv).imp_right (Exists.imp fun _ => And.right)
  · intro name hnone
    obtain ⟨st, hst, hleaf⟩ := CompiledQuery.mem_parameters.mp hnone
    exact hnamed st hst _ hleaf

end Compiler

/-- The employees of a name that the caller supplies as `p1`, with number one. -/
def namedEmployee : Node :=
  (Node.source "Employee").filter ⟨["e"], .binary .and
    (.binary (.comparison .equal) (.member (.parameter "e") "name") (.external "p1"))
    (.binary (.comparison .equal) (.member (.parameter "e") "id") (.literal (.int 1)))⟩

def namedEmployeeQuery : CompiledQuery where
  statements := [{ Statement.empty with
    select := [.column ⟨0, 0⟩ (some "t1"), .column ⟨0, 1⟩ (some "t1")]
    sources := ⟨some ⟨0, "t1"⟩, []⟩
    condition := .and (.compare .equal (.column ⟨0, 1⟩ (some "t1")) (.parameter "p1" none))
      (.compare .equal (.column ⟨0, 0⟩ (some "t1")) (.parameter "p1" (some (.int 1)))) }]
  contexts := [.table none 0 ⟨"Employee", 0, "t1", []⟩, .lambda none 0 [("e", 0)]]
  root := 0
  rootContext := 0

theorem identifies_iff_namedEmployee :
    (Compiler.company.parameterize true).compile 9 namedEmployee = .ok namedEmployeeQuery ∧
      ¬ namedEmployeeQuery.Identifies := by
  have h : (Compiler.company.parameterize true).compile 9 namedEmployee = .ok namedEmployeeQuery := rfl
  refine ⟨h, fun hid => ?_⟩
  have hguarded : namedEmployee.Guarded (.identical (· = "p1")) :=
    ⟨nofun, ⟨nofun, trivial⟩, ⟨⟨trivial, rfl⟩, ⟨trivial, trivial⟩⟩, trivial⟩
  have hclash := (Compiler.identifies_iff (Schema.plain_company.guarded _) hguarded h).1.mp hid
  exact hclash "p1" (.int 1) (by decide) (by decide)

end ObjectQuery
