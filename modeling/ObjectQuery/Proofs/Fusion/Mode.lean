import ObjectQuery.Proofs.Fusion.Replace
import ObjectQuery.Proofs.Mirror.Shape

/-!
What becomes of the parts of a condition. The parameter may be bound again further in, where it stays, or it may not be
mentioned at all; elsewhere its paths are replaced.
-/
namespace ObjectQuery

inductive Mode where
  | kept | absent | fused
deriving DecidableEq

namespace Mode

variable (φ : Fusion)

/-- Below a lambda that binds the parameter it is one that is kept. -/
def under (row : Option String) : Mode → Mode
  | kept => kept
  | mode => if row = some φ.parameter then kept else mode

def expr : Mode → Expr → Expr
  | fused, e => e.fused φ
  | _, e => e

def lambda : Mode → Lambda → Lambda
  | fused, f => f.fused φ
  | _, f => f

def node : Mode → Node → Node
  | fused, n => n.fused φ
  | _, n => n

def Takes : Mode → Expr → Prop
  | kept, _ => True
  | absent, e => φ.parameter ∉ e.free
  | fused, e => e.Fusible φ

def TakesLambda : Mode → Lambda → Prop
  | kept, _ => True
  | absent, f => φ.parameter ∉ f.free
  | fused, f => f.Fusible φ

def TakesNode : Mode → Node → Prop
  | kept, _ => True
  | absent, n => φ.parameter ∉ n.free
  | fused, n => n.Fusible φ

def Tests : Mode → Expr → Prop
  | fused, e => φ.Testable e
  | _, _ => True

variable {φ} {mode : Mode} {e inner lhs rhs value d : Expr} {f member selected : Lambda} {n : Node} {path : Path}
  {name : String} {bs : List (String × Expr)}

/-- Only a path can be replaced by what is no condition. -/
theorem tests_of_pathless (h : Path.ofExpr? e = none) : mode.Tests φ e := by
  cases mode with
  | kept | absent => trivial
  | fused =>
    intro path op lhs rhs hp
    rw [h] at hp
    cases hp

/-! The parts of an expression. -/

theorem expr_convert : mode.expr φ (.convert inner) = .convert (mode.expr φ inner) := by
  cases mode <;> rfl

theorem Takes.convert (h : mode.Takes φ (.convert inner)) : mode.Takes φ inner := by
  cases mode <;> exact h

theorem expr_not : mode.expr φ (.not inner) = .not (mode.expr φ inner) := by
  cases mode <;> rfl

theorem Takes.not (h : mode.Takes φ (.not inner)) : mode.Takes φ inner ∧ mode.Tests φ inner := by
  cases mode with
  | kept => exact ⟨trivial, trivial⟩
  | absent => exact ⟨h, trivial⟩
  | fused => exact ⟨h.2, h.1⟩

theorem expr_binary {op : BinaryOperator} :
    mode.expr φ (.binary op lhs rhs) = .binary op (mode.expr φ lhs) (mode.expr φ rhs) := by
  cases mode <;> rfl

theorem Takes.binary {op : BinaryOperator} (h : mode.Takes φ (.binary op lhs rhs)) :
    mode.Takes φ lhs ∧ mode.Takes φ rhs := by
  cases mode with
  | kept => exact ⟨trivial, trivial⟩
  | absent => exact Names.of_not_mem_append h
  | fused => exact h.2

theorem Takes.tests {op : BinaryOperator} (h : mode.Takes φ (.binary op lhs rhs)) (hop : op = .and ∨ op = .or) :
    mode.Tests φ lhs ∧ mode.Tests φ rhs := by
  cases mode with
  | kept | absent => exact ⟨trivial, trivial⟩
  | fused => exact h.1 hop

theorem expr_call {function : String} {args : List Expr} :
    mode.expr φ (.call function args) = .call function (args.map (mode.expr φ)) := by
  cases mode with
  | kept | absent => exact congrArg (Expr.call function) (List.map_id' args).symm
  | fused => exact congrArg (Expr.call function) (Expr.fusedAll_eq_map args)

theorem Takes.call {function : String} {args : List Expr} (h : mode.Takes φ (.call function args)) :
    ∀ e ∈ args, mode.Takes φ e := by
  cases mode with
  | kept => exact fun _ _ => trivial
  | absent => exact fun e he hmem => h (Expr.mem_freeAll he hmem)
  | fused =>
    change Expr.FusibleAll φ args at h
    induction args with
    | nil => nofun
    | cons a args ih =>
      rw [List.forall_mem_cons]
      exact ⟨h.1, ih h.2⟩

theorem expr_aggregate {function : Aggregate} {selector : Option Lambda} :
    mode.expr φ (.aggregate function n selector) =
      .aggregate function (mode.node φ n) (selector.map (mode.lambda φ)) := by
  cases mode <;> cases selector <;> rfl

theorem Takes.aggregate {function : Aggregate} {selector : Option Lambda}
    (h : mode.Takes φ (.aggregate function n selector)) :
    mode.TakesNode φ n ∧ ∀ f, selector = some f → mode.TakesLambda φ f := by
  cases mode with
  | kept => exact ⟨trivial, fun _ _ => trivial⟩
  | absent =>
    obtain ⟨hn, hf⟩ := Names.of_not_mem_append h
    exact ⟨hn, by rintro f rfl; exact hf⟩
  | fused => exact ⟨h.1, by rintro f rfl; exact h.2⟩

theorem strip_expr (e : Expr) : (mode.expr φ e).strip = mode.expr φ e.strip := by
  cases mode with
  | kept | absent => rfl
  | fused => exact e.strip_fused

theorem Takes.strip (h : mode.Takes φ e) : mode.Takes φ e.strip := by
  induction e using Expr.strip.induct with
  | case1 inner ih => exact ih h.convert
  | case2 e hc =>
    cases e with
    | convert inner => exact (hc inner rfl).elim
    | _ => exact h

/-! Constructions. -/

variable (φ) in
def bindings (mode : Mode) (bs : List (String × Expr)) : List (String × Expr) :=
  bs.map fun b => (b.1, mode.expr φ b.2)

theorem bindings?_expr (h : e.bindings? = some bs) : (mode.expr φ e).bindings? = some (mode.bindings φ bs) := by
  cases mode with
  | kept | absent => exact h.trans (congrArg some (List.map_id' bs).symm)
  | fused => exact (Expr.bindings?_fused h).trans (congrArg some (Expr.fusedBindings_eq_map bs))

theorem map_fst_bindings (bs : List (String × Expr)) : (mode.bindings φ bs).map Prod.fst = bs.map Prod.fst := by
  simp [bindings]

theorem lookup_bindings (bs : List (String × Expr)) (name : String) :
    (mode.bindings φ bs).lookup name = (bs.lookup name).map (mode.expr φ) := by
  induction bs with
  | nil => rfl
  | cons b bs ih =>
    rw [bindings, List.map_cons, List.lookup_cons, List.lookup_cons]
    cases name == b.1 with
    | true => rfl
    | false => exact ih

theorem Takes.lookup (h : mode.Takes φ e) (hbs : e.bindings? = some bs) (hvalue : bs.lookup name = some value) :
    mode.Takes φ value := by
  have hmem := mem_of_lookup hvalue
  have h := h.strip
  rw [Expr.strip_of_bindings? hbs] at h
  cases mode with
  | kept => trivial
  | absent => exact fun hfree => h (Expr.mem_freeBindings hmem hfree)
  | fused =>
    change Expr.FusibleBindings φ bs at h
    clear hvalue hbs
    induction bs with
    | nil => cases hmem
    | cons b bs ih =>
      rcases List.mem_cons.mp hmem with rfl | hmem
      · exact h.1
      · exact ih hmem h.2

/-! Lambdas, whose parameter may hide that of the condition. -/

theorem row?_lambda (mode : Mode) (f : Lambda) : (mode.lambda φ f).row? = f.row? := by
  cases mode with
  | kept | absent => rfl
  | fused =>
    cases f
    simp only [lambda, Lambda.fused]
    split <;> rfl

theorem body_lambda (mode : Mode) (f : Lambda) : (mode.lambda φ f).body = (mode.under φ f.row?).expr φ f.body := by
  cases mode with
  | kept => rfl
  | absent =>
    simp only [under]
    split <;> rfl
  | fused =>
    cases f with
    | mk ps body =>
      change (Lambda.fused φ ⟨ps, body⟩).body = (under φ ps.head? fused).expr φ body
      by_cases hrow : ps.head? = some φ.parameter
      · simp [Lambda.fused, under, expr, hrow]
      · simp [Lambda.fused, under, expr, hrow]

theorem TakesLambda.body (h : mode.TakesLambda φ f) : (mode.under φ f.row?).Takes φ f.body := by
  cases mode with
  | kept => trivial
  | absent =>
    simp only [under]
    split
    · trivial
    · next hrow =>
      rw [TakesLambda, Lambda.free_eq] at h
      exact Expr.mem_free_of_ne hrow h
  | fused =>
    simp only [under]
    split
    · trivial
    · next hrow =>
      cases f
      exact (h.resolve_left hrow).2

/-- A lambda below which paths are replaced binds no name of what they are replaced by. -/
theorem TakesLambda.row_not_mem_names (h : fused.TakesLambda φ f) (hrow : f.row? ≠ some φ.parameter) {y : String}
    (hy : f.row? = some y) : y ∉ φ.projection.names := by
  cases f with
  | mk ps body => exact (h.resolve_left hrow).1 y (List.mem_of_mem_head? hy)

theorem row_mem_names : φ.row ∈ φ.projection.names :=
  Lambda.mem_names_of_row? φ.row?_projection

theorem root_mem_names (hr : φ.replacement? path = some d) {path' : Path} (hp : Path.ofExpr? d = some path') :
    path'.root ∈ φ.projection.names := by
  have hfree := Path.root_mem_free hp
  unfold Fusion.replacement? at hr
  split at hr
  · have hbody := Expr.free_subset_names _ (Expr.free_of_reached? hr hfree)
    generalize φ.projection = f at hbody
    cases f
    exact List.mem_append_right _ hbody
  · cases hr

/-! Queries. -/

theorem node_source (name : String) : mode.node φ (.source name) = .source name := by
  cases mode <;> rfl

theorem node_filter (n : Node) (f : Lambda) : mode.node φ (n.filter f) = (mode.node φ n).filter (mode.lambda φ f) := by
  cases mode <;> rfl

theorem node_select (n : Node) (f : Lambda) : mode.node φ (n.select f) = (mode.node φ n).select (mode.lambda φ f) := by
  cases mode <;> rfl

theorem node_setWith (n : Node) (member value : Lambda) :
    mode.node φ (n.setWith member value) = (mode.node φ n).setWith (mode.lambda φ member) (mode.lambda φ value) := by
  cases mode <;> rfl

theorem node_set (n : Node) (member : Lambda) (value : Expr) : mode.node φ (n.set member value) =
    (mode.node φ n).set (mode.lambda φ member) ((mode.under φ member.row?).expr φ value) := by
  cases mode with
  | kept => rfl
  | absent =>
    simp only [under]
    split <;> rfl
  | fused =>
    simp only [node, lambda, under, Node.set, Node.chain, Node.fused, Argument.fusedAll]
    split <;> rfl

theorem TakesNode.of_filter (h : mode.TakesNode φ (n.filter f)) :
    mode.TakesNode φ n ∧ mode.TakesLambda φ f ∧ (mode.under φ f.row?).Tests φ f.body := by
  cases mode with
  | kept => exact ⟨trivial, trivial, trivial⟩
  | absent =>
    obtain ⟨hn, hf⟩ := Names.of_not_mem_append h
    refine ⟨hn, (Names.of_not_mem_append hf).1, ?_⟩
    simp only [under]
    split <;> trivial
  | fused =>
    obtain ⟨hadmits, hn, hf, -⟩ := h
    refine ⟨hn, hf, ?_⟩
    simp only [under]
    split
    · trivial
    · next hrow => exact hadmits.test n f rfl hrow

theorem TakesNode.of_select (h : mode.TakesNode φ (n.select f)) : mode.TakesNode φ n ∧ mode.TakesLambda φ f := by
  cases mode with
  | kept => exact ⟨trivial, trivial⟩
  | absent =>
    obtain ⟨hn, hf⟩ := Names.of_not_mem_append h
    exact ⟨hn, (Names.of_not_mem_append hf).1⟩
  | fused => exact ⟨h.2.1, h.2.2.1⟩

theorem TakesNode.of_set (h : mode.TakesNode φ (n.set member value)) :
    mode.TakesNode φ n ∧ mode.TakesLambda φ member ∧ (mode.under φ member.row?).Takes φ value := by
  cases mode with
  | kept => exact ⟨trivial, trivial, trivial⟩
  | absent =>
    obtain ⟨hn, hrest⟩ := Names.of_not_mem_append h
    obtain ⟨hmember, hvalue⟩ := Names.of_not_mem_append hrest
    refine ⟨hn, hmember, ?_⟩
    simp only [under]
    split
    · trivial
    · next hrow => exact Expr.mem_free_of_ne hrow (Names.of_not_mem_append hvalue).1
  | fused =>
    obtain ⟨-, hn, hmember, hvalue, -⟩ := h
    refine ⟨hn, hmember, ?_⟩
    simp only [under]
    split
    · trivial
    · next hrow => exact hvalue.resolve_left hrow

/-- A value set as a lambda leaves the projection as it is that its parameter could be taken from. -/
theorem TakesNode.of_setWith (h : mode.TakesNode φ (n.setWith member selected)) :
    mode.TakesNode φ n ∧ mode.TakesLambda φ member ∧ mode.TakesLambda φ selected ∧
      ∀ f, n.projection? = some f → selected.row? = some φ.parameter → mode.lambda φ f = f := by
  cases mode with
  | kept => exact ⟨trivial, trivial, trivial, fun _ _ _ => rfl⟩
  | absent =>
    obtain ⟨hn, hrest⟩ := Names.of_not_mem_append h
    obtain ⟨hmember, hvalue⟩ := Names.of_not_mem_append hrest
    exact ⟨hn, hmember, (Names.of_not_mem_append hvalue).1, fun _ _ _ => rfl⟩
  | fused =>
    obtain ⟨hadmits, hn, hmember, hvalue, -⟩ := h
    exact ⟨hn, hmember, hvalue, fun f hf hrow =>
      Lambda.fused_of_not_mem_free f (hadmits.shield n member selected f rfl hf hrow)⟩

/-! Paths. -/

theorem fused_of_under {row : Option String} (h : mode.under φ row = fused) :
    mode = fused ∧ row ≠ some φ.parameter := by
  cases mode with
  | kept => cases h
  | absent =>
    simp only [under] at h
    split at h <;> cases h
  | fused =>
    simp only [under] at h
    split at h
    · cases h
    · next hrow => exact ⟨rfl, hrow⟩

/-- Paths at the row of a lambda inside stay what they are, and no other one becomes a path at that row. -/
theorem filter_path (hf : mode.TakesLambda φ f) (e : Expr) :
    (Path.ofExpr? ((mode.under φ f.row?).expr φ e)).filter (f.row? = some ·.root) =
      (Path.ofExpr? e).filter (f.row? = some ·.root) := by
  cases hmode : mode.under φ f.row? with
  | kept | absent => rfl
  | fused =>
    obtain ⟨rfl, hrow⟩ := fused_of_under hmode
    cases hp : Path.ofExpr? e with
    | none => rw [expr, Path.ofExpr?_fused hp]
    | some path =>
      by_cases hroot : path.root = φ.parameter
      · rw [expr, ← Path.ofExpr?_strip, Expr.strip_fused, Expr.fused_strip_of_path hp]
        cases hr : φ.replacement? path with
        | none => rw [Option.getD_none, Path.ofExpr?_strip, hp]
        | some d =>
          have hleft : (some path).filter (f.row? = some ·.root) = none := by simp [hroot, hrow]
          rw [Option.getD_some, hleft, Option.filter_eq_none_iff]
          intro path' hp' hrow'
          exact hf.row_not_mem_names hrow (of_decide_eq_true hrow') (root_mem_names hr hp')
      · rw [expr, Expr.fused_of_root_ne hp hroot, hp]

/-- A path at the parameter is replaced, and any other one stays. -/
theorem Takes.stays_or_fused (h : mode.Takes φ e) (hp : Path.ofExpr? e = some path) :
    (mode ≠ kept → path.root ≠ φ.parameter) ∧ mode.expr φ e = e ∨ mode = fused ∧ path.root = φ.parameter := by
  cases mode with
  | kept => exact .inl ⟨fun hkept => (hkept rfl).elim, rfl⟩
  | absent => exact .inl ⟨fun _ hroot => h (hroot ▸ Path.root_mem_free hp), rfl⟩
  | fused =>
    by_cases hroot : path.root = φ.parameter
    · exact .inr ⟨rfl, hroot⟩
    · exact .inl ⟨fun _ => hroot, Expr.fused_of_root_ne hp hroot⟩

theorem claims_node {b : Builder} (h : b.Shape n) (hb : b ≠ .update) (b' : Builder) :
    b'.claims (mode.node φ n) = b'.claims n := by
  cases h with
  | source name => rw [node_source]
  | filter source f =>
    rw [node_filter]
    cases b' <;> rfl
  | select source f =>
    rw [node_select]
    cases b' <;> rfl
  | set source member value =>
    rw [node_set]
    cases b' <;> rfl
  | setWith source member value =>
    rw [node_setWith]
    cases b' <;> rfl
  | update | updateWith | updateWhere | updateInto => exact absurd rfl hb

end Mode
end ObjectQuery
