import ObjectQuery.Proofs.Conversions.Erase
import ObjectQuery.Proofs.Halting.Paths
import ObjectQuery.Proofs.Mirror.Names

/-!
A condition on projected rows, stated of the rows before the projection instead: every path at its parameter is replaced
by the expression that the projection has there.
-/
namespace ObjectQuery

/-- The expression that the steps reach: constructions are entered at the first binding of a name, and a path at the row
goes on. -/
def Expr.reached? (row : String) : Expr → List String → Option Expr
  | e, [] => some e.strip
  | e, name :: rest =>
    match e.bindings? with
    | some bindings =>
      match bindings.lookup name with
      | some value => value.reached? row rest
      | none => none
    | none =>
      ((Path.ofExpr? e).filter fun path => path.root = row).map fun _ => Path.access e.strip (name :: rest)

/-- The rows of a projection are read through a parameter of a condition. -/
structure Fusion where
  projection : Lambda
  row : String
  parameter : String
  row?_projection : projection.row? = some row

namespace Fusion

/-- What takes the place of a path, if it is one at the parameter and the projection has something there. -/
def replacement? (φ : Fusion) (path : Path) : Option Expr :=
  if path.root = φ.parameter then φ.projection.body.reached? φ.row path.steps else none

/-- An arithmetic operation is a value, but states no condition: no path stands for one. -/
def Testable (φ : Fusion) (e : Expr) : Prop :=
  ∀ path op lhs rhs, Path.ofExpr? e = some path → φ.replacement? path ≠ some (.binary (.arithmetic op) lhs rhs)

/-- A filter states a condition, and the value set as a lambda does not take the parameter away from the projection that
it is set through. -/
structure Admits (φ : Fusion) (node : Node) : Prop where
  test : ∀ (source : Node) (f : Lambda), node = source.filter f → f.row? ≠ some φ.parameter → φ.Testable f.body
  shield : ∀ (source : Node) (member value f : Lambda), node = source.setWith member value →
    source.projection? = some f → value.row? = some φ.parameter → φ.parameter ∉ f.free

end Fusion

/-! The paths at the parameter replaced, as long as no lambda inside binds it again. -/

mutual

def Expr.fused (φ : Fusion) : Expr → Expr
  | .parameter name => (φ.replacement? ⟨name, []⟩).getD (.parameter name)
  | .member object name =>
    match Path.ofExpr? (.member object name) with
    | some path => (φ.replacement? path).getD (.member object name)
    | none => .member (object.fused φ) name
  | .convert inner => .convert (inner.fused φ)
  | .not inner => .not (inner.fused φ)
  | .binary op lhs rhs => .binary op (lhs.fused φ) (rhs.fused φ)
  | .call function args => .call function (Expr.fusedAll φ args)
  | .construct bindings => .construct (Expr.fusedBindings φ bindings)
  | .aggregate function source selector => .aggregate function (source.fused φ) (Lambda.fusedOption φ selector)
  | .literal v => .literal v
  | .external name => .external name
  | .null => .null
  termination_by structural e => e

def Expr.fusedAll (φ : Fusion) : List Expr → List Expr
  | [] => []
  | e :: es => e.fused φ :: Expr.fusedAll φ es
  termination_by structural es => es

def Expr.fusedBindings (φ : Fusion) : List (String × Expr) → List (String × Expr)
  | [] => []
  | (name, e) :: bs => (name, e.fused φ) :: Expr.fusedBindings φ bs
  termination_by structural bs => bs

def Lambda.fused (φ : Fusion) : Lambda → Lambda
  | ⟨ps, body⟩ => if ps.head? = some φ.parameter then ⟨ps, body⟩ else ⟨ps, body.fused φ⟩
  termination_by structural f => f

def Lambda.fusedOption (φ : Fusion) : Option Lambda → Option Lambda
  | none => none
  | some f => some (f.fused φ)
  termination_by structural f => f

def Node.fused (φ : Fusion) : Node → Node
  | ⟨kind, arguments⟩ => ⟨kind, Argument.fusedAll φ none arguments⟩
  termination_by structural node => node

/-- A plain value after a lambda belongs to that lambda, whose row parameter comes along. -/
def Argument.fusedAll (φ : Fusion) : Option String → List Argument → List Argument
  | _, [] => []
  | _, .sequence node :: as => .sequence (node.fused φ) :: Argument.fusedAll φ none as
  | _, .lambda f :: as => .lambda (f.fused φ) :: Argument.fusedAll φ f.row? as
  | _, .entity name :: as => .entity name :: Argument.fusedAll φ none as
  | row, .value e :: as => .value (if row = some φ.parameter then e else e.fused φ) :: Argument.fusedAll φ none as
  termination_by structural _ as => as

end

/-! Where paths may be replaced: lambdas inside bind no name of the projection, conditions get conditions, and no set
takes the parameter for its own. -/

mutual

def Expr.Fusible (φ : Fusion) : Expr → Prop
  | .member e _ | .convert e => e.Fusible φ
  | .not e => φ.Testable e ∧ e.Fusible φ
  | .binary op lhs rhs =>
    (op = .and ∨ op = .or → φ.Testable lhs ∧ φ.Testable rhs) ∧ lhs.Fusible φ ∧ rhs.Fusible φ
  | .call _ args => Expr.FusibleAll φ args
  | .construct bindings => Expr.FusibleBindings φ bindings
  | .aggregate _ source selector => source.Fusible φ ∧ Lambda.FusibleOption φ selector
  | .parameter _ | .literal _ | .external _ | .null => True
  termination_by structural e => e

def Expr.FusibleAll (φ : Fusion) : List Expr → Prop
  | [] => True
  | e :: es => e.Fusible φ ∧ Expr.FusibleAll φ es
  termination_by structural es => es

def Expr.FusibleBindings (φ : Fusion) : List (String × Expr) → Prop
  | [] => True
  | (_, e) :: bs => e.Fusible φ ∧ Expr.FusibleBindings φ bs
  termination_by structural bs => bs

def Lambda.Fusible (φ : Fusion) : Lambda → Prop
  | ⟨ps, body⟩ => ps.head? = some φ.parameter ∨ (∀ y ∈ ps, y ∉ φ.projection.names) ∧ body.Fusible φ
  termination_by structural f => f

def Lambda.FusibleOption (φ : Fusion) : Option Lambda → Prop
  | none => True
  | some f => f.Fusible φ
  termination_by structural f => f

def Node.Fusible (φ : Fusion) : Node → Prop
  | ⟨kind, arguments⟩ => φ.Admits ⟨kind, arguments⟩ ∧ Argument.FusibleAll φ none arguments
  termination_by structural node => node

def Argument.FusibleAll (φ : Fusion) : Option String → List Argument → Prop
  | _, [] => True
  | _, .sequence node :: as => node.Fusible φ ∧ Argument.FusibleAll φ none as
  | _, .lambda f :: as => f.Fusible φ ∧ Argument.FusibleAll φ f.row? as
  | _, .entity _ :: as => Argument.FusibleAll φ none as
  | row, .value e :: as => (row = some φ.parameter ∨ e.Fusible φ) ∧ Argument.FusibleAll φ none as
  termination_by structural _ as => as

end

variable {φ : Fusion} {e d : Expr} {path : Path}

/-! Paths, through conversions. -/

theorem Path.read_strip (e : Expr) (steps : List String) : Path.read e.strip steps = Path.read e steps := by
  induction e using Expr.strip.induct with
  | case1 inner ih => exact ih
  | case2 e h =>
    cases e with
    | convert inner => exact (h inner rfl).elim
    | _ => rfl

theorem Path.ofExpr?_strip (e : Expr) : Path.ofExpr? e.strip = Path.ofExpr? e :=
  Path.read_strip e []

theorem Path.ofExpr?_access {object : Expr} {path : Path} (h : Path.ofExpr? object = some path) (steps : List String) :
    Path.ofExpr? (Path.access object steps) = some ⟨path.root, path.steps ++ steps⟩ := by
  -- the steps read so far come after those of the object
  have hread : ∀ (e : Expr) (rest : List String) (path : Path), Path.read e rest = some path → ∀ steps,
      Path.read e (rest ++ steps) = some ⟨path.root, path.steps ++ steps⟩ := by
    intro e rest
    induction e, rest using Path.read.induct with
    | case1 name rest =>
      rintro path ⟨⟩ steps
      rfl
    | case2 object name rest ih => exact fun path hpath steps => ih path hpath steps
    | case3 inner rest ih => exact fun path hpath steps => ih path hpath steps
    | case4 e rest hp hm hc =>
      intro path hpath
      unfold Path.read at hpath
      split at hpath
      · exact (hp _ rfl).elim
      · exact (hm _ _ rfl).elim
      · exact (hc _ rfl).elim
      · cases hpath
  rw [Path.ofExpr?, Path.read_access, List.append_nil]
  simpa using hread object [] path h steps

theorem Expr.strip_access (object : Expr) (name : String) (steps : List String) :
    (Path.access object (name :: steps)).strip = Path.access object (name :: steps) := by
  induction steps generalizing object name with
  | nil => rfl
  | cons next steps ih => exact ih (.member object name) next

/-- Whether an expression is a path does not depend on the steps that come after it. -/
theorem Path.read_eq_none {steps : List String} (h : Path.read e steps = none) (more : List String) :
    Path.read e more = none := by
  induction e, steps using Path.read.induct generalizing more with
  | case1 name steps => cases h
  | case2 object name steps ih => exact ih h (name :: more)
  | case3 inner steps ih => exact ih h more
  | case4 e steps hp hm hc =>
    cases e with
    | parameter name => exact (hp _ rfl).elim
    | member object name => exact (hm _ _ rfl).elim
    | convert inner => exact (hc _ rfl).elim
    | _ => rfl

theorem Path.eq_none_of_bindings? {bs : List (String × Expr)} (h : e.bindings? = some bs) : Path.ofExpr? e = none := by
  rw [← Path.ofExpr?_strip, Expr.strip_of_bindings? h]
  rfl

theorem Expr.bindings?_strip (e : Expr) : e.strip.bindings? = e.bindings? := by
  rw [Expr.bindings?, Expr.bindings?, e.strip_strip]

/-- What is reached has no conversion around it. -/
theorem Expr.strip_of_reached? {row : String} {steps : List String} (h : e.reached? row steps = some d) :
    d.strip = d := by
  induction steps generalizing e with
  | nil =>
    cases h
    exact e.strip_strip
  | cons name rest ih =>
    unfold Expr.reached? at h
    split at h
    · split at h
      · exact ih h
      · cases h
    · obtain ⟨_, -, rfl⟩ := Option.map_eq_some_iff.mp h
      exact Expr.strip_access _ _ _

/-- A path at the row goes on with all the steps. -/
theorem Expr.reached?_of_path {row : String} (h : Path.ofExpr? e = some path) (hroot : path.root = row)
    (steps : List String) : e.reached? row steps = some (Path.access e.strip steps) := by
  cases steps with
  | nil => rfl
  | cons name rest =>
    have hnone : e.bindings? = none := by
      cases hb : e.bindings? with
      | none => rfl
      | some bs =>
        rw [Path.eq_none_of_bindings? hb] at h
        cases h
    simp [reached?, hnone, h, hroot]

theorem Expr.free_access (object : Expr) (steps : List String) : (Path.access object steps).free = object.free := by
  induction steps generalizing object with
  | nil => rfl
  | cons name steps ih => exact ih (.member object name)

/-- What is reached mentions nothing but what the whole does. -/
theorem Expr.free_of_reached? {row : String} {steps : List String} (h : e.reached? row steps = some d) :
    d.free ⊆ e.free := by
  induction steps generalizing e with
  | nil =>
    cases h
    rw [e.free_strip]
    exact List.Subset.refl _
  | cons name rest ih =>
    unfold Expr.reached? at h
    split at h
    · next bs hbs =>
      split at h
      · next value hvalue =>
        refine List.Subset.trans (ih h) ?_
        rw [← Expr.free_bindings? hbs]
        exact Expr.mem_freeBindings (mem_of_lookup hvalue)
      · cases h
    · obtain ⟨_, -, rfl⟩ := Option.map_eq_some_iff.mp h
      rw [Expr.free_access, e.free_strip]
      exact List.Subset.refl _

/-! Expressions with their paths replaced. -/

theorem Fusion.replacement?_eq_none (h : path.root ≠ φ.parameter) : φ.replacement? path = none :=
  if_neg h

theorem Expr.fusedAll_eq_map (es : List Expr) : Expr.fusedAll φ es = es.map (Expr.fused φ) := by
  induction es with
  | nil => rfl
  | cons e es ih => rw [Expr.fusedAll, ih, List.map_cons]

theorem Expr.fusedBindings_eq_map (bs : List (String × Expr)) :
    Expr.fusedBindings φ bs = bs.map fun b => (b.1, b.2.fused φ) := by
  induction bs with
  | nil => rfl
  | cons b bs ih => rw [Expr.fusedBindings, ih, List.map_cons]

theorem Fusion.strip_of_replacement? (h : φ.replacement? path = some d) : d.strip = d := by
  unfold replacement? at h
  split at h
  · exact Expr.strip_of_reached? h
  · cases h

/-- A path gets its replacement, or stays as it is. -/
theorem Expr.fused_strip_of_path (h : Path.ofExpr? e = some path) :
    e.strip.fused φ = (φ.replacement? path).getD e.strip := by
  rw [← Path.ofExpr?_strip] at h
  cases hd : e.strip with
  | parameter name =>
    rw [hd] at h
    cases h
    rfl
  | member object name =>
    rw [hd] at h
    rw [Expr.fused, h]
  | convert inner => exact (Expr.strip_ne_convert e inner hd).elim
  | _ =>
    rw [hd] at h
    cases h

theorem Expr.strip_getD {replaced : Option Expr} (h : ∀ d, replaced = some d → d.strip = d) (he : e.strip = e) :
    (replaced.getD e).strip = replaced.getD e := by
  cases replaced with
  | none => exact he
  | some d => exact h d rfl

theorem Expr.strip_fused (e : Expr) : (e.fused φ).strip = e.strip.fused φ := by
  induction e using Expr.strip.induct with
  | case1 inner ih => exact ih
  | case2 e h =>
    have hself : e.strip = e := by
      cases e with
      | convert inner => exact (h inner rfl).elim
      | _ => rfl
    rw [hself]
    cases e with
    | convert inner => exact (h inner rfl).elim
    | parameter name => exact Expr.strip_getD (fun _ => Fusion.strip_of_replacement?) rfl
    | member object name =>
      unfold Expr.fused
      split
      · exact Expr.strip_getD (fun _ => Fusion.strip_of_replacement?) rfl
      · rfl
    | _ => rfl

/-- Other paths stay as they are. -/
theorem Expr.fused_of_root_ne (h : Path.ofExpr? e = some path) (hroot : path.root ≠ φ.parameter) :
    e.fused φ = e := by
  induction e using Expr.strip.induct with
  | case1 inner ih => rw [Expr.fused, ih h]
  | case2 e hc =>
    cases e with
    | convert inner => exact (hc inner rfl).elim
    | parameter name =>
      cases h
      rw [Expr.fused, Fusion.replacement?_eq_none hroot, Option.getD_none]
    | member object name => simp only [Expr.fused, h, Fusion.replacement?_eq_none hroot, Option.getD_none]
    | _ => cases h

theorem Expr.bindings?_fused {bs : List (String × Expr)} (h : e.bindings? = some bs) :
    (e.fused φ).bindings? = some (Expr.fusedBindings φ bs) := by
  rw [← Expr.bindings?_strip, Expr.strip_fused, Expr.strip_of_bindings? h]
  rfl

/-- What is no path does not become one. -/
theorem Path.ofExpr?_fused (h : Path.ofExpr? e = none) : Path.ofExpr? (e.fused φ) = none := by
  have hread : ∀ (e : Expr) (steps : List String), Path.read e steps = none → ∀ more,
      Path.read (e.fused φ) more = none := by
    intro e steps
    induction e, steps using Path.read.induct with
    | case1 name steps => rintro ⟨⟩
    | case2 object name steps ih =>
      intro h more
      have hnone : Path.ofExpr? (.member object name) = none := Path.read_eq_none h []
      simp only [Expr.fused, hnone]
      exact ih h (name :: more)
    | case3 inner steps ih => exact ih
    | case4 e steps hp hm hc =>
      cases e with
      | parameter name => exact (hp _ rfl).elim
      | member object name => exact (hm _ _ rfl).elim
      | convert inner => exact (hc _ rfl).elim
      | _ => exact fun _ _ => rfl
  exact hread e [] h []

/-! A query that does not mention the parameter stays as it is. -/

theorem Expr.mem_free_of_ne {xs : List String} {row : Option String} {x : String} (hrow : row ≠ some x)
    (h : x ∉ xs.filter (row ≠ some ·)) : x ∉ xs :=
  fun hx => h (List.mem_filter.mpr ⟨hx, decide_eq_true hrow⟩)

mutual

theorem Expr.fused_of_not_mem_free (e : Expr) (h : φ.parameter ∉ e.free) : e.fused φ = e := by
  cases e with
  | parameter name =>
    exact Expr.fused_of_root_ne rfl fun hname => h (by simp [Expr.free, ← hname])
  | member object name =>
    cases hp : Path.ofExpr? (.member object name) with
    | some path =>
      exact Expr.fused_of_root_ne hp fun hroot => h (hroot ▸ Path.root_mem_free hp)
    | none => simp only [Expr.fused, hp, object.fused_of_not_mem_free h]
  | convert inner => rw [Expr.fused, inner.fused_of_not_mem_free h]
  | not inner => rw [Expr.fused, inner.fused_of_not_mem_free h]
  | binary op lhs rhs =>
    obtain ⟨hl, hr⟩ := Names.of_not_mem_append h
    rw [Expr.fused, lhs.fused_of_not_mem_free hl, rhs.fused_of_not_mem_free hr]
  | call function args => rw [Expr.fused, Expr.fusedAll_of_not_mem_free args h]
  | construct bindings => rw [Expr.fused, Expr.fusedBindings_of_not_mem_free bindings h]
  | aggregate function source selector =>
    obtain ⟨hl, hr⟩ := Names.of_not_mem_append h
    rw [Expr.fused, source.fused_of_not_mem_free hl, Lambda.fusedOption_of_not_mem_free selector hr]
  | literal | «external» | null => rfl
  termination_by structural e

theorem Expr.fusedAll_of_not_mem_free (es : List Expr) (h : φ.parameter ∉ Expr.freeAll es) :
    Expr.fusedAll φ es = es := by
  match es with
  | [] => rfl
  | e :: es =>
    obtain ⟨hl, hr⟩ := Names.of_not_mem_append h
    rw [Expr.fusedAll, e.fused_of_not_mem_free hl, Expr.fusedAll_of_not_mem_free es hr]
  termination_by structural es

theorem Expr.fusedBindings_of_not_mem_free (bs : List (String × Expr)) (h : φ.parameter ∉ Expr.freeBindings bs) :
    Expr.fusedBindings φ bs = bs := by
  match bs with
  | [] => rfl
  | (_, e) :: bs =>
    obtain ⟨hl, hr⟩ := Names.of_not_mem_append h
    rw [Expr.fusedBindings, e.fused_of_not_mem_free hl, Expr.fusedBindings_of_not_mem_free bs hr]
  termination_by structural bs

theorem Lambda.fused_of_not_mem_free (f : Lambda) (h : φ.parameter ∉ f.free) : f.fused φ = f := by
  cases f with
  | mk ps body =>
    rw [Lambda.fused]
    split
    · rfl
    · next hrow => rw [body.fused_of_not_mem_free (Expr.mem_free_of_ne hrow h)]
  termination_by structural f

theorem Lambda.fusedOption_of_not_mem_free (f : Option Lambda) (h : φ.parameter ∉ Lambda.freeOption f) :
    Lambda.fusedOption φ f = f := by
  match f with
  | none => rfl
  | some f => rw [Lambda.fusedOption, f.fused_of_not_mem_free h]
  termination_by structural f

theorem Node.fused_of_not_mem_free (node : Node) (h : φ.parameter ∉ node.free) : node.fused φ = node := by
  cases node with
  | mk kind arguments => rw [Node.fused, Argument.fusedAll_of_not_mem_free none arguments h]
  termination_by structural node

theorem Argument.fusedAll_of_not_mem_free (row : Option String) (as : List Argument)
    (h : φ.parameter ∉ Argument.freeAll row as) : Argument.fusedAll φ row as = as := by
  match as with
  | [] => rfl
  | .sequence node :: as =>
    obtain ⟨hl, hr⟩ := Names.of_not_mem_append h
    rw [Argument.fusedAll, node.fused_of_not_mem_free hl, Argument.fusedAll_of_not_mem_free none as hr]
  | .lambda f :: as =>
    obtain ⟨hl, hr⟩ := Names.of_not_mem_append h
    rw [Argument.fusedAll, f.fused_of_not_mem_free hl, Argument.fusedAll_of_not_mem_free f.row? as hr]
  | .entity name :: as => rw [Argument.fusedAll, Argument.fusedAll_of_not_mem_free none as h]
  | .value e :: as =>
    obtain ⟨hl, hr⟩ := Names.of_not_mem_append h
    rw [Argument.fusedAll, Argument.fusedAll_of_not_mem_free none as hr]
    split
    · rfl
    · next hrow => rw [e.fused_of_not_mem_free (Expr.mem_free_of_ne hrow hl)]
  termination_by structural as

end

end ObjectQuery
