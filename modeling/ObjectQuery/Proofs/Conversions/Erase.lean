import Mathlib.Logic.Basic
import ObjectQuery.Compile.Rows

/-!
Queries and mappings without their conversions. Two queries are the same up to conversions if they are the same without
them; they show a compilation the same paths, bindings and shapes.
-/
namespace ObjectQuery

mutual

def Expr.erase : Expr → Expr
  | .parameter name => .parameter name
  | .member object name => .member object.erase name
  | .literal value => .literal value
  | .external name => .external name
  | .null => .null
  | .convert inner => inner.erase
  | .binary op lhs rhs => .binary op lhs.erase rhs.erase
  | .not inner => .not inner.erase
  | .call function args => .call function (Expr.eraseAll args)
  | .construct bindings => .construct (Expr.eraseBindings bindings)
  | .aggregate function source selector => .aggregate function source.erase (Lambda.eraseOption selector)
  termination_by structural e => e

def Expr.eraseAll : List Expr → List Expr
  | [] => []
  | e :: es => e.erase :: Expr.eraseAll es
  termination_by structural es => es

def Expr.eraseBindings : List (String × Expr) → List (String × Expr)
  | [] => []
  | (name, e) :: bs => (name, e.erase) :: Expr.eraseBindings bs
  termination_by structural bs => bs

def Lambda.erase : Lambda → Lambda
  | ⟨parameters, body⟩ => ⟨parameters, body.erase⟩
  termination_by structural f => f

def Lambda.eraseOption : Option Lambda → Option Lambda
  | none => none
  | some f => some f.erase
  termination_by structural f => f

def Node.erase : Node → Node
  | ⟨kind, arguments⟩ => ⟨kind, Argument.eraseAll arguments⟩
  termination_by structural node => node

def Argument.erase : Argument → Argument
  | .sequence node => .sequence node.erase
  | .lambda f => .lambda f.erase
  | .entity name => .entity name
  | .value e => .value e.erase
  termination_by structural a => a

def Argument.eraseAll : List Argument → List Argument
  | [] => []
  | a :: as => a.erase :: Argument.eraseAll as
  termination_by structural as => as

end

/-- Only the lambdas of projections hold expressions. -/
def Context.erase : Context → Context
  | .projection parent statement sequence f scalar => .projection parent statement sequence f.erase scalar
  | d => d

def Member.erase : Member → Member
  | .computed f => .computed f.erase
  | m => m

/-- Other items under the same keys. -/
def Keyed.map {α : Type} {key : α → String} (f : α → α) (hf : ∀ x, key (f x) = key x) (xs : Keyed key) :
    Keyed key where
  items := xs.items.map f
  distinct := by
    have hkeys : (xs.items.map f).map key = xs.items.map key := by simp [hf]
    rw [hkeys]
    exact xs.distinct

def Entity.erase (e : Entity) : Entity :=
  { e with members := e.members.map (Prod.map id Member.erase) fun _ => rfl }

def Mapping.erase (m : Mapping) : Mapping :=
  m.map Entity.erase fun _ => rfl

def Compiler.erase (c : Compiler) : Compiler :=
  { c with schema := { c.schema with mapping := c.schema.mapping.erase } }

def BuildState.erase (s : BuildState) : BuildState :=
  { s with contexts := s.contexts.map Context.erase }

/-! Lists are erased item by item. -/

theorem Expr.eraseAll_eq_map (es : List Expr) : Expr.eraseAll es = es.map Expr.erase := by
  induction es with
  | nil => rfl
  | cons e es ih => rw [eraseAll, ih, List.map_cons]

theorem Expr.eraseBindings_eq_map (bs : List (String × Expr)) :
    Expr.eraseBindings bs = bs.map (Prod.map id Expr.erase) := by
  induction bs with
  | nil => rfl
  | cons b bs ih => rw [eraseBindings, ih, List.map_cons, Prod.map, id]

theorem Lambda.eraseOption_eq_map (f : Option Lambda) : Lambda.eraseOption f = f.map Lambda.erase := by
  cases f <;> rfl

theorem Argument.eraseAll_eq_map (as : List Argument) : Argument.eraseAll as = as.map Argument.erase := by
  induction as with
  | nil => rfl
  | cons a as ih => rw [eraseAll, ih, List.map_cons]

@[simp] theorem Lambda.row?_erase (f : Lambda) : f.erase.row? = f.row? := by
  cases f
  rfl

@[simp] theorem Lambda.body_erase (f : Lambda) : f.erase.body = f.body.erase := by
  cases f
  rfl

@[simp] theorem Node.kind_erase (node : Node) : node.erase.kind = node.kind := by
  cases node
  rfl

@[simp] theorem Node.arguments_erase (node : Node) : node.erase.arguments = node.arguments.map Argument.erase := by
  cases node
  exact Argument.eraseAll_eq_map _

@[simp] theorem Context.parent_erase (d : Context) : d.erase.parent = d.parent := by
  cases d <;> rfl

@[simp] theorem Context.binding?_erase (name : String) (d : Context) : d.erase.binding? name = d.binding? name := by
  cases d <;> rfl

theorem Context.erase_withParent (p : Option ContextId) (d : Context) :
    (d.withParent p).erase = d.erase.withParent p := by
  cases d <;> rfl

theorem Context.erase_follow (name : String) (rows : ContextId) (d : Context) :
    (d.follow name rows).erase = d.erase.follow name rows := by
  cases d <;> rfl

namespace Keyed

variable {α : Type} {key : α → String} {f : α → α}

theorem find?_map (hf : ∀ x, key (f x) = key x) (xs : Keyed key) (k : String) :
    (xs.map f hf).find? k = (xs.find? k).map f := by
  simp only [find?, map, List.find?_map, Function.comp_def, hf]

end Keyed

namespace Expr

theorem erase_strip (e : Expr) : e.strip.erase = e.erase := by
  induction e using Expr.strip.induct with
  | case1 inner ih => rwa [strip, erase]
  | case2 e h => rw [strip]; exact h

theorem strip_ne_convert (e inner : Expr) : e.strip ≠ .convert inner := by
  induction e using Expr.strip.induct with
  | case1 e ih => rwa [strip]
  | case2 e h =>
    rw [strip]
    · exact h inner
    · exact h

end Expr

/-! Once there are no conversions left, nothing changes. -/

mutual

theorem Expr.erase_erase (e : Expr) : e.erase.erase = e.erase := by
  cases e with
  | parameter | literal | «external» | null => rfl
  | member object name => exact congrArg (Expr.member · name) object.erase_erase
  | convert inner => exact inner.erase_erase
  | binary op lhs rhs => exact congrArg₂ (Expr.binary op) lhs.erase_erase rhs.erase_erase
  | not inner => exact congrArg Expr.not inner.erase_erase
  | call function args => exact congrArg (Expr.call function) (Expr.eraseAll_eraseAll args)
  | construct bindings => exact congrArg Expr.construct (Expr.eraseBindings_eraseBindings bindings)
  | aggregate function source selector =>
    exact congrArg₂ (Expr.aggregate function) source.erase_erase (Lambda.eraseOption_eraseOption selector)
  termination_by structural e

theorem Expr.eraseAll_eraseAll (es : List Expr) : Expr.eraseAll (Expr.eraseAll es) = Expr.eraseAll es := by
  match es with
  | [] => rfl
  | e :: es => exact congrArg₂ List.cons e.erase_erase (Expr.eraseAll_eraseAll es)
  termination_by structural es

theorem Expr.eraseBindings_eraseBindings (bs : List (String × Expr)) :
    Expr.eraseBindings (Expr.eraseBindings bs) = Expr.eraseBindings bs := by
  match bs with
  | [] => rfl
  | (name, e) :: bs =>
    exact congrArg₂ (fun e bs => (name, e) :: bs) e.erase_erase (Expr.eraseBindings_eraseBindings bs)
  termination_by structural bs

theorem Lambda.erase_erase (f : Lambda) : f.erase.erase = f.erase := by
  match f with
  | ⟨parameters, body⟩ => exact congrArg (Lambda.mk parameters) body.erase_erase
  termination_by structural f

theorem Lambda.eraseOption_eraseOption (f : Option Lambda) :
    Lambda.eraseOption (Lambda.eraseOption f) = Lambda.eraseOption f := by
  match f with
  | none => rfl
  | some f => exact congrArg some f.erase_erase
  termination_by structural f

theorem Node.erase_erase (node : Node) : node.erase.erase = node.erase := by
  match node with
  | ⟨kind, arguments⟩ => exact congrArg (Node.mk kind) (Argument.eraseAll_eraseAll arguments)
  termination_by structural node

theorem Argument.erase_erase (a : Argument) : a.erase.erase = a.erase := by
  match a with
  | .sequence node => exact congrArg Argument.sequence node.erase_erase
  | .lambda f => exact congrArg Argument.lambda f.erase_erase
  | .entity name => rfl
  | .value e => exact congrArg Argument.value e.erase_erase
  termination_by structural a

theorem Argument.eraseAll_eraseAll (as : List Argument) :
    Argument.eraseAll (Argument.eraseAll as) = Argument.eraseAll as := by
  match as with
  | [] => rfl
  | a :: as => exact congrArg₂ List.cons a.erase_erase (Argument.eraseAll_eraseAll as)
  termination_by structural as

end

theorem Member.erase_erase (m : Member) : m.erase.erase = m.erase := by
  cases m with
  | computed f => exact congrArg Member.computed f.erase_erase
  | column | association => rfl

namespace Keyed

variable {α : Type} {key : α → String} {f : α → α}

theorem map_map_of_idempotent (hf : ∀ x, key (f x) = key x) (h : ∀ x, f (f x) = f x) (xs : Keyed key) :
    (xs.map f hf).map f hf = xs.map f hf := by
  simp only [map, List.map_map, Function.comp_def, h]

end Keyed

theorem Entity.erase_erase (e : Entity) : e.erase.erase = e.erase := by
  unfold erase
  rw [Keyed.map_map_of_idempotent]
  exact fun m => congrArg (Prod.mk m.1) m.2.erase_erase

theorem Mapping.erase_erase (m : Mapping) : m.erase.erase = m.erase :=
  Keyed.map_map_of_idempotent _ Entity.erase_erase m

theorem Compiler.erase_erase (c : Compiler) : c.erase.erase = c.erase :=
  congrArg (fun m => { c with schema := ⟨c.schema.database, m⟩ }) c.schema.mapping.erase_erase

end ObjectQuery
