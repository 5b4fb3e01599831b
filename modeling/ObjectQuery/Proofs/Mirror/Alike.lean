import Mathlib.Data.Option.Basic
import ObjectQuery.Compile.Compiler

/-!
Queries that are alike up to the names of their parameters. The parameter of a lambda may have another name on the
other side, and so have its occurrences there; everything else is the same. A value that is set as a lambda may have to
be shielded from the projection that it is applied to.
-/
namespace ObjectQuery

/-- Which names of the one side stand for which of the other. -/
abbrev Names := String → String → Prop

/-- Names below a lambda: its parameter stands for that of the other lambda, and hides what had the name outside. -/
def Names.under (ρ : Names) (a b : Option String) : Names := fun x y =>
  a = some x ∧ b = some y ∨ a ≠ some x ∧ b ≠ some y ∧ ρ x y

/-- What lambda parameters may stand for each other, which externals may occur, and which projections are safe
from which lambda values. -/
structure Likeness where
  binder : String → String → Prop
  outer : String → Prop
  shields : Lambda → Lambda → Prop

/-- The lambda of the projection that the rows of the query are read through last. -/
def Node.projection? : Node → Option Lambda
  | ⟨.select, [.sequence _, .lambda f]⟩ => some f
  | ⟨.filter, .sequence source :: _⟩ => source.projection?
  | ⟨.set, .sequence source :: _⟩ => source.projection?
  | _ => none
  termination_by structural node => node

/-- If the operator sets a value that is a lambda, the projection that it applies to is safe from it. -/
def Likeness.Shielded (κ : Likeness) (node : Node) : Prop :=
  ∀ (source : Node) (member value f : Lambda),
    node = source.setWith member value → source.projection? = some f → κ.shields f value

/-! Parameters that nothing binds. A plain value that is set belongs to the lambda that selects the member. -/

mutual

def Expr.free : Expr → List String
  | .parameter name => [name]
  | .member object _ => object.free
  | .convert inner | .not inner => inner.free
  | .binary _ lhs rhs => lhs.free ++ rhs.free
  | .call _ args => Expr.freeAll args
  | .construct bindings => Expr.freeBindings bindings
  | .aggregate _ source selector => source.free ++ Lambda.freeOption selector
  | .literal _ | .external _ | .null => []
  termination_by structural e => e

def Expr.freeAll : List Expr → List String
  | [] => []
  | e :: es => e.free ++ Expr.freeAll es
  termination_by structural es => es

def Expr.freeBindings : List (String × Expr) → List String
  | [] => []
  | (_, e) :: bs => e.free ++ Expr.freeBindings bs
  termination_by structural bs => bs

def Lambda.free : Lambda → List String
  | ⟨ps, body⟩ => body.free.filter (ps.head? ≠ some ·)
  termination_by structural f => f

def Lambda.freeOption : Option Lambda → List String
  | none => []
  | some f => f.free
  termination_by structural f => f

def Node.free : Node → List String
  | ⟨_, arguments⟩ => Argument.freeAll none arguments
  termination_by structural node => node

def Argument.freeAll : Option String → List Argument → List String
  | _, [] => []
  | _, .sequence node :: as => node.free ++ Argument.freeAll none as
  | _, .lambda f :: as => f.free ++ Argument.freeAll f.row? as
  | _, .entity _ :: as => Argument.freeAll none as
  | row, .value e :: as => e.free.filter (row ≠ some ·) ++ Argument.freeAll none as
  termination_by structural _ as => as

end

/-! Operators are shielded, and externals may occur, however deep in a query. -/

mutual

def Expr.Guarded (κ : Likeness) : Expr → Prop
  | .member e _ | .convert e | .not e => e.Guarded κ
  | .binary _ lhs rhs => lhs.Guarded κ ∧ rhs.Guarded κ
  | .call _ args => Expr.GuardedAll κ args
  | .construct bindings => Expr.GuardedBindings κ bindings
  | .aggregate _ source selector => source.Guarded κ ∧ Lambda.GuardedOption κ selector
  | .external name => κ.outer name
  | .parameter _ | .literal _ | .null => True
  termination_by structural e => e

def Expr.GuardedAll (κ : Likeness) : List Expr → Prop
  | [] => True
  | e :: es => e.Guarded κ ∧ Expr.GuardedAll κ es
  termination_by structural es => es

def Expr.GuardedBindings (κ : Likeness) : List (String × Expr) → Prop
  | [] => True
  | (_, e) :: bs => e.Guarded κ ∧ Expr.GuardedBindings κ bs
  termination_by structural bs => bs

def Lambda.Guarded (κ : Likeness) : Lambda → Prop
  | ⟨_, body⟩ => body.Guarded κ
  termination_by structural f => f

def Lambda.GuardedOption (κ : Likeness) : Option Lambda → Prop
  | none => True
  | some f => f.Guarded κ
  termination_by structural f => f

def Node.Guarded (κ : Likeness) : Node → Prop
  | ⟨kind, arguments⟩ => κ.Shielded ⟨kind, arguments⟩ ∧ Argument.GuardedAll κ arguments
  termination_by structural node => node

def Argument.GuardedAll (κ : Likeness) : List Argument → Prop
  | [] => True
  | .sequence node :: as => node.Guarded κ ∧ Argument.GuardedAll κ as
  | .lambda f :: as => f.Guarded κ ∧ Argument.GuardedAll κ as
  | .entity _ :: as => Argument.GuardedAll κ as
  | .value e :: as => e.Guarded κ ∧ Argument.GuardedAll κ as
  termination_by structural as => as

end

mutual

inductive Expr.Alike (κ : Likeness) : Names → Expr → Expr → Prop
  | parameter {ρ a b} (h : ρ a b) : Expr.Alike κ ρ (.parameter a) (.parameter b)
  | member {ρ a b} (object : Expr.Alike κ ρ a b) (name : String) : Expr.Alike κ ρ (.member a name) (.member b name)
  | literal {ρ} (value : Literal) : Expr.Alike κ ρ (.literal value) (.literal value)
  | «external» {ρ} (name : String) (h : κ.outer name) : Expr.Alike κ ρ (.external name) (.external name)
  | null {ρ} : Expr.Alike κ ρ .null .null
  | convert {ρ a b} (inner : Expr.Alike κ ρ a b) : Expr.Alike κ ρ (.convert a) (.convert b)
  | binary {ρ a b c d} (op : BinaryOperator) (lhs : Expr.Alike κ ρ a c) (rhs : Expr.Alike κ ρ b d) :
    Expr.Alike κ ρ (.binary op a b) (.binary op c d)
  | not {ρ a b} (inner : Expr.Alike κ ρ a b) : Expr.Alike κ ρ (.not a) (.not b)
  | call {ρ as bs} (function : String) (args : Expr.AlikeAll κ ρ as bs) :
    Expr.Alike κ ρ (.call function as) (.call function bs)
  | construct {ρ as bs} (bindings : Expr.AlikeBindings κ ρ as bs) : Expr.Alike κ ρ (.construct as) (.construct bs)
  | aggregate {ρ n m f g} (function : Aggregate) (source : Node.Alike κ ρ n m)
    (selector : Lambda.AlikeOption κ ρ f g) :
    Expr.Alike κ ρ (.aggregate function n f) (.aggregate function m g)

inductive Expr.AlikeAll (κ : Likeness) : Names → List Expr → List Expr → Prop
  | nil {ρ} : Expr.AlikeAll κ ρ [] []
  | cons {ρ a b as bs} (head : Expr.Alike κ ρ a b) (tail : Expr.AlikeAll κ ρ as bs) :
    Expr.AlikeAll κ ρ (a :: as) (b :: bs)

inductive Expr.AlikeBindings (κ : Likeness) : Names → List (String × Expr) → List (String × Expr) → Prop
  | nil {ρ} : Expr.AlikeBindings κ ρ [] []
  | cons {ρ a b as bs} (name : String) (head : Expr.Alike κ ρ a b) (tail : Expr.AlikeBindings κ ρ as bs) :
    Expr.AlikeBindings κ ρ ((name, a) :: as) ((name, b) :: bs)

inductive Lambda.Alike (κ : Likeness) : Names → Lambda → Lambda → Prop
  | intro {ρ ps qs a b} (row : Option.Rel κ.binder ps.head? qs.head?) (rest : ps.tail = qs.tail)
    (body : Expr.Alike κ (ρ.under ps.head? qs.head?) a b) : Lambda.Alike κ ρ ⟨ps, a⟩ ⟨qs, b⟩

inductive Lambda.AlikeOption (κ : Likeness) : Names → Option Lambda → Option Lambda → Prop
  | none {ρ} : Lambda.AlikeOption κ ρ none none
  | some {ρ f g} (h : Lambda.Alike κ ρ f g) : Lambda.AlikeOption κ ρ (some f) (some g)

inductive Node.Alike (κ : Likeness) : Names → Node → Node → Prop
  | intro {ρ as bs} (kind : OperatorKind) (arguments : Argument.AlikeAll κ ρ none none as bs)
    (left : κ.Shielded ⟨kind, as⟩) (right : κ.Shielded ⟨kind, bs⟩) : Node.Alike κ ρ ⟨kind, as⟩ ⟨kind, bs⟩

inductive Argument.AlikeAll (κ : Likeness) :
    Names → Option String → Option String → List Argument → List Argument → Prop
  | nil {ρ p q} : Argument.AlikeAll κ ρ p q [] []
  | sequence {ρ p q n m as bs} (head : Node.Alike κ ρ n m) (tail : Argument.AlikeAll κ ρ none none as bs) :
    Argument.AlikeAll κ ρ p q (.sequence n :: as) (.sequence m :: bs)
  | lambda {ρ p q f g as bs} (head : Lambda.Alike κ ρ f g) (tail : Argument.AlikeAll κ ρ f.row? g.row? as bs) :
    Argument.AlikeAll κ ρ p q (.lambda f :: as) (.lambda g :: bs)
  | «entity» {ρ p q as bs} (name : String) (tail : Argument.AlikeAll κ ρ none none as bs) :
    Argument.AlikeAll κ ρ p q (.entity name :: as) (.entity name :: bs)
  | value {ρ p q a b as bs} (head : Expr.Alike κ (ρ.under p q) a b) (tail : Argument.AlikeAll κ ρ none none as bs) :
    Argument.AlikeAll κ ρ p q (.value a :: as) (.value b :: bs)

end

variable {κ : Likeness} {ρ ρ' : Names} {a b : Option String} {e e' : Expr} {f g : Lambda} {node node' : Node}

/-! Only the names that are free on both sides matter. -/

theorem Names.under_imp {xs ys : List String}
    (h : ∀ x ∈ xs.filter (a ≠ some ·), ∀ y ∈ ys.filter (b ≠ some ·), ρ x y → ρ' x y) :
    ∀ x ∈ xs, ∀ y ∈ ys, ρ.under a b x y → ρ'.under a b x y := by
  rintro x hx y hy (hxy | ⟨ha, hb, hxy⟩)
  · exact .inl hxy
  · exact .inr ⟨ha, hb, h x (by simpa [hx] using ha) y (by simpa [hy] using hb) hxy⟩

theorem Names.imp_append {xs ys xs' ys' : List String} (h : ∀ x ∈ xs ++ ys, ∀ y ∈ xs' ++ ys', ρ x y → ρ' x y) :
    (∀ x ∈ xs, ∀ y ∈ xs', ρ x y → ρ' x y) ∧ ∀ x ∈ ys, ∀ y ∈ ys', ρ x y → ρ' x y :=
  ⟨fun x hx y hy => h x (List.mem_append_left _ hx) y (List.mem_append_left _ hy),
    fun x hx y hy => h x (List.mem_append_right _ hx) y (List.mem_append_right _ hy)⟩

mutual

theorem Expr.Alike.imp {ρ ρ' : Names} {e e' : Expr} (h : e.Alike κ ρ e')
    (hρ : ∀ x ∈ e.free, ∀ y ∈ e'.free, ρ x y → ρ' x y) : e.Alike κ ρ' e' := by
  cases h with
  | parameter h => exact .parameter (hρ _ (by simp [Expr.free]) _ (by simp [Expr.free]) h)
  | member object name => exact .member (object.imp hρ) name
  | literal v => exact .literal v
  | «external» name h => exact .external name h
  | null => exact .null
  | convert inner => exact .convert (inner.imp hρ)
  | not inner => exact .not (inner.imp hρ)
  | binary op lhs rhs => exact .binary op (lhs.imp (Names.imp_append hρ).1) (rhs.imp (Names.imp_append hρ).2)
  | call function args => exact .call function (args.imp hρ)
  | construct bindings => exact .construct (bindings.imp hρ)
  | aggregate function source selector =>
    exact .aggregate function (source.imp (Names.imp_append hρ).1) (selector.imp (Names.imp_append hρ).2)
  termination_by structural e

theorem Expr.AlikeAll.imp {ρ ρ' : Names} {as bs : List Expr} (h : Expr.AlikeAll κ ρ as bs)
    (hρ : ∀ x ∈ Expr.freeAll as, ∀ y ∈ Expr.freeAll bs, ρ x y → ρ' x y) : Expr.AlikeAll κ ρ' as bs := by
  cases h with
  | nil => exact .nil
  | cons head tail => exact .cons (head.imp (Names.imp_append hρ).1) (tail.imp (Names.imp_append hρ).2)
  termination_by structural as

theorem Expr.AlikeBindings.imp {ρ ρ' : Names} {as bs : List (String × Expr)} (h : Expr.AlikeBindings κ ρ as bs)
    (hρ : ∀ x ∈ Expr.freeBindings as, ∀ y ∈ Expr.freeBindings bs, ρ x y → ρ' x y) :
    Expr.AlikeBindings κ ρ' as bs := by
  cases h with
  | nil => exact .nil
  | cons name head tail =>
    exact .cons name (head.imp (Names.imp_append hρ).1) (tail.imp (Names.imp_append hρ).2)
  termination_by structural as

theorem Lambda.Alike.imp {ρ ρ' : Names} {f g : Lambda} (h : f.Alike κ ρ g)
    (hρ : ∀ x ∈ f.free, ∀ y ∈ g.free, ρ x y → ρ' x y) : f.Alike κ ρ' g := by
  cases h with
  | intro row rest body => exact .intro row rest (body.imp (Names.under_imp hρ))
  termination_by structural f

theorem Lambda.AlikeOption.imp {ρ ρ' : Names} {f g : Option Lambda} (h : Lambda.AlikeOption κ ρ f g)
    (hρ : ∀ x ∈ Lambda.freeOption f, ∀ y ∈ Lambda.freeOption g, ρ x y → ρ' x y) : Lambda.AlikeOption κ ρ' f g := by
  cases h with
  | none => exact .none
  | some h => exact .some (h.imp hρ)
  termination_by structural f

theorem Node.Alike.imp {ρ ρ' : Names} {node node' : Node} (h : node.Alike κ ρ node')
    (hρ : ∀ x ∈ node.free, ∀ y ∈ node'.free, ρ x y → ρ' x y) : node.Alike κ ρ' node' := by
  cases h with
  | intro kind arguments left right => exact .intro kind (arguments.imp hρ) left right
  termination_by structural node

theorem Argument.AlikeAll.imp {ρ ρ' : Names} {a b : Option String} {as bs : List Argument}
    (h : Argument.AlikeAll κ ρ a b as bs)
    (hρ : ∀ x ∈ Argument.freeAll a as, ∀ y ∈ Argument.freeAll b bs, ρ x y → ρ' x y) :
    Argument.AlikeAll κ ρ' a b as bs := by
  cases h with
  | nil => exact .nil
  | sequence head tail => exact .sequence (head.imp (Names.imp_append hρ).1) (tail.imp (Names.imp_append hρ).2)
  | lambda head tail => exact .lambda (head.imp (Names.imp_append hρ).1) (tail.imp (Names.imp_append hρ).2)
  | «entity» name tail => exact .entity name (tail.imp hρ)
  | value head tail =>
    exact .value (head.imp (Names.under_imp (Names.imp_append hρ).1)) (tail.imp (Names.imp_append hρ).2)
  termination_by structural as

end

theorem Expr.Alike.mono (h : e.Alike κ ρ e') (hρ : ∀ x y, ρ x y → ρ' x y) : e.Alike κ ρ' e' :=
  h.imp fun x _ y _ => hρ x y

/-! A guarded query is like itself. -/

theorem Names.under_refl {xs : List String} (h : ∀ x ∈ xs.filter (a ≠ some ·), ρ x x) :
    ∀ x ∈ xs, ρ.under a a x x := by
  intro x hx
  by_cases ha : a = some x
  · exact .inl ⟨ha, ha⟩
  · exact .inr ⟨ha, ha, h x (by simpa [hx] using ha)⟩

theorem Likeness.rel_refl (hκ : ∀ x, κ.binder x x) (a : Option String) : Option.Rel κ.binder a a := by
  cases a with
  | none => exact .none
  | some x => exact .some (hκ x)

mutual

theorem Expr.alike_refl (hκ : ∀ x, κ.binder x x) (e : Expr) {ρ : Names} (h : e.Guarded κ) (hρ : ∀ x ∈ e.free, ρ x x) :
    e.Alike κ ρ e := by
  cases e with
  | parameter name => exact .parameter (hρ name (by simp [Expr.free]))
  | member object name => exact .member (object.alike_refl hκ h hρ) name
  | literal v => exact .literal v
  | «external» name => exact .external name h
  | null => exact .null
  | convert inner => exact .convert (inner.alike_refl hκ h hρ)
  | not inner => exact .not (inner.alike_refl hκ h hρ)
  | binary op lhs rhs =>
    obtain ⟨hl, hr⟩ := List.forall_mem_append.mp hρ
    exact .binary op (lhs.alike_refl hκ h.1 hl) (rhs.alike_refl hκ h.2 hr)
  | call function args => exact .call function (Expr.alikeAll_refl hκ args h hρ)
  | construct bindings => exact .construct (Expr.alikeBindings_refl hκ bindings h hρ)
  | aggregate function source selector =>
    obtain ⟨hl, hr⟩ := List.forall_mem_append.mp hρ
    exact .aggregate function (source.alike_refl hκ h.1 hl) (Lambda.alikeOption_refl hκ selector h.2 hr)
  termination_by structural e

theorem Expr.alikeAll_refl (hκ : ∀ x, κ.binder x x) (es : List Expr) {ρ : Names} (h : Expr.GuardedAll κ es)
    (hρ : ∀ x ∈ Expr.freeAll es, ρ x x) : Expr.AlikeAll κ ρ es es := by
  cases es with
  | nil => exact .nil
  | cons e es =>
    obtain ⟨hl, hr⟩ := List.forall_mem_append.mp hρ
    exact .cons (e.alike_refl hκ h.1 hl) (Expr.alikeAll_refl hκ es h.2 hr)
  termination_by structural es

theorem Expr.alikeBindings_refl (hκ : ∀ x, κ.binder x x) (bs : List (String × Expr)) {ρ : Names}
    (h : Expr.GuardedBindings κ bs)
    (hρ : ∀ x ∈ Expr.freeBindings bs, ρ x x) : Expr.AlikeBindings κ ρ bs bs := by
  match bs with
  | [] => exact .nil
  | (name, e) :: bs =>
    obtain ⟨hl, hr⟩ := List.forall_mem_append.mp hρ
    exact .cons name (e.alike_refl hκ h.1 hl) (Expr.alikeBindings_refl hκ bs h.2 hr)
  termination_by structural bs

theorem Lambda.alike_refl (hκ : ∀ x, κ.binder x x) (f : Lambda) {ρ : Names} (h : f.Guarded κ)
    (hρ : ∀ x ∈ f.free, ρ x x) :
    f.Alike κ ρ f := by
  cases f with
  | mk ps body => exact .intro (Likeness.rel_refl hκ ps.head?) rfl (body.alike_refl hκ h (Names.under_refl hρ))
  termination_by structural f

theorem Lambda.alikeOption_refl (hκ : ∀ x, κ.binder x x) (f : Option Lambda) {ρ : Names} (h : Lambda.GuardedOption κ f)
    (hρ : ∀ x ∈ Lambda.freeOption f, ρ x x) : Lambda.AlikeOption κ ρ f f := by
  match f with
  | none => exact .none
  | some f => exact .some (f.alike_refl hκ h hρ)
  termination_by structural f

theorem Node.alike_refl (hκ : ∀ x, κ.binder x x) (node : Node) {ρ : Names} (h : node.Guarded κ)
    (hρ : ∀ x ∈ node.free, ρ x x) :
    node.Alike κ ρ node := by
  cases node with
  | mk kind arguments => exact .intro kind (Argument.alikeAll_refl hκ none arguments h.2 hρ) h.1 h.1
  termination_by structural node

theorem Argument.alikeAll_refl (hκ : ∀ x, κ.binder x x) (a : Option String) (as : List Argument) {ρ : Names}
    (h : Argument.GuardedAll κ as)
    (hρ : ∀ x ∈ Argument.freeAll a as, ρ x x) : Argument.AlikeAll κ ρ a a as as := by
  match as with
  | [] => exact .nil
  | .sequence node :: as =>
    obtain ⟨hl, hr⟩ := List.forall_mem_append.mp hρ
    exact .sequence (node.alike_refl hκ h.1 hl) (Argument.alikeAll_refl hκ none as h.2 hr)
  | .lambda f :: as =>
    obtain ⟨hl, hr⟩ := List.forall_mem_append.mp hρ
    exact .lambda (f.alike_refl hκ h.1 hl) (Argument.alikeAll_refl hκ f.row? as h.2 hr)
  | .entity name :: as => exact .entity name (Argument.alikeAll_refl hκ none as h hρ)
  | .value e :: as =>
    obtain ⟨hl, hr⟩ := List.forall_mem_append.mp hρ
    exact .value (e.alike_refl hκ h.1 (Names.under_refl hl)) (Argument.alikeAll_refl hκ none as h.2 hr)
  termination_by structural as

end

/-! Nothing can be different if no name is. -/

theorem Names.under_eq (h : ∀ x y, ρ x y → x = y) : ∀ x y, ρ.under a a x y → x = y := by
  rintro x y (⟨rfl, hy⟩ | ⟨-, -, hxy⟩)
  · exact Option.some.inj hy
  · exact h x y hxy

theorem Likeness.eq_of_rel (hκ : ∀ x y, κ.binder x y → x = y) (h : Option.Rel κ.binder a b) : a = b := by
  cases h with
  | none => rfl
  | some h => rw [hκ _ _ h]

mutual

theorem Expr.Alike.eq (hκ : ∀ x y, κ.binder x y → x = y) {ρ : Names} {e e' : Expr} (h : e.Alike κ ρ e')
    (hρ : ∀ x y, ρ x y → x = y) : e = e' := by
  cases h with
  | parameter h => rw [hρ _ _ h]
  | member object name => rw [object.eq hκ hρ]
  | literal | «external» | null => rfl
  | convert inner => rw [inner.eq hκ hρ]
  | not inner => rw [inner.eq hκ hρ]
  | binary op lhs rhs => rw [lhs.eq hκ hρ, rhs.eq hκ hρ]
  | call function args => rw [args.eq hκ hρ]
  | construct bindings => rw [bindings.eq hκ hρ]
  | aggregate function source selector => rw [source.eq hκ hρ, selector.eq hκ hρ]
  termination_by structural e

theorem Expr.AlikeAll.eq (hκ : ∀ x y, κ.binder x y → x = y) {ρ : Names} {as bs : List Expr}
    (h : Expr.AlikeAll κ ρ as bs)
    (hρ : ∀ x y, ρ x y → x = y) : as = bs := by
  cases h with
  | nil => rfl
  | cons head tail => rw [head.eq hκ hρ, tail.eq hκ hρ]
  termination_by structural as

theorem Expr.AlikeBindings.eq (hκ : ∀ x y, κ.binder x y → x = y) {ρ : Names} {as bs : List (String × Expr)}
    (h : Expr.AlikeBindings κ ρ as bs)
    (hρ : ∀ x y, ρ x y → x = y) : as = bs := by
  cases h with
  | nil => rfl
  | cons name head tail => rw [head.eq hκ hρ, tail.eq hκ hρ]
  termination_by structural as

theorem Lambda.Alike.eq (hκ : ∀ x y, κ.binder x y → x = y) {ρ : Names} {f g : Lambda} (h : f.Alike κ ρ g)
    (hρ : ∀ x y, ρ x y → x = y) : f = g := by
  cases h with
  | @intro _ ps qs _ _ row rest body =>
    have hhead := Likeness.eq_of_rel hκ row
    rw [hhead] at body
    rw [body.eq hκ (Names.under_eq hρ)]
    cases ps with
    | nil => cases qs <;> simp_all
    | cons p ps => cases qs <;> simp_all
  termination_by structural f

theorem Lambda.AlikeOption.eq (hκ : ∀ x y, κ.binder x y → x = y) {ρ : Names} {f g : Option Lambda}
    (h : Lambda.AlikeOption κ ρ f g)
    (hρ : ∀ x y, ρ x y → x = y) : f = g := by
  cases h with
  | none => rfl
  | some h => rw [h.eq hκ hρ]
  termination_by structural f

theorem Node.Alike.eq (hκ : ∀ x y, κ.binder x y → x = y) {ρ : Names} {node node' : Node} (h : node.Alike κ ρ node')
    (hρ : ∀ x y, ρ x y → x = y) :
    node = node' := by
  cases h with
  | intro kind arguments => rw [arguments.eq hκ hρ]
  termination_by structural node

theorem Argument.AlikeAll.eq (hκ : ∀ x y, κ.binder x y → x = y) {ρ : Names} {a : Option String} {as bs : List Argument}
    (h : Argument.AlikeAll κ ρ a a as bs) (hρ : ∀ x y, ρ x y → x = y) : as = bs := by
  cases h with
  | nil => rfl
  | sequence head tail => rw [head.eq hκ hρ, tail.eq hκ hρ]
  | lambda head tail =>
    obtain rfl := head.eq hκ hρ
    rw [tail.eq hκ hρ]
  | «entity» name tail => rw [tail.eq hκ hρ]
  | value head tail => rw [head.eq hκ (Names.under_eq hρ), tail.eq hκ hρ]
  termination_by structural as

end


/-! Where every projection is safe and every external may occur, every query is guarded. -/

mutual

theorem Expr.guarded_of_forall (hκ : ∀ f v, κ.shields f v) (ho : ∀ name, κ.outer name) (e : Expr) : e.Guarded κ := by
  cases e with
  | parameter | literal | null => trivial
  | «external» name => exact ho name
  | member e | convert e | not e => exact e.guarded_of_forall hκ ho
  | binary op lhs rhs => exact ⟨lhs.guarded_of_forall hκ ho, rhs.guarded_of_forall hκ ho⟩
  | call function args => exact Expr.guardedAll_of_forall hκ ho args
  | construct bindings => exact Expr.guardedBindings_of_forall hκ ho bindings
  | aggregate function source selector =>
    exact ⟨source.guarded_of_forall hκ ho, Lambda.guardedOption_of_forall hκ ho selector⟩
  termination_by structural e

theorem Expr.guardedAll_of_forall (hκ : ∀ f v, κ.shields f v) (ho : ∀ name, κ.outer name) (es : List Expr) :
    Expr.GuardedAll κ es := by
  match es with
  | [] => trivial
  | e :: es => exact ⟨e.guarded_of_forall hκ ho, Expr.guardedAll_of_forall hκ ho es⟩
  termination_by structural es

theorem Expr.guardedBindings_of_forall (hκ : ∀ f v, κ.shields f v) (ho : ∀ name, κ.outer name)
    (bs : List (String × Expr)) :
    Expr.GuardedBindings κ bs := by
  match bs with
  | [] => trivial
  | (_, e) :: bs => exact ⟨e.guarded_of_forall hκ ho, Expr.guardedBindings_of_forall hκ ho bs⟩
  termination_by structural bs

theorem Lambda.guarded_of_forall (hκ : ∀ f v, κ.shields f v) (ho : ∀ name, κ.outer name) (f : Lambda) :
    f.Guarded κ := by
  cases f with
  | mk ps body => exact body.guarded_of_forall hκ ho
  termination_by structural f

theorem Lambda.guardedOption_of_forall (hκ : ∀ f v, κ.shields f v) (ho : ∀ name, κ.outer name) (f : Option Lambda) :
    Lambda.GuardedOption κ f := by
  match f with
  | none => trivial
  | some f => exact f.guarded_of_forall hκ ho
  termination_by structural f

theorem Node.guarded_of_forall (hκ : ∀ f v, κ.shields f v) (ho : ∀ name, κ.outer name) (node : Node) :
    node.Guarded κ := by
  cases node with
  | mk kind arguments =>
    exact ⟨fun _ _ value f _ _ => hκ f value, Argument.guardedAll_of_forall hκ ho arguments⟩
  termination_by structural node

theorem Argument.guardedAll_of_forall (hκ : ∀ f v, κ.shields f v) (ho : ∀ name, κ.outer name) (as : List Argument) :
    Argument.GuardedAll κ as := by
  match as with
  | [] => trivial
  | .sequence node :: as => exact ⟨node.guarded_of_forall hκ ho, Argument.guardedAll_of_forall hκ ho as⟩
  | .lambda f :: as => exact ⟨f.guarded_of_forall hκ ho, Argument.guardedAll_of_forall hκ ho as⟩
  | .entity _ :: as => exact Argument.guardedAll_of_forall hκ ho as
  | .value e :: as => exact ⟨e.guarded_of_forall hκ ho, Argument.guardedAll_of_forall hκ ho as⟩
  termination_by structural as

end

end ObjectQuery
