import ObjectQuery.Proofs.Mirror.Names
import ObjectQuery.Proofs.Mirror.Covers

/-!
Renaming of the parameter of a lambda, together with all that it binds. A query whose projections are safe from the
values set through them is compiled as before.
-/
namespace ObjectQuery

/-! The occurrences of a parameter that nothing inside binds, renamed. -/

mutual

def Expr.renamed (x y : String) : Expr → Expr
  | .parameter name => .parameter (if name = x then y else name)
  | .member object name => .member (object.renamed x y) name
  | .convert inner => .convert (inner.renamed x y)
  | .not inner => .not (inner.renamed x y)
  | .binary op lhs rhs => .binary op (lhs.renamed x y) (rhs.renamed x y)
  | .call function args => .call function (Expr.renamedAll x y args)
  | .construct bindings => .construct (Expr.renamedBindings x y bindings)
  | .aggregate function source selector =>
    .aggregate function (source.renamed x y) (Lambda.renamedOption x y selector)
  | .literal v => .literal v
  | .external name => .external name
  | .null => .null
  termination_by structural e => e

def Expr.renamedAll (x y : String) : List Expr → List Expr
  | [] => []
  | e :: es => e.renamed x y :: Expr.renamedAll x y es
  termination_by structural es => es

def Expr.renamedBindings (x y : String) : List (String × Expr) → List (String × Expr)
  | [] => []
  | (name, e) :: bs => (name, e.renamed x y) :: Expr.renamedBindings x y bs
  termination_by structural bs => bs

def Lambda.renamed (x y : String) : Lambda → Lambda
  | ⟨ps, body⟩ => if ps.head? = some x then ⟨ps, body⟩ else ⟨ps, body.renamed x y⟩
  termination_by structural f => f

def Lambda.renamedOption (x y : String) : Option Lambda → Option Lambda
  | none => none
  | some f => some (f.renamed x y)
  termination_by structural f => f

def Node.renamed (x y : String) : Node → Node
  | ⟨kind, arguments⟩ => ⟨kind, Argument.renamedAll x y none arguments⟩
  termination_by structural node => node

/-- A plain value after a lambda belongs to that lambda, whose row parameter comes along. -/
def Argument.renamedAll (x y : String) : Option String → List Argument → List Argument
  | _, [] => []
  | _, .sequence node :: as => .sequence (node.renamed x y) :: Argument.renamedAll x y none as
  | _, .lambda f :: as => .lambda (f.renamed x y) :: Argument.renamedAll x y f.row? as
  | _, .entity name :: as => .entity name :: Argument.renamedAll x y none as
  | row, .value e :: as =>
    .value (if row = some x then e else e.renamed x y) :: Argument.renamedAll x y none as
  termination_by structural _ as => as

end

/-- A plain value that comes next, renamed with the lambda before it. -/
def Argument.renamedValue (x y : String) : List Argument → List Argument
  | .value e :: as => .value (e.renamed x y) :: as
  | as => as

/-! One lambda gets another row parameter, somewhere in a query. -/

mutual

inductive Expr.Renames (y : String) : Expr → Expr → Prop
  | member {e e'} (object : Expr.Renames y e e') (name : String) : Expr.Renames y (.member e name) (.member e' name)
  | convert {e e'} (inner : Expr.Renames y e e') : Expr.Renames y (.convert e) (.convert e')
  | not {e e'} (inner : Expr.Renames y e e') : Expr.Renames y (.not e) (.not e')
  | left {e e'} (op : BinaryOperator) (lhs : Expr.Renames y e e') (rhs : Expr) :
    Expr.Renames y (.binary op e rhs) (.binary op e' rhs)
  | right {e e'} (op : BinaryOperator) (lhs : Expr) (rhs : Expr.Renames y e e') :
    Expr.Renames y (.binary op lhs e) (.binary op lhs e')
  | call {es es'} (function : String) (args : Expr.RenamesAll y es es') :
    Expr.Renames y (.call function es) (.call function es')
  | construct {bs bs'} (bindings : Expr.RenamesBindings y bs bs') : Expr.Renames y (.construct bs) (.construct bs')
  | source {n n'} (function : Aggregate) (source : Node.Renames y n n') (selector : Option Lambda) :
    Expr.Renames y (.aggregate function n selector) (.aggregate function n' selector)
  | selector {f f'} (function : Aggregate) (source : Node) (selector : Lambda.Renames y f f') :
    Expr.Renames y (.aggregate function source (some f)) (.aggregate function source (some f'))

inductive Expr.RenamesAll (y : String) : List Expr → List Expr → Prop
  | head {e e'} (h : Expr.Renames y e e') (es : List Expr) : Expr.RenamesAll y (e :: es) (e' :: es)
  | tail {es es'} (e : Expr) (h : Expr.RenamesAll y es es') : Expr.RenamesAll y (e :: es) (e :: es')

inductive Expr.RenamesBindings (y : String) : List (String × Expr) → List (String × Expr) → Prop
  | head {e e'} (name : String) (h : Expr.Renames y e e') (bs : List (String × Expr)) :
    Expr.RenamesBindings y ((name, e) :: bs) ((name, e') :: bs)
  | tail {bs bs'} (b : String × Expr) (h : Expr.RenamesBindings y bs bs') :
    Expr.RenamesBindings y (b :: bs) (b :: bs')

/-- The lambda's own parameter, or that of a lambda in its body. -/
inductive Lambda.Renames (y : String) : Lambda → Lambda → Prop
  | row (x : String) (ps : List String) (body : Expr) : Lambda.Renames y ⟨x :: ps, body⟩ ⟨y :: ps, body.renamed x y⟩
  | body {e e'} (ps : List String) (h : Expr.Renames y e e') : Lambda.Renames y ⟨ps, e⟩ ⟨ps, e'⟩

inductive Node.Renames (y : String) : Node → Node → Prop
  | arguments {as as'} (kind : OperatorKind) (h : Argument.RenamesAll y as as') : Node.Renames y ⟨kind, as⟩ ⟨kind, as'⟩

inductive Argument.RenamesAll (y : String) : List Argument → List Argument → Prop
  | sequence {n n'} (h : Node.Renames y n n') (as : List Argument) :
    Argument.RenamesAll y (.sequence n :: as) (.sequence n' :: as)
  | row (x : String) (ps : List String) (body : Expr) (as : List Argument) :
    Argument.RenamesAll y (.lambda ⟨x :: ps, body⟩ :: as)
      (.lambda ⟨y :: ps, body.renamed x y⟩ :: Argument.renamedValue x y as)
  | body {e e'} (ps : List String) (h : Expr.Renames y e e') (as : List Argument) :
    Argument.RenamesAll y (.lambda ⟨ps, e⟩ :: as) (.lambda ⟨ps, e'⟩ :: as)
  | value {e e'} (h : Expr.Renames y e e') (as : List Argument) :
    Argument.RenamesAll y (.value e :: as) (.value e' :: as)
  | tail {as as'} (a : Argument) (h : Argument.RenamesAll y as as') : Argument.RenamesAll y (a :: as) (a :: as')

end

theorem Lambda.row?_renamed (x y : String) (f : Lambda) : (f.renamed x y).row? = f.row? := by
  cases f with
  | mk ps body =>
    rw [Lambda.renamed]
    split <;> rfl

/-- The names after a renaming stand for those before it. -/
def Names.swapped (x y : String) : Names := fun a b =>
  b = if a = x then y else a

theorem Names.swapped_self {x y a : String} (h : a ≠ x) : swapped x y a a := by
  simp [swapped, h]

theorem Names.under_swapped {x y a b : String} {row : Option String} (hx : row ≠ some x) (hy : row ≠ some y)
    (h : swapped x y a b) : (swapped x y).under row row a b := by
  by_cases ha : a = x
  · have hb : b = y := by rw [h, if_pos ha]
    exact .inr ⟨by rwa [ha], by rwa [hb], h⟩
  · have hb : b = a := by rw [h, if_neg ha]
    by_cases hrow : row = some a
    · exact .inl ⟨hrow, by rw [hb, hrow]⟩
    · exact .inr ⟨hrow, by rwa [hb], h⟩

/-! A query is like the one in which a free parameter has got a new name. -/

mutual

theorem Expr.alike_renamed {x y : String} (e : Expr) (h : e.Guarded .lexical) (hy : y ∉ e.names) :
    e.Alike .lexical (Names.swapped x y) (e.renamed x y) := by
  cases e with
  | parameter name => exact .parameter rfl
  | member object name => exact .member (object.alike_renamed h hy) name
  | literal v => exact .literal v
  | «external» name => exact .external name trivial
  | null => exact .null
  | convert inner => exact .convert (inner.alike_renamed h hy)
  | not inner => exact .not (inner.alike_renamed h hy)
  | binary op lhs rhs =>
    obtain ⟨hl, hr⟩ := Names.of_not_mem_append hy
    exact .binary op (lhs.alike_renamed h.1 hl) (rhs.alike_renamed h.2 hr)
  | call function args => exact .call function (Expr.alikeAll_renamed args h hy)
  | construct bindings => exact .construct (Expr.alikeBindings_renamed bindings h hy)
  | aggregate function source selector =>
    obtain ⟨hl, hr⟩ := Names.of_not_mem_append hy
    exact .aggregate function (source.alike_renamed h.1 hl) (Lambda.alikeOption_renamed selector h.2 hr)
  termination_by structural e

theorem Expr.alikeAll_renamed {x y : String} (es : List Expr) (h : Expr.GuardedAll .lexical es)
    (hy : y ∉ Expr.namesAll es) :
    Expr.AlikeAll .lexical (Names.swapped x y) es (Expr.renamedAll x y es) := by
  cases es with
  | nil => exact .nil
  | cons e es =>
    obtain ⟨hl, hr⟩ := Names.of_not_mem_append hy
    exact .cons (e.alike_renamed h.1 hl) (Expr.alikeAll_renamed es h.2 hr)
  termination_by structural es

theorem Expr.alikeBindings_renamed {x y : String} (bs : List (String × Expr)) (h : Expr.GuardedBindings .lexical bs)
    (hy : y ∉ Expr.namesBindings bs) :
    Expr.AlikeBindings .lexical (Names.swapped x y) bs (Expr.renamedBindings x y bs) := by
  match bs with
  | [] => exact .nil
  | (name, e) :: bs =>
    obtain ⟨hl, hr⟩ := Names.of_not_mem_append hy
    exact .cons name (e.alike_renamed h.1 hl) (Expr.alikeBindings_renamed bs h.2 hr)
  termination_by structural bs

theorem Lambda.alike_renamed {x y : String} (f : Lambda) (h : f.Guarded .lexical) (hy : y ∉ f.names) :
    f.Alike .lexical (Names.swapped x y) (f.renamed x y) := by
  cases f with
  | mk ps body =>
    obtain ⟨hps, hbody⟩ := Names.of_not_mem_append hy
    rw [Lambda.renamed]
    split
    · next hx =>
      refine Lambda.alike_refl (fun _ => trivial) _ h fun z hz => Names.swapped_self ?_
      rintro rfl
      simp [Lambda.free, hx] at hz
    · next hx =>
      have hrow : ps.head? ≠ some y := fun hrow => hps (List.mem_of_mem_head? hrow)
      exact .intro (Likeness.rel_refl (fun _ => trivial) _) rfl
        ((body.alike_renamed h hbody).mono fun _ _ => Names.under_swapped hx hrow)
  termination_by structural f

theorem Lambda.alikeOption_renamed {x y : String} (f : Option Lambda) (h : Lambda.GuardedOption .lexical f)
    (hy : y ∉ Lambda.namesOption f) :
    Lambda.AlikeOption .lexical (Names.swapped x y) f (Lambda.renamedOption x y f) := by
  match f with
  | none => exact .none
  | some f => exact .some (f.alike_renamed h hy)
  termination_by structural f

theorem Node.alike_renamed {x y : String} (node : Node) (h : node.Guarded .lexical) (hy : y ∉ node.names) :
    node.Alike .lexical (Names.swapped x y) (node.renamed x y) := by
  cases node with
  | mk kind arguments =>
    have harguments := Argument.alikeAll_renamed (x := x) none nofun arguments h.2 hy
    refine .intro kind harguments h.1 (h.1.of_alike harguments ?_)
    rintro source source' member member' value value' f a b rfl hbs - - hab hrow
    have hvalue : value' = value.renamed x y := by
      simp only [Argument.renamedAll, List.cons.injEq, Argument.lambda.injEq] at hbs
      exact hbs.2.2.1.symm
    rw [hvalue, Lambda.row?_renamed] at hrow
    have hb : b ≠ y := by
      rintro rfl
      exact hy (by simp [Node.names, Argument.namesAll, Lambda.mem_names_of_row? hrow])
    rw [hrow, hab]
    split
    · next ha => exact absurd (by rw [hab, if_pos ha]) hb
    · rfl
  termination_by structural node

theorem Argument.alikeAll_renamed {x y : String} (row : Option String) (hrow : row ≠ some y) (as : List Argument)
    (h : Argument.GuardedAll .lexical as) (hy : y ∉ Argument.namesAll as) :
    Argument.AlikeAll .lexical (Names.swapped x y) row row as (Argument.renamedAll x y row as) := by
  match as with
  | [] => exact .nil
  | .sequence node :: as =>
    obtain ⟨hl, hr⟩ := Names.of_not_mem_append hy
    exact .sequence (node.alike_renamed h.1 hl) (Argument.alikeAll_renamed none nofun as h.2 hr)
  | .lambda f :: as =>
    obtain ⟨hl, hr⟩ := Names.of_not_mem_append hy
    refine .lambda (f.alike_renamed h.1 hl) ?_
    rw [Lambda.row?_renamed]
    exact Argument.alikeAll_renamed f.row? (fun hf => hl (Lambda.mem_names_of_row? hf)) as h.2 hr
  | .entity name :: as => exact .entity name (Argument.alikeAll_renamed none nofun as h hy)
  | .value e :: as =>
    obtain ⟨hl, hr⟩ := Names.of_not_mem_append hy
    refine .value ?_ (Argument.alikeAll_renamed none nofun as h.2 hr)
    split
    · next hx =>
      refine e.alike_refl (fun _ => trivial) h.1 (Names.under_refl fun z hz => Names.swapped_self ?_)
      rintro rfl
      simp [hx] at hz
    · next hx => exact (e.alike_renamed h.1 hl).mono fun _ _ => Names.under_swapped hx hrow
  termination_by structural as

end

/-! A query is like itself. -/

theorem Expr.alike_self (e : Expr) (h : e.Guarded .lexical) : e.Alike .lexical Eq e :=
  e.alike_refl (fun _ => trivial) h fun _ _ => rfl

theorem Lambda.alike_self (f : Lambda) (h : f.Guarded .lexical) : f.Alike .lexical Eq f :=
  f.alike_refl (fun _ => trivial) h fun _ _ => rfl

theorem Node.alike_self (node : Node) (h : node.Guarded .lexical) : node.Alike .lexical Eq node :=
  node.alike_refl (fun _ => trivial) h fun _ _ => rfl

theorem Argument.alikeAll_self (row : Option String) (as : List Argument) (h : Argument.GuardedAll .lexical as) :
    Argument.AlikeAll .lexical Eq row row as as :=
  Argument.alikeAll_refl (fun _ => trivial) row as h fun _ _ => rfl

/-! A query is like the one in which one lambda has got another parameter. -/

theorem Names.under_same {a : Option String} {x y : String} (h : x = y) : Names.under Eq a a x y := by
  subst h
  by_cases ha : a = some x
  · exact .inl ⟨ha, ha⟩
  · exact .inr ⟨ha, ha, rfl⟩

theorem Names.under_row {x y a b : String} (ha : a ≠ y) (h : swapped x y a b) :
    Names.under Eq (some x) (some y) a b := by
  by_cases hax : a = x
  · exact .inl ⟨by rw [hax], by rw [h, if_pos hax]⟩
  · have hb : b = a := by rw [h, if_neg hax]
    exact .inr ⟨by simpa using Ne.symm hax, by simpa [hb] using Ne.symm ha, hb.symm⟩

/-- Below a lambda whose parameter has got a new name, so have its occurrences. -/
theorem Expr.alike_under_row {x y : String} {e : Expr} (h : e.Guarded .lexical) (hy : y ∉ e.names) :
    e.Alike .lexical (Names.under Eq (some x) (some y)) (e.renamed x y) := by
  refine (e.alike_renamed h hy).imp fun a ha b _ => Names.under_row ?_
  rintro rfl
  exact hy (e.free_subset_names ha)

theorem Argument.alikeAll_renamedValue {x y : String} {as : List Argument} (h : Argument.GuardedAll .lexical as)
    (hy : y ∉ Argument.namesAll as) :
    Argument.AlikeAll .lexical Eq (some x) (some y) as (Argument.renamedValue x y as) := by
  match as with
  | [] => exact .nil
  | .sequence node :: as => exact .sequence (node.alike_self h.1) (Argument.alikeAll_self none as h.2)
  | .lambda f :: as => exact .lambda (f.alike_self h.1) (Argument.alikeAll_self _ as h.2)
  | .entity name :: as => exact .entity name (Argument.alikeAll_self none as h)
  | .value e :: as =>
    obtain ⟨he, -⟩ := Names.of_not_mem_append hy
    exact .value (Expr.alike_under_row h.1 he) (Argument.alikeAll_self none as h.2)

/-- A value keeps its parameter, or gets the new one. -/
theorem Argument.RenamesAll.row_value {y : String} {source source' : Node} {member member' value value' : Lambda}
    (h : Argument.RenamesAll y [.sequence source, .lambda member, .lambda value]
      [.sequence source', .lambda member', .lambda value']) : value'.row? = value.row? ∨ value'.row? = some y := by
  cases h with
  | sequence => exact .inl rfl
  | tail _ h =>
    cases h with
    | row => exact .inl rfl
    | body => exact .inl rfl
    | tail _ h =>
      cases h with
      | row => exact .inr rfl
      | body => exact .inl rfl
      | tail _ h => cases h

mutual

theorem Expr.Renames.alike {y : String} {e e' : Expr} (h : e.Renames y e') (hg : e.Guarded .lexical)
    (hy : y ∉ e.names) : e.Alike .lexical Eq e' := by
  cases h with
  | member h name => exact .member (h.alike hg hy) name
  | convert h => exact .convert (h.alike hg hy)
  | not h => exact .not (h.alike hg hy)
  | left op h rhs =>
    obtain ⟨hl, -⟩ := Names.of_not_mem_append hy
    exact .binary op (h.alike hg.1 hl) (rhs.alike_self hg.2)
  | right op lhs h =>
    obtain ⟨-, hr⟩ := Names.of_not_mem_append hy
    exact .binary op (lhs.alike_self hg.1) (h.alike hg.2 hr)
  | call function h => exact .call function (h.alike hg hy)
  | construct h => exact .construct (h.alike hg hy)
  | source function h selector =>
    obtain ⟨hl, -⟩ := Names.of_not_mem_append hy
    exact .aggregate function (h.alike hg.1 hl)
      (Lambda.alikeOption_refl (fun _ => trivial) selector hg.2 fun _ _ => rfl)
  | selector function source h =>
    obtain ⟨-, hr⟩ := Names.of_not_mem_append hy
    exact .aggregate function (source.alike_self hg.1) (.some (h.alike hg.2 hr))
  termination_by structural e

theorem Expr.RenamesAll.alike {y : String} {es es' : List Expr} (h : Expr.RenamesAll y es es')
    (hg : Expr.GuardedAll .lexical es) (hy : y ∉ Expr.namesAll es) : Expr.AlikeAll .lexical Eq es es' := by
  cases h with
  | head h es =>
    obtain ⟨hl, -⟩ := Names.of_not_mem_append hy
    exact .cons (h.alike hg.1 hl) (Expr.alikeAll_refl (fun _ => trivial) es hg.2 fun _ _ => rfl)
  | tail e h =>
    obtain ⟨-, hr⟩ := Names.of_not_mem_append hy
    exact .cons (e.alike_self hg.1) (h.alike hg.2 hr)
  termination_by structural es

theorem Expr.RenamesBindings.alike {y : String} {bs bs' : List (String × Expr)} (h : Expr.RenamesBindings y bs bs')
    (hg : Expr.GuardedBindings .lexical bs) (hy : y ∉ Expr.namesBindings bs) :
    Expr.AlikeBindings .lexical Eq bs bs' := by
  cases h with
  | head name h bs =>
    obtain ⟨hl, -⟩ := Names.of_not_mem_append hy
    exact .cons name (h.alike hg.1 hl) (Expr.alikeBindings_refl (fun _ => trivial) bs hg.2 fun _ _ => rfl)
  | tail b h =>
    obtain ⟨name, e⟩ := b
    obtain ⟨-, hr⟩ := Names.of_not_mem_append hy
    exact .cons name (e.alike_self hg.1) (h.alike hg.2 hr)
  termination_by structural bs

theorem Lambda.Renames.alike {y : String} {f f' : Lambda} (h : f.Renames y f') (hg : f.Guarded .lexical)
    (hy : y ∉ f.names) : f.Alike .lexical Eq f' := by
  cases h with
  | row x ps body =>
    obtain ⟨-, hbody⟩ := Names.of_not_mem_append hy
    exact .intro (.some trivial) rfl (Expr.alike_under_row hg hbody)
  | body ps h =>
    obtain ⟨-, hbody⟩ := Names.of_not_mem_append hy
    exact .intro (Likeness.rel_refl (fun _ => trivial) _) rfl ((h.alike hg hbody).mono fun _ _ => Names.under_same)
  termination_by structural f

theorem Node.Renames.alike {y : String} {node node' : Node} (h : node.Renames y node') (hg : node.Guarded .lexical)
    (hy : y ∉ node.names) : node.Alike .lexical Eq node' := by
  cases h with
  | arguments kind h =>
    have harguments := h.alike hg.2 hy none
    refine .intro kind harguments hg.1 (hg.1.of_alike harguments ?_)
    rintro source source' member member' value value' f a _ rfl rfl hf ha rfl hrow
    rcases h.row_value with hkept | hnew
    · rw [← hkept, hrow]
    · rw [hnew] at hrow
      cases hrow
      refine absurd ?_ hy
      exact List.mem_append_left _ (Node.names_projection? hf (f.free_subset_names ha))
  termination_by structural node

theorem Argument.RenamesAll.alike {y : String} {as as' : List Argument} (h : Argument.RenamesAll y as as')
    (hg : Argument.GuardedAll .lexical as) (hy : y ∉ Argument.namesAll as) (row : Option String) :
    Argument.AlikeAll .lexical Eq row row as as' := by
  cases h with
  | sequence h as =>
    obtain ⟨hl, -⟩ := Names.of_not_mem_append hy
    exact .sequence (h.alike hg.1 hl) (Argument.alikeAll_self none as hg.2)
  | row x ps body as =>
    obtain ⟨hl, hr⟩ := Names.of_not_mem_append hy
    exact .lambda ((Lambda.Renames.row x ps body).alike hg.1 hl) (Argument.alikeAll_renamedValue hg.2 hr)
  | body ps h as =>
    obtain ⟨hl, -⟩ := Names.of_not_mem_append hy
    exact .lambda ((Lambda.Renames.body ps h).alike hg.1 hl) (Argument.alikeAll_self _ as hg.2)
  | value h as =>
    obtain ⟨hl, -⟩ := Names.of_not_mem_append hy
    exact .value ((h.alike hg.1 hl).mono fun _ _ => Names.under_same) (Argument.alikeAll_self none as hg.2)
  | tail a h =>
    cases a with
    | sequence node =>
      obtain ⟨-, hr⟩ := Names.of_not_mem_append hy
      exact .sequence (node.alike_self hg.1) (h.alike hg.2 hr none)
    | lambda f =>
      obtain ⟨-, hr⟩ := Names.of_not_mem_append hy
      exact .lambda (f.alike_self hg.1) (h.alike hg.2 hr f.row?)
    | «entity» name => exact .entity name (h.alike hg hy none)
    | value e =>
      obtain ⟨-, hr⟩ := Names.of_not_mem_append hy
      exact .value (e.alike_refl (fun _ => trivial) hg.1 fun _ _ => Names.under_same rfl) (h.alike hg.2 hr none)
  termination_by structural as

end

theorem Mirror.Matches.eq {c : Compiler} {hg : c.schema.Guarded .lexical} {hc : c.schema.Closed}
    {g : (Mirror.lexical c hg hc).reading.Ghost} {st st' : Statement} (h : (Mirror.lexical c hg hc).Matches g st st') :
    st' = st := by
  obtain ⟨hkind, hselect, hsources, -, hcondition, htarget, hitems⟩ := h
  have hitems : st.update.items = st'.update.items := by
    have hitems := hitems.imp fun i j h => show i = j by
      obtain ⟨column, value⟩ := i
      exact congrArg₂ SetItem.mk h.1.symm h.2
    rwa [List.forall₂_eq_eq_eq] at hitems
  obtain ⟨kind, select, sources, condition, ⟨target, items⟩⟩ := st
  obtain ⟨kind', select', sources', condition', ⟨target', items'⟩⟩ := st'
  cases hkind
  cases hselect
  cases hsources
  cases hcondition
  cases htarget
  cases hitems
  rfl

/-- A lambda may get another parameter anywhere in a query: it compiles as before, to the same statements. Projections
must be safe from the values that are set through them, and computed members mention no parameter but their own. -/
theorem Compiler.compile_renames {c : Compiler} (hg : c.schema.Guarded .lexical) (hc : c.schema.Closed)
    {node node' : Node} {y : String} (hnode : node.Uncaptured) (hy : y ∉ node.names) (h : node.Renames y node')
    (fuel : Nat) :
    (∀ q, c.compile fuel node = .ok q → ∃ q', c.compile fuel node' = .ok q' ∧
      q'.root = q.root ∧ q'.rootContext = q.rootContext ∧ q'.statements = q.statements) ∧
      (∀ q', c.compile fuel node' = .ok q' → ∃ q, c.compile fuel node = .ok q) ∧
      (c.compile fuel node = .error .outOfFuel ↔ c.compile fuel node' = .error .outOfFuel) := by
  have houtcomes := (Mirror.lexical c hg hc).outcomes (g := ()) rfl (h.alike hnode hy)
    (by
      rintro x _ rfl
      exact ⟨none, .unbound, .unbound, nofun⟩) fuel
  generalize c.compile fuel node = x at houtcomes
  generalize c.compile fuel node' = x' at houtcomes
  cases houtcomes with
  | @compiles _ q q' root rootContext _ statements =>
    have hstatements : q.statements = q'.statements := by
      have hstatements := statements.imp fun st st' h => (Mirror.Matches.eq h).symm
      rwa [List.forall₂_eq_eq_eq] at hstatements
    refine ⟨?_, fun _ _ => ⟨q, rfl⟩, by simp⟩
    rintro _ ⟨⟩
    exact ⟨q', rfl, root, rootContext, hstatements.symm⟩
  | fails => exact ⟨nofun, nofun, by simp⟩
  | halts => exact ⟨nofun, nofun, .rfl⟩

/-- Employees that have as many namesakes as their number says. -/
def namesakes (e : String) : Node :=
  (Node.source "Employee").filter ⟨[e], .binary (.comparison .equal)
    (.aggregate .count ((Node.source "Employee").filter ⟨["d"], .binary (.comparison .equal)
      (.member (.parameter "d") "name") (.member (.parameter e) "name")⟩) none)
    (.member (.parameter e) "id")⟩

theorem compile_renames_namesakes :
    "employee" ∉ (namesakes "e").names ∧ (namesakes "e").Renames "employee" (namesakes "employee") ∧
      ∃ q q', Compiler.company.compile 12 (namesakes "e") = .ok q ∧
        Compiler.company.compile 12 (namesakes "employee") = .ok q' ∧ q'.statements = q.statements := by
  have hy : "employee" ∉ (namesakes "e").names := by decide
  have h : (namesakes "e").Renames "employee" (namesakes "employee") := .arguments .filter (.tail _ (.row "e" [] _ []))
  have hnode : (namesakes "e").Uncaptured := by
    simp [namesakes, Node.Uncaptured, Node.source, Node.filter, Node.chain, Node.setWith, Node.Guarded,
      Argument.GuardedAll, Lambda.Guarded, Lambda.GuardedOption, Expr.Guarded, Likeness.Shielded]
  obtain ⟨q, hq⟩ : ∃ q, Compiler.company.compile 12 (namesakes "e") = .ok q := ⟨_, rfl⟩
  obtain ⟨q', hq', -, -, hstatements⟩ :=
    (Compiler.compile_renames (Schema.plain_company.guarded _) Schema.plain_company.closed hnode hy h 12).1 q hq
  exact ⟨hy, h, q, q', hq, hq', hstatements⟩

/-- A name of employees, set through a projection that mentions a parameter without binding it. -/
def captured (x : String) : Node :=
  (((Node.source "Employee").select ⟨["c"], .construct [("a", .member (.parameter "x") "b"),
    ("b", .member (.parameter "c") "name")]⟩).setWith ⟨["p"], .member (.parameter "p") "b"⟩
    ⟨[x], .member (.parameter x) "a"⟩).update

/-- The parameter of the value is taken for the one that nothing binds, unless it has another name. -/
theorem renames_captured :
    (captured "x").Renames "y" (captured "y") ∧ "y" ∉ (captured "x").names ∧
      (∃ q, Compiler.company.compile 12 (captured "x") = .ok q) ∧
      Compiler.company.compile 12 (captured "y") = .error (.failed (.memberResolution "y.a" (.notInScope "x"))) := by
  refine ⟨.arguments .update (.sequence (.arguments .set (.tail _ (.tail _ (.row "x" [] _ [])))) []), by decide,
    ⟨_, rfl⟩, rfl⟩

end ObjectQuery
