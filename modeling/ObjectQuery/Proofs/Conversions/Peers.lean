import Mathlib.Data.Option.Basic
import ObjectQuery.Proofs.Conversions.Erase
import ObjectQuery.Proofs.Traversal

/-!
What is the same up to conversions looks the same to a compilation: outermost operations, bindings, paths, operands,
declared members, contexts.
-/
namespace ObjectQuery

theorem rel_of_map_eq {α β : Type} {f : α → β} {o o' : Option α} (h : o.map f = o'.map f) :
    Option.Rel (fun a b => f a = f b) o o' := by
  cases o <;> cases o'
  · exact .none
  · cases h
  · cases h
  · exact .some (Option.some.inj h)

theorem forall₂_of_map_eq {α β : Type} {f : α → β} {xs ys : List α} (h : xs.map f = ys.map f) :
    List.Forall₂ (fun a b => f a = f b) xs ys := by
  have hboth : List.Forall₂ Eq (xs.map f) (ys.map f) := List.forall₂_eq_eq_eq ▸ h
  rwa [List.forall₂_map_left_iff, List.forall₂_map_right_iff] at hboth

/-- The same member, with a value that is the same up to conversions. -/
def Expr.BindingPeers (a b : String × Expr) : Prop :=
  a.1 = b.1 ∧ a.2.erase = b.2.erase

/-- The outermost operation is the same, and what it is applied to is so up to conversions. -/
inductive Expr.Peers : Expr → Expr → Prop
  | parameter (name : String) : Peers (.parameter name) (.parameter name)
  | member {a b : Expr} (h : a.erase = b.erase) (name : String) : Peers (.member a name) (.member b name)
  | literal (value : Literal) : Peers (.literal value) (.literal value)
  | «external» (name : String) : Peers (.external name) (.external name)
  | null : Peers .null .null
  | binary {a b c d : Expr} (op : BinaryOperator) (lhs : a.erase = c.erase) (rhs : b.erase = d.erase) :
    Peers (.binary op a b) (.binary op c d)
  | not {a b : Expr} (h : a.erase = b.erase) : Peers (.not a) (.not b)
  | call {as bs : List Expr} (function : String) (h : List.Forall₂ (fun a b => a.erase = b.erase) as bs) :
    Peers (.call function as) (.call function bs)
  | construct {as bs : List (String × Expr)} (h : List.Forall₂ BindingPeers as bs) :
    Peers (.construct as) (.construct bs)
  | aggregate {n m : Node} {f g : Option Lambda} (function : Aggregate) (source : n.erase = m.erase)
    (selector : Option.Rel (fun f g => f.erase = g.erase) f g) :
    Peers (.aggregate function n f) (.aggregate function m g)

/-- Arguments of the same kind, the same up to conversions. -/
inductive Argument.Peers : Argument → Argument → Prop
  | sequence {n m : Node} (h : n.erase = m.erase) : Peers (.sequence n) (.sequence m)
  | lambda {f g : Lambda} (h : f.erase = g.erase) : Peers (.lambda f) (.lambda g)
  | «entity» (name : String) : Peers (.entity name) (.entity name)
  | value {e d : Expr} (h : e.erase = d.erase) : Peers (.value e) (.value d)

theorem Expr.peers_of_erase_eq {e d : Expr} (h : e.erase = d.erase) (he : ∀ inner, e ≠ .convert inner)
    (hd : ∀ inner, d ≠ .convert inner) : e.Peers d := by
  have hbindings : ∀ {as bs : List (String × Expr)}, Expr.eraseBindings as = Expr.eraseBindings bs →
      List.Forall₂ Expr.BindingPeers as bs := by
    intro as bs h
    rw [Expr.eraseBindings_eq_map, Expr.eraseBindings_eq_map] at h
    exact (forall₂_of_map_eq h).imp fun _ _ h => Prod.mk.inj h
  cases e <;> cases d <;> first
    | exact absurd rfl (he _)
    | exact absurd rfl (hd _)
    | (simp only [Expr.erase, reduceCtorEq] at h; done)
    | skip
  all_goals simp only [Expr.erase, Expr.eraseAll_eq_map, Lambda.eraseOption_eq_map, Expr.parameter.injEq,
    Expr.member.injEq, Expr.literal.injEq, Expr.external.injEq, Expr.binary.injEq, Expr.not.injEq, Expr.call.injEq,
    Expr.construct.injEq, Expr.aggregate.injEq] at h
  case parameter => exact h ▸ .parameter _
  case member => exact h.2 ▸ .member h.1 _
  case literal => exact h ▸ .literal _
  case «external» => exact h ▸ .external _
  case null => exact .null
  case binary => exact h.1 ▸ .binary _ h.2.1 h.2.2
  case not => exact .not h
  case call => exact h.1 ▸ .call _ (forall₂_of_map_eq h.2)
  case construct => exact .construct (hbindings h)
  case aggregate => exact h.1 ▸ .aggregate _ h.2.1 (rel_of_map_eq h.2.2)

namespace Expr

variable {e d : Expr}

theorem peers_strip (h : e.erase = d.erase) : e.strip.Peers d.strip :=
  peers_of_erase_eq (by rw [erase_strip, erase_strip, h]) e.strip_ne_convert d.strip_ne_convert

theorem rel_bindings? (h : e.erase = d.erase) :
    Option.Rel (List.Forall₂ BindingPeers) e.bindings? d.bindings? := by
  have hpeers := peers_strip h
  unfold bindings?
  generalize e.strip = a at hpeers
  generalize d.strip = b at hpeers
  cases hpeers with
  | construct h => exact .some h
  | _ => exact .none

theorem isNone_bindings? (h : e.erase = d.erase) : e.bindings?.isNone = d.bindings?.isNone := by
  have hbindings := rel_bindings? h
  generalize e.bindings? = x at hbindings
  generalize d.bindings? = y at hbindings
  cases hbindings <;> rfl

theorem rel_lookup {as bs : List (String × Expr)} (h : List.Forall₂ BindingPeers as bs) (name : String) :
    Option.Rel (fun a b => a.erase = b.erase) (as.lookup name) (bs.lookup name) := by
  induction h with
  | nil => exact .none
  | @cons a b _ _ hab _ ih =>
    obtain ⟨key, a⟩ := a
    obtain ⟨_, b⟩ := b
    obtain ⟨rfl, hab⟩ := hab
    rw [List.lookup_cons, List.lookup_cons]
    cases name == key with
    | true => exact .some hab
    | false => exact ih

theorem map_fst_eq {as bs : List (String × Expr)} (h : List.Forall₂ BindingPeers as bs) :
    as.map Prod.fst = bs.map Prod.fst :=
  map_eq_map_of_forall₂ (h.imp fun _ _ hab => hab.1)

theorem constructedAt_eq (h : e.erase = d.erase) (steps : List String) :
    e.constructedAt steps = d.constructedAt steps := by
  have hbindings := rel_bindings? h
  induction steps generalizing e d with
  | nil =>
    unfold constructedAt
    generalize e.bindings? = x at hbindings
    generalize d.bindings? = y at hbindings
    cases hbindings with
    | none => rfl
    | some h => exact map_fst_eq h
  | cons step steps ih =>
    unfold constructedAt
    generalize e.bindings? = x at hbindings
    generalize d.bindings? = y at hbindings
    cases hbindings with
    | none => rfl
    | @some as bs h =>
      have hlookup := rel_lookup h step
      simp only [Option.getD_some]
      generalize as.lookup step = a at hlookup
      generalize bs.lookup step = b at hlookup
      cases hlookup with
      | none => rfl
      | some h => exact ih h (rel_bindings? h)

end Expr

theorem Path.read_erase (e : Expr) (steps : List String) : read e.erase steps = read e steps := by
  induction e, steps using Path.read.induct with
  | case1 name steps => rfl
  | case2 object name steps ih => exact ih
  | case3 inner steps ih => exact ih
  | case4 e steps hparameter hmember hconvert =>
    cases e with
    | parameter => exact absurd rfl (hparameter _)
    | member => exact absurd rfl (hmember _ _)
    | convert => exact absurd rfl (hconvert _)
    | _ => rfl

theorem Path.ofExpr?_eq {e d : Expr} (h : e.erase = d.erase) : ofExpr? e = ofExpr? d := by
  rw [ofExpr?, ofExpr?, ← read_erase e, h, read_erase]

theorem Lambda.row?_eq {f g : Lambda} (h : f.erase = g.erase) : f.row? = g.row? := by
  rw [← f.row?_erase, h, g.row?_erase]

theorem Lambda.erase_body_eq {f g : Lambda} (h : f.erase = g.erase) : f.body.erase = g.body.erase := by
  rw [← f.body_erase, h, g.body_erase]

/-! Operators and their arguments. -/

theorem Argument.peers_of_erase_eq {a b : Argument} (h : a.erase = b.erase) : a.Peers b := by
  cases a <;> cases b <;> simp only [Argument.erase, reduceCtorEq, Argument.sequence.injEq, Argument.lambda.injEq,
    Argument.entity.injEq, Argument.value.injEq] at h
  case sequence => exact .sequence h
  case lambda => exact .lambda h
  case «entity» => exact h ▸ .entity _
  case value => exact .value h

namespace Node

variable {node node' : Node}

theorem kind_eq (h : node.erase = node'.erase) : node.kind = node'.kind := by
  rw [← node.kind_erase, h, node'.kind_erase]

theorem peers_arguments (h : node.erase = node'.erase) :
    List.Forall₂ Argument.Peers node.arguments node'.arguments := by
  have harguments := congrArg arguments h
  rw [arguments_erase, arguments_erase] at harguments
  exact (forall₂_of_map_eq harguments).imp fun _ _ => Argument.peers_of_erase_eq

theorem rel_primary? (h : node.erase = node'.erase) :
    Option.Rel (fun n m => n.erase = m.erase) node.primary? node'.primary? := by
  have harguments := peers_arguments h
  unfold primary?
  generalize node.arguments = as at harguments
  generalize node'.arguments = bs at harguments
  cases harguments with
  | nil => exact .none
  | cons hab =>
    cases hab with
    | sequence h => exact .some h
    | _ => exact .none

theorem peers_operands (h : node.erase = node'.erase) : List.Forall₂ Argument.Peers node.operands node'.operands := by
  have harguments := peers_arguments h
  unfold operands
  generalize node.arguments = as at harguments
  generalize node'.arguments = bs at harguments
  cases harguments with
  | nil => exact .nil
  | cons hab hrest =>
    cases hab with
    | sequence => exact hrest
    | lambda h => exact .cons (.lambda h) hrest
    | «entity» name => exact .cons (.entity name) hrest
    | value h => exact .cons (.value h) hrest

/-- Builders look at the shape of the arguments only. -/
theorem claims_eq (h : node.erase = node'.erase) (b : Builder) : b.claims node = b.claims node' := by
  have hprimary : node.primary?.isSome = node'.primary?.isSome := by
    have h := rel_primary? h
    generalize node.primary? = x at h
    generalize node'.primary? = y at h
    cases h <;> rfl
  have harguments := peers_arguments h
  have hoperands := peers_operands h
  unfold Builder.claims
  rw [← kind_eq h, ← hprimary]
  generalize node.arguments = as at harguments
  generalize node'.arguments = bs at harguments
  generalize node.operands = os at hoperands
  generalize node'.operands = ps at hoperands
  split
  · cases harguments with
    | nil => rfl
    | cons hab hrest => cases hab <;> cases hrest <;> rfl
  · cases hoperands with
    | nil => rfl
    | cons hab hrest => cases hab <;> cases hrest <;> rfl
  · cases hoperands with
    | nil => rfl
    | cons hab hrest => cases hab <;> cases hrest <;> rfl
  · cases hoperands with
    | nil => rfl
    | cons hab hrest =>
      cases hrest with
      | nil => cases hab <;> rfl
      | cons hcd hrest => cases hab <;> cases hcd <;> cases hrest <;> rfl
  · cases hoperands with
    | nil => rfl
    | cons hab hrest =>
      cases hrest with
      | nil => cases hab <;> rfl
      | cons hcd hrest => cases hab <;> cases hcd <;> cases hrest <;> rfl
  · rfl

end Node

/-! Entities and what they declare. -/

namespace Entity

variable {e e' : Entity}

theorem member?_erase (e : Entity) (name : String) : e.erase.member? name = (e.member? name).map Member.erase := by
  simp only [member?, erase, Keyed.find?_map, Option.map_map]
  rfl

theorem stored_erase (e : Entity) : e.erase.stored = e.stored := by
  unfold stored erase Keyed.map
  rw [List.filterMap_map]
  refine List.filterMap_congr fun ⟨name, m⟩ _ => ?_
  cases m <;> rfl

theorem columnsWithin_eq (h : e.erase = e'.erase) (outer : Option String) :
    e.columnsWithin outer = e'.columnsWithin outer := by
  have hstored : e.stored = e'.stored := by rw [← stored_erase, h, stored_erase]
  cases outer <;> simp only [columnsWithin, columns, hstored]

theorem isComplex_eq (h : e.erase = e'.erase) (name : String) : e.isComplex name = e'.isComplex name := by
  have hcomplex : ∀ e : Entity, e.erase.isComplex name = e.isComplex name := fun e => by
    unfold isComplex erase Keyed.map
    rw [List.any_map]
    rfl
  rw [← hcomplex, h, hcomplex]

theorem name_eq (h : e.erase = e'.erase) : e.name = e'.name :=
  (congrArg name h : e.erase.name = e'.erase.name)

theorem table_eq (h : e.erase = e'.erase) : e.table = e'.table :=
  (congrArg table h : e.erase.table = e'.erase.table)

end Entity

/-- Members of the same kind, the same up to conversions. -/
inductive Member.Peers : Member → Member → Prop
  | column (id : ColumnId) : Peers (.column id) (.column id)
  | computed {f g : Lambda} (h : f.erase = g.erase) : Peers (.computed f) (.computed g)
  | association (a : Association) : Peers (.association a) (.association a)

theorem Member.peers_of_erase_eq {a b : Member} (h : a.erase = b.erase) : a.Peers b := by
  cases a <;> cases b <;> simp only [Member.erase, reduceCtorEq, Member.column.injEq, Member.computed.injEq,
    Member.association.injEq] at h
  case column => exact h ▸ .column _
  case computed => exact .computed h
  case association => exact h ▸ .association _

theorem Entity.rel_member? {e e' : Entity} (h : e.erase = e'.erase) (name : String) :
    Option.Rel Member.Peers (e.member? name) (e'.member? name) := by
  have hmember : (e.member? name).map Member.erase = (e'.member? name).map Member.erase := by
    rw [← member?_erase, h, member?_erase]
  generalize e.member? name = x at hmember
  generalize e'.member? name = y at hmember
  cases rel_of_map_eq hmember with
  | none => exact .none
  | some h => exact .some (Member.peers_of_erase_eq h)

/-- The same name leads to members that are peers. -/
theorem Compiler.rel_longestMember? {e e' : Entity} (h : e.erase = e'.erase) (steps : List String) :
    Option.Rel (fun x y => x.1 = y.1 ∧ x.2.1.Peers y.2.1 ∧ x.2.2 = y.2.2) (longestMember? e steps)
      (longestMember? e' steps) := by
  unfold longestMember?
  generalize Path.prefixes steps = prefixes
  induction prefixes with
  | nil => exact .none
  | cons x rest ih =>
    obtain ⟨name, left⟩ := x
    have hmember := Entity.rel_member? h name
    rw [List.findSome?_cons, List.findSome?_cons]
    dsimp only
    generalize e.member? name = m at hmember
    generalize e'.member? name = m' at hmember
    cases hmember with
    | none => exact ih
    | some hm => exact .some ⟨rfl, hm, rfl⟩

namespace Compiler

variable {c c' : Compiler}

theorem settings_eq (h : c.erase = c'.erase) : c.settings = c'.settings :=
  (congrArg settings h : c.erase.settings = c'.erase.settings)

theorem database_eq (h : c.erase = c'.erase) : c.schema.database = c'.schema.database :=
  (congrArg (fun c => c.schema.database) h : c.erase.schema.database = c'.erase.schema.database)

theorem rel_entity? (h : c.erase = c'.erase) (name : String) :
    Option.Rel (fun e e' => e.erase = e'.erase) (c.schema.mapping.entity? name) (c'.schema.mapping.entity? name) := by
  have hfind : ∀ c : Compiler,
      c.erase.schema.mapping.entity? name = (c.schema.mapping.entity? name).map Entity.erase :=
    fun c => Keyed.find?_map (f := Entity.erase) (fun _ => rfl) _ _
  exact rel_of_map_eq (by rw [← hfind, h, hfind])

theorem rel_entityOver? (h : c.erase = c'.erase) (table : TableId) :
    Option.Rel (fun e e' => e.erase = e'.erase) (c.schema.mapping.entityOver? table)
      (c'.schema.mapping.entityOver? table) := by
  have hfind : ∀ c : Compiler,
      c.erase.schema.mapping.entityOver? table = (c.schema.mapping.entityOver? table).map Entity.erase := fun c => by
    unfold Mapping.entityOver?
    exact List.find?_map ..
  exact rel_of_map_eq (by rw [← hfind, h, hfind])

theorem builderFor_eq (h : c.erase = c'.erase) {node node' : Node} (hnode : node.erase = node'.erase) :
    c.builderFor node = c'.builderFor node' := by
  have hbuilders : c.builders = c'.builders :=
    (congrArg builders h : c.erase.builders = c'.erase.builders)
  unfold builderFor
  rw [hbuilders, Node.kind_eq hnode, funext fun b => Node.claims_eq hnode b]

end Compiler

/-! Contexts. -/

/-- Contexts of the same kind, the same up to conversions. -/
inductive Context.Peers : Context → Context → Prop
  | table (parent : Option ContextId) (statement : StatementId) (rows : Rows) :
    Peers (.table parent statement rows) (.table parent statement rows)
  | association (owner : ContextId) (statement : StatementId) (name : String) (rows : Rows) :
    Peers (.association owner statement name rows) (.association owner statement name rows)
  | projection (parent : Option ContextId) (statement : StatementId) (sequence : ContextId) {f g : Lambda}
    (h : f.erase = g.erase) (scalar : Bool) :
    Peers (.projection parent statement sequence f scalar) (.projection parent statement sequence g scalar)
  | lambda (parent : Option ContextId) (statement : StatementId) (bindings : List (String × ContextId)) :
    Peers (.lambda parent statement bindings) (.lambda parent statement bindings)
  | update (parent : Option ContextId) (statement : StatementId) (sequence : ContextId) :
    Peers (.update parent statement sequence) (.update parent statement sequence)

namespace Context

variable {d d' : Context}

theorem peers_of_erase_eq (h : d.erase = d'.erase) : d.Peers d' := by
  cases d <;> cases d' <;> simp only [erase, reduceCtorEq, Context.table.injEq, Context.association.injEq,
    Context.projection.injEq, Context.lambda.injEq, Context.update.injEq] at h
  case table =>
    obtain ⟨rfl, rfl, rfl⟩ := h
    exact .table _ _ _
  case association =>
    obtain ⟨rfl, rfl, rfl, rfl⟩ := h
    exact .association _ _ _ _
  case projection =>
    obtain ⟨rfl, rfl, rfl, hl, rfl⟩ := h
    exact .projection _ _ _ hl _
  case lambda =>
    obtain ⟨rfl, rfl, rfl⟩ := h
    exact .lambda _ _ _
  case update =>
    obtain ⟨rfl, rfl, rfl⟩ := h
    exact .update _ _ _

namespace Peers

variable (h : d.Peers d')
include h

theorem parent_eq : d.parent = d'.parent := by cases h <;> rfl

theorem statement_eq : d.statement = d'.statement := by cases h <;> rfl

theorem rows?_eq : d.rows? = d'.rows? := by cases h <;> rfl

theorem kindName_eq : d.kindName = d'.kindName := by cases h <;> rfl

theorem isUpdate_eq : d.isUpdate = d'.isUpdate := by cases h <;> rfl

end Peers
end Context

/-- Parameters are looked up in the same way. -/
theorem bindingFrom_erase (contexts : List Context) (parameter : String) (n : Nat) (id : Option ContextId) :
    bindingFrom (contexts.map Context.erase) parameter n id = bindingFrom contexts parameter n id := by
  induction n generalizing id with
  | zero => cases id <;> rfl
  | succ n ih =>
    cases id with
    | none => rfl
    | some id =>
      simp only [bindingFrom, List.getElem?_map]
      cases contexts[id]? with
      | none => rfl
      | some d =>
        simp only [Option.map_some, Context.binding?_erase, Context.parent_erase]
        split
        · rfl
        · exact ih _

end ObjectQuery
