import Mathlib.Data.List.Forall2
import Mathlib.Data.Option.Basic
import ObjectQuery.Proofs.Nested.Extends

/-!
Two compilations side by side. Contexts of the one stand for contexts of the other, whatever their numbers are; the
statements of both are the same, but for what is assigned by some that nobody looks at meanwhile.
-/
namespace ObjectQuery

/-- Which contexts stand for which. Twins have no other counterpart; contexts of one's own belong to a query that is
being compiled on both sides. -/
structure Pairing where
  same : ContextId → ContextId → Prop
  twin : ContextId → ContextId → Prop
  own : ContextId → ContextId → Prop
  same_of_twin : ∀ {i j}, twin i j → same i j
  twin_of_own : ∀ {i j}, own i j → twin i j
  unique : ∀ {i j k l}, twin i j → same k l → (i = k ↔ j = l)

namespace Pairing

variable {v w x : Pairing} {i j : ContextId}

/-- More contexts are paired, and those that are stay so. -/
structure Within (w v : Pairing) : Prop where
  same : ∀ {i j}, w.same i j → v.same i j
  twin : ∀ {i j}, w.twin i j → v.twin i j
  own : ∀ {i j}, w.own i j → v.own i j

theorem Within.refl (w : Pairing) : w.Within w :=
  ⟨id, id, id⟩

theorem Within.trans (h : w.Within v) (k : v.Within x) : w.Within x :=
  ⟨fun hs => k.same (h.same hs), fun ht => k.twin (h.twin ht), fun ho => k.own (h.own ho)⟩

theorem same_of_own (h : w.own i j) : w.same i j :=
  w.same_of_twin (w.twin_of_own h)

/-- Nothing is paired yet. -/
def void : Pairing :=
  ⟨fun _ _ => False, fun _ _ => False, fun _ _ => False, id, id, nofun⟩

/-- The same pairs, none of them of one's own any more. -/
def disown (w : Pairing) : Pairing :=
  ⟨w.same, w.twin, fun _ _ => False, w.same_of_twin, False.elim, w.unique⟩

/-- One more pair, of twins and of one's own or not. -/
def add (w : Pairing) (i j : ContextId) (t o : Prop) (hot : o → t) (hold : ∀ {k l}, w.twin k l → (k = i ↔ l = j))
    (hnew : t → ∀ {k l}, w.same k l → (i = k ↔ j = l)) : Pairing where
  same k l := w.same k l ∨ k = i ∧ l = j
  twin k l := w.twin k l ∨ t ∧ k = i ∧ l = j
  own k l := w.own k l ∨ o ∧ k = i ∧ l = j
  same_of_twin := Or.imp w.same_of_twin And.right
  twin_of_own := Or.imp w.twin_of_own (And.imp_left hot)
  unique := by
    rintro k l k' l' (hkl | ⟨ht, rfl, rfl⟩) (hkl' | ⟨rfl, rfl⟩)
    · exact w.unique hkl hkl'
    · exact hold hkl
    · exact hnew ht hkl'
    · exact iff_of_true rfl rfl

theorem within_add {t o : Prop} {hot : o → t} {hold : ∀ {k l}, w.twin k l → (k = i ↔ l = j)}
    {hnew : t → ∀ {k l}, w.same k l → (i = k ↔ j = l)} : w.Within (w.add i j t o hot hold hnew) :=
  ⟨.inl, .inl, .inl⟩

end Pairing

/-! Contexts that stand for each other. -/

variable {ρ ρ' : ContextId → ContextId → Prop} {d e : Context} {i j : ContextId}

/-- The same name, for contexts that stand for each other. -/
def Entry (ρ : ContextId → ContextId → Prop) (x y : String × ContextId) : Prop :=
  x.1 = y.1 ∧ ρ x.2 y.2

inductive Rows.Alike (ρ : ContextId → ContextId → Prop) : Rows → Rows → Prop
  | intro {name table aliasName f g} (followed : List.Forall₂ (Entry ρ) f g) :
    Alike ρ ⟨name, table, aliasName, f⟩ ⟨name, table, aliasName, g⟩

inductive Context.Alike (ρ : ContextId → ContextId → Prop) : Context → Context → Prop
  | table {p q m r r'} (parent : Option.Rel ρ p q) (rows : Rows.Alike ρ r r') : Alike ρ (.table p m r) (.table q m r')
  | association {o o' m name r r'} (owner : ρ o o') (rows : Rows.Alike ρ r r') :
    Alike ρ (.association o m name r) (.association o' m name r')
  | projection {p q m o o' l scalar} (parent : Option.Rel ρ p q) (sequence : ρ o o') :
    Alike ρ (.projection p m o l scalar) (.projection q m o' l scalar)
  | lambda {p q m bs cs} (parent : Option.Rel ρ p q) (bindings : List.Forall₂ (Entry ρ) bs cs) :
    Alike ρ (.lambda p m bs) (.lambda q m cs)
  | update {p q m o o'} (parent : Option.Rel ρ p q) (sequence : ρ o o') : Alike ρ (.update p m o) (.update q m o')

def Context.isScope : Context → Bool
  | .lambda .. => true
  | _ => false

theorem Entry.lookup {xs ys : List (String × ContextId)} (h : List.Forall₂ (Entry ρ) xs ys) (name : String) :
    Option.Rel ρ (xs.lookup name) (ys.lookup name) := by
  induction h with
  | nil => exact .none
  | @cons x y xs ys hxy _ ih =>
    obtain ⟨k, i⟩ := x
    obtain ⟨l, j⟩ := y
    obtain ⟨rfl, hij⟩ : k = l ∧ ρ i j := hxy
    rw [List.lookup_cons, List.lookup_cons]
    cases name == k with
    | true => exact .some hij
    | false => exact ih

theorem rel_imp {α β : Type} {R S : α → β → Prop} (h : ∀ a b, R a b → S a b) {a : Option α} {b : Option β}
    (hab : Option.Rel R a b) : Option.Rel S a b := by
  cases hab with
  | some hr => exact .some (h _ _ hr)
  | none => exact .none

namespace Context.Alike

theorem mono (h : d.Alike ρ e) (hρ : ∀ i j, ρ i j → ρ' i j) : d.Alike ρ' e := by
  have hentries : ∀ {xs ys}, List.Forall₂ (Entry ρ) xs ys → List.Forall₂ (Entry ρ') xs ys := fun hs =>
    hs.imp fun _ _ => And.imp_right (hρ _ _)
  have hrows : ∀ {r r' : Rows}, r.Alike ρ r' → r.Alike ρ' r' := fun ⟨hs⟩ => ⟨hentries hs⟩
  cases h with
  | table parent rows => exact .table (rel_imp hρ parent) (hrows rows)
  | association owner rows => exact .association (hρ _ _ owner) (hrows rows)
  | projection parent sequence => exact .projection (rel_imp hρ parent) (hρ _ _ sequence)
  | lambda parent bindings => exact .lambda (rel_imp hρ parent) (hentries bindings)
  | update parent sequence => exact .update (rel_imp hρ parent) (hρ _ _ sequence)

theorem statement (h : d.Alike ρ e) : e.statement = d.statement := by
  cases h <;> rfl

theorem isUpdate (h : d.Alike ρ e) : e.isUpdate = d.isUpdate := by
  cases h <;> rfl

theorem isScope (h : d.Alike ρ e) : e.isScope = d.isScope := by
  cases h <;> rfl

theorem kindName (h : d.Alike ρ e) : e.kindName = d.kindName := by
  cases h <;> rfl

theorem parent (h : d.Alike ρ e) : Option.Rel ρ d.parent e.parent := by
  cases h with
  | association owner => exact .some owner
  | table parent | projection parent | lambda parent | update parent => exact parent

theorem rows? (h : d.Alike ρ e) : Option.Rel (Rows.Alike ρ) d.rows? e.rows? := by
  cases h with
  | table _ rows | association _ rows => exact .some rows
  | projection | lambda | update => exact .none

theorem binding? (h : d.Alike ρ e) (name : String) : Option.Rel ρ (d.binding? name) (e.binding? name) := by
  cases h with
  | lambda _ bindings => exact Entry.lookup bindings name
  | table | association | projection | update => exact .none

theorem withParent (h : d.Alike ρ e) {p q : Option ContextId} (hp : Option.Rel ρ p q) :
    (d.withParent p).Alike ρ (e.withParent q) := by
  cases h with
  | table _ rows => exact .table hp rows
  | association owner rows => exact .association owner rows
  | projection _ sequence => exact .projection hp sequence
  | lambda _ bindings => exact .lambda hp bindings
  | update _ sequence => exact .update hp sequence

theorem follow (h : d.Alike ρ e) (name : String) (hij : ρ i j) : (d.follow name i).Alike ρ (e.follow name j) := by
  have happend : ∀ {f g}, List.Forall₂ (Entry ρ) f g → List.Forall₂ (Entry ρ) (f ++ [(name, i)]) (g ++ [(name, j)]) :=
    fun hs => List.rel_append hs (.cons ⟨rfl, hij⟩ .nil)
  cases h with
  | table parent rows =>
    obtain ⟨hs⟩ := rows
    exact .table parent ⟨happend hs⟩
  | association owner rows =>
    obtain ⟨hs⟩ := rows
    exact .association owner ⟨happend hs⟩
  | projection parent sequence => exact .projection parent sequence
  | lambda parent bindings => exact .lambda parent bindings
  | update parent sequence => exact .update parent sequence

end Context.Alike

/-- The statements are the same, but for what they assign if that may differ. -/
structure Statement.Alike (free : Prop) (st st' : Statement) : Prop where
  assigns : ∃ u, st = { st' with update := u }
  eq : ¬ free → st = st'

namespace Statement

theorem alike_refl (free : Prop) (st : Statement) : st.Alike free st :=
  ⟨⟨st.update, rfl⟩, fun _ => rfl⟩

/-- The change does not depend on what is assigned, and has no effect on anything else by it. -/
def Blind (f : Statement → Statement) : Prop :=
  ∀ st u, ∃ u', f { st with update := u } = { f st with update := u' }

theorem Alike.blind {free : Prop} {st st' : Statement} (h : st.Alike free st') {f : Statement → Statement}
    (hf : Blind f) : (f st).Alike free (f st') := by
  obtain ⟨u, rfl⟩ := h.assigns
  obtain ⟨u', hu⟩ := hf st' u
  exact ⟨⟨u', hu⟩, fun hfree => congrArg f (h.eq hfree)⟩

end Statement
end ObjectQuery
