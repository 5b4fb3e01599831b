import ObjectQuery.Proofs.Intact.Queries

/-!
How much is converted. A conversion of the key columns alone, of a single field and of everything go the same way: they
make the same calls and leave the same state. The key columns are some of all columns, in their order.
-/
namespace ObjectQuery

open Build

variable {α β γ δ : Type} {R : α → β → Prop} {Q : γ → δ → Prop}

/-- Where two actions end of which the first gives less. It may come upon a number that names nothing where the second
does not look. -/
inductive Thinned (R : α → β → Prop) : Except Stop α × BuildState → Except Stop β × BuildState → Prop
  | gives {a b s} (h : R a b) : Thinned R (.ok a, s) (.ok b, s)
  | stops {stop s} : Thinned R (.error stop, s) (.error stop, s)
  | dangles {s r} : Thinned R (.error .dangling, s) r

/-- From every state the first action does what the second does, and gives less. -/
def Build.Thins (R : α → β → Prop) (act : Build α) (act' : Build β) : Prop :=
  ∀ s, Thinned R (act.run s) (act'.run s)

namespace Build.Thins

variable {act : Build α} {act' : Build β} {go : α → Build γ} {go' : β → Build δ}

theorem pure {a : α} {b : β} (h : R a b) : Thins R (pure a) (pure b) :=
  fun _ => .gives h

theorem bind (h : Thins R act act') (hgo : ∀ a b, R a b → Thins Q (go a) (go' b)) :
    Thins Q (act >>= go) (act' >>= go') := by
  intro s
  have hs := h s
  rw [run_bind, run_bind]
  generalize act.run s = r at hs ⊢
  generalize act'.run s = r' at hs ⊢
  cases hs with
  | gives hab => exact hgo _ _ hab _
  | stops => exact .stops
  | dangles => exact .dangles

theorem next (act : Build α) {go : α → Build γ} {go' : α → Build δ} (hgo : ∀ a, Thins Q (go a) (go' a)) :
    Thins Q (act >>= go) (act >>= go') := by
  intro s
  rw [run_bind, run_bind]
  cases act.run s with
  | mk result t =>
    cases result with
    | ok a => exact hgo a t
    | error => exact .stops

theorem mapM (xs : List α) {f : α → Build γ} {g : α → Build δ} (h : ∀ x, Thins Q (f x) (g x)) :
    Thins (List.Forall₂ Q) (xs.mapM f) (xs.mapM g) := by
  induction xs with
  | nil => exact pure .nil
  | cons x xs ih =>
    simp only [List.mapM_cons]
    exact (h x).bind fun a b hab => ih.bind fun as bs hs => pure (.cons hab hs)

end Build.Thins

theorem sublist_flatten_of_forall₂ {xs ys : List (List α)} (h : List.Forall₂ List.Sublist xs ys) :
    xs.flatten.Sublist ys.flatten := by
  induction h with
  | nil => exact .slnil
  | cons hxy _ ih => exact hxy.append ih

namespace Compiler

variable {c : Compiler} {rec : Calls} {s : BuildState} {id : ContextId}

theorem thins_rowColumns (id : ContextId) (outer : Option String) :
    Thins List.Sublist (c.rowColumns id outer .key) (c.rowColumns id outer .all) := by
  refine .next _ fun d => .next _ fun rows => .next _ fun e => ?_
  cases h : c.schema.database.keyColumns? rows.table with
  | none => exact fun _ => .dangles
  | some keys => exact .pure (List.filter_sublist.map _)

/-- The members of an object are thinned out one by one. -/
theorem thins_members (h : ∀ id steps, Thins List.Sublist (rec.members id steps .key) (rec.members id steps .all))
    (id : ContextId) (steps : List String) :
    Thins List.Sublist (c.members rec id steps .key) (c.members rec id steps .all) := by
  refine .next _ fun d => ?_
  cases d with
  | field | computed => exact .pure (.refl _)
  | table rows | association rows => exact thins_rowColumns rows none
  | object owner objectSteps =>
    refine .next _ fun d => ?_
    split
    · refine (Thins.mapM (Q := List.Sublist) _ fun name => ?_).bind fun groups groups' hgroups => ?_
      · exact (h owner _).bind fun items items' hitems => .pure (hitems.map _)
      · exact .pure (sublist_flatten_of_forall₂ hgroups)
    · exact thins_rowColumns owner _

section

variable [Observer]

theorem thins_calls (fuel : Nat) (id : ContextId) (steps : List String) :
    Thins List.Sublist ((c.calls fuel).members id steps .key) ((c.calls fuel).members id steps .all) := by
  induction fuel generalizing id steps with
  | zero => exact fun _ => .stops
  | succ fuel ih => exact thins_members ih id steps

theorem members_field (fuel : Nat) (id : ContextId) (steps : List String) :
    (c.calls fuel).members id steps .field = (c.calls fuel).members id steps .all := by
  induction fuel generalizing id steps with
  | zero => rfl
  | succ fuel ih =>
    change c.members (c.calls fuel) id steps .field = c.members (c.calls fuel) id steps .all
    simp only [members, ih]
    rfl

theorem thins_itemsOf (fuel : Nat) (id : ContextId) (steps : List String) :
    Thins List.Sublist (itemsOf (c.calls fuel) id steps .key) (itemsOf (c.calls fuel) id steps .all) :=
  (thins_calls fuel id steps).bind fun _ _ h => .pure (h.map _)

/-- How much is converted only decides which items there are. From every state that compilations pass through, and for
every sequence and path, a field gives the items that everything gives. If the schema has the tables and columns that
its mapping names, as every resolved one has (`Spec.ready_of_resolve`), the conversions also stop for the same reason or
give results, and leave the same state, and the keys are some of all items, in their order. -/
theorem itemsOf_extents {admits : Node → Prop} (hv : c.Visits admits s) (hs : s.Sequence id) (fuel : Nat)
    (steps : List String) :
    (itemsOf (c.calls fuel) id steps .field).run s = (itemsOf (c.calls fuel) id steps .all).run s ∧
      (c.Ready → ∃ t, (∃ keys items, (itemsOf (c.calls fuel) id steps .key).run s = (.ok keys, t) ∧
          (itemsOf (c.calls fuel) id steps .all).run s = (.ok items, t) ∧ keys.Sublist items) ∨
        ∃ stop, (itemsOf (c.calls fuel) id steps .key).run s = (.error stop, t) ∧
          (itemsOf (c.calls fuel) id steps .all).run s = (.error stop, t)) := by
  refine ⟨by simp only [itemsOf, members_field], fun hc => ?_⟩
  have hlands := secures_itemsOf (c.calls_secure fuel) hs steps .key hv.intact
  have hthins := thins_itemsOf (c := c) fuel id steps s
  generalize (itemsOf (c.calls fuel) id steps .key).run s = r at hlands hthins ⊢
  generalize (itemsOf (c.calls fuel) id steps .all).run s = r' at hthins ⊢
  cases hthins with
  | gives h => exact ⟨_, .inl ⟨_, _, rfl, rfl, h⟩⟩
  | stops => exact ⟨_, .inr ⟨_, rfl, rfl⟩⟩
  -- in the states that compilations pass through every number names something
  | dangles => exact (hlands.stop .dangling rfl hc).elim

end

def employeesWithBosses : Node :=
  (Node.source "Employee").select
    ⟨["e"], .construct [("who", .parameter "e"), ("boss", .member (.parameter "e") "manager")]⟩

/-- The projection has just been entered, and the association with the manager is not followed yet. -/
def bossesProjected : BuildState :=
  ((@root ⟨fun s => s.contexts.length == 2⟩ company 9 employeesWithBosses).run {}).2

theorem itemsOf_extents_bossesProjected :
    company.Ready ∧ company.Visits (fun _ => True) bossesProjected ∧ bossesProjected.Sequence 1 ∧
      ∃ t keys items, (itemsOf (company.calls 9) 1 [] .key).run bossesProjected = (.ok keys, t) ∧
        (itemsOf (company.calls 9) 1 [] .all).run bossesProjected = (.ok items, t) ∧ keys.Sublist items ∧
        keys.map Item.member = [some "who.id", some "boss.id"] ∧
        items.map Item.member = [some "who.id", some "who.name", some "boss.id", some "boss.name"] := by
  have hresolve : Spec.company.resolve = .ok company.schema := rfl
  have hready : company.Ready := Spec.ready_of_resolve hresolve
  have hvisits : company.Visits (fun _ => True) bossesProjected := .root _ 9 .start trivial
  have hsequence : bossesProjected.Sequence 1 := ⟨_, rfl, rfl⟩
  have hkeys : ∃ keys t, (itemsOf (company.calls 9) 1 [] .key).run bossesProjected = (.ok keys, t) ∧
      keys.map Item.member = [some "who.id", some "boss.id"] := ⟨_, _, rfl, rfl⟩
  have hitems : ∃ items t, (itemsOf (company.calls 9) 1 [] .all).run bossesProjected = (.ok items, t) ∧
      items.map Item.member = [some "who.id", some "who.name", some "boss.id", some "boss.name"] := ⟨_, _, rfl, rfl⟩
  obtain ⟨keys, u, hkey, hkeys⟩ := hkeys
  obtain ⟨items, v, hall, hitems⟩ := hitems
  obtain ⟨t, hend⟩ := (itemsOf_extents hvisits hsequence 9 []).2 hready
  rw [hkey, hall] at hend
  cases hend with
  | inl h =>
    obtain ⟨_, _, ⟨⟩, ⟨⟩, hsublist⟩ := h
    exact ⟨hready, hvisits, hsequence, _, keys, items, hkey, hall, hsublist, hkeys, hitems⟩
  | inr h =>
    obtain ⟨_, h, -⟩ := h
    cases h

end Compiler
end ObjectQuery
