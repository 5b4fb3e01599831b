import Mathlib.Data.List.Forall2

/-!
Lists that correspond item by item, and traversals that may fail: a traversal gives a list that corresponds to the one
that it goes through.
-/
namespace ObjectQuery

section Correspondence

variable {α β γ : Type} {R : α → β → Prop} {xs : List α} {ys : List β}

/-- Items have counterparts together when each has one. -/
theorem exists_forall₂_iff : (∃ ys, List.Forall₂ R xs ys) ↔ ∀ x ∈ xs, ∃ y, R x y := by
  induction xs with
  | nil => simp
  | cons x xs ih =>
    simp only [List.forall_mem_cons, ← ih, List.forall₂_cons_left_iff]
    grind

theorem exists_mem_of_forall₂ (h : List.Forall₂ R xs ys) {x : α} (hx : x ∈ xs) : ∃ y ∈ ys, R x y := by
  induction h with
  | nil => cases hx
  | cons hxy _ ih =>
    rcases List.mem_cons.mp hx with rfl | hx
    · exact ⟨_, List.mem_cons_self, hxy⟩
    · obtain ⟨y, hy, hR⟩ := ih hx
      exact ⟨y, List.mem_cons_of_mem _ hy, hR⟩

theorem exists_of_mem_of_forall₂ (h : List.Forall₂ R xs ys) {y : β} (hy : y ∈ ys) : ∃ x ∈ xs, R x y := by
  have hflip : List.Forall₂ (flip R) ys xs := List.Forall₂.flip h
  exact exists_mem_of_forall₂ hflip hy

theorem map_eq_map_of_forall₂ {f : α → γ} {g : β → γ} (h : List.Forall₂ (fun x y => f x = g y) xs ys) :
    xs.map f = ys.map g := by
  rw [← List.forall₂_eq_eq_eq, List.forall₂_map_left_iff, List.forall₂_map_right_iff]
  exact h

/-- What is found by its name on the one side is found on the other. -/
theorem find?_of_forall₂ {name : α → String} {name' : β → String} (hR : ∀ x y, R x y → name x = name' y)
    (h : List.Forall₂ R xs ys) {k : String} {y : β} (hy : ys.find? (fun y => name' y == k) = some y) :
    ∃ x, xs.find? (fun x => name x == k) = some x ∧ R x y := by
  induction h with
  | nil => simp at hy
  | @cons x y' xs ys hxy h ih =>
    rw [List.find?_cons] at hy ⊢
    rw [hR x y' hxy]
    split at hy
    · cases hy
      exact ⟨x, rfl, hxy⟩
    · exact ih hy

end Correspondence

section Traversal

variable {α β ε : Type} {act : Except ε α}

theorem bind_eq_ok_iff {next : α → Except ε β} {b : β} :
    act >>= next = .ok b ↔ ∃ a, act = .ok a ∧ next a = .ok b := by
  cases act <;> simp [bind, Except.bind]

theorem map_eq_ok_iff {g : α → β} {b : β} : g <$> act = .ok b ↔ ∃ a, act = .ok a ∧ g a = b := by
  cases act <;> simp [Functor.map, Except.map]

/-- A traversal gives the results for its items, in order. -/
theorem mapM_eq_ok_iff {f : α → Except ε β} {xs : List α} {ys : List β} :
    xs.mapM f = .ok ys ↔ List.Forall₂ (fun x y => f x = .ok y) xs ys := by
  induction xs generalizing ys with
  | nil => simp [pure, Except.pure, eq_comm]
  | cons x xs ih =>
    simp only [List.mapM_cons, bind_eq_ok_iff, ih, List.forall₂_cons_left_iff, pure, Except.pure, Except.ok.injEq]
    grind

end Traversal
end ObjectQuery
