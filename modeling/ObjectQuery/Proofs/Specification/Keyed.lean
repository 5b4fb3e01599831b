import Mathlib.Data.List.Induction
import ObjectQuery.Keyed

/-!
What a list becomes as a keyed one. The keys are those of the list in order of first occurrence, and every key has the
last item that was given for it.
-/
namespace ObjectQuery.Keyed

variable {α : Type} {key : α → String} {items : List α}

theorem items_insert (xs : Keyed key) (x : α) : (xs.insert x).items = place key x xs.items := rfl

theorem ofList_append_singleton (items : List α) (x : α) :
    (ofList (items ++ [x]) : Keyed key) = (ofList items).insert x := by
  simp [ofList]

/-- Keys are in order of first occurrence. -/
theorem map_key_ofList (items : List α) :
    (ofList items : Keyed key).items.map key = (items.map key).eraseDups := by
  induction items using List.reverseRecOn with
  | nil => rfl
  | append_singleton items x ih =>
    have hmem : key x ∈ (ofList items : Keyed key).items.map key ↔ key x ∈ items.map key := by
      rw [ih, List.mem_eraseDups]
    rw [ofList_append_singleton, items_insert, List.map_append, List.eraseDups_append, ← ih]
    by_cases hx : key x ∈ items.map key
    · rw [map_key_place_of_mem (hmem.mpr hx)]
      simp [List.removeAll, List.mem_map.mp hx]
    · have hnew : [key x].removeAll (items.map key) = [key x] := by simpa [List.removeAll] using hx
      rw [map_key_place_of_not_mem (mt hmem.mp hx), List.map_singleton, hnew]
      rfl

/-- An item is found under its key; what is found under other keys stays. -/
theorem find?_place (x : α) (items : List α) (k : String) :
    (place key x items).find? (fun y => key y == k) =
      if key x = k then some x else items.find? fun y => key y == k := by
  unfold place
  split
  · next hx =>
    have hkeys : ((fun y => key y == k) ∘ fun y => if key y = key x then x else y) = fun y => key y == k := by
      funext y
      by_cases hy : key y = key x <;> simp [hy]
    rw [List.find?_map, hkeys]
    cases hfind : items.find? fun y => key y == k with
    | none =>
      obtain ⟨y, hy, hyx⟩ := List.mem_map.mp hx
      have hne : key y ≠ k := by simpa using List.find?_eq_none.mp hfind y hy
      simp [← hyx, hne]
    | some y =>
      have hy : key y = k := by simpa using List.find?_some hfind
      by_cases hk : key x = k
      · simp [hy, hk]
      · simp [hy, hk, Ne.symm hk]
  · next hx =>
    rw [List.find?_append]
    by_cases hk : key x = k
    · have hnone : items.find? (fun y => key y == k) = none := by
        rw [List.find?_eq_none]
        intro y hy hyk
        have hyk : key y = k := by simpa using hyk
        exact hx (List.mem_map.mpr ⟨y, hy, hyk.trans hk.symm⟩)
      simp [hnone, hk]
    · simp [hk]

theorem find?_insert (xs : Keyed key) (x : α) (k : String) :
    (xs.insert x).find? k = if key x = k then some x else xs.find? k :=
  find?_place x xs.items k

/-- Every key has the last item that was given for it. -/
theorem find?_ofList (items : List α) (k : String) :
    (ofList items : Keyed key).find? k = items.reverse.find? fun x => key x == k := by
  induction items using List.reverseRecOn with
  | nil => rfl
  | append_singleton items x ih =>
    rw [ofList_append_singleton, find?_insert, ih, List.reverse_append, List.reverse_singleton, List.singleton_append]
    by_cases hk : key x = k <;> simp [hk]

theorem items_ofList (h : (items.map key).Nodup) : (ofList items : Keyed key).items = items := by
  induction items using List.reverseRecOn with
  | nil => rfl
  | append_singleton items x ih =>
    rw [List.map_append, List.nodup_append] at h
    have hx : key x ∉ items.map key := fun hx => h.2.2 _ hx _ (by simp) rfl
    rw [ofList_append_singleton, items_insert, ih h.1, place, if_neg hx]

end ObjectQuery.Keyed
