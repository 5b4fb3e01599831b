/-!
Lists whose items have pairwise distinct keys, in order of first insertion. `Keyed.insert` keeps the
place of a known key and gives it the new item; a new key goes to the end.
-/
namespace ObjectQuery

structure Keyed {α : Type} (key : α → String) where
  items : List α
  distinct : (items.map key).Nodup

namespace Keyed

variable {α : Type} {key : α → String}

def empty : Keyed key := ⟨[], .nil⟩

def find? (xs : Keyed key) (k : String) : Option α :=
  xs.items.find? fun x => key x == k

theorem mem_of_find? {xs : Keyed key} {k : String} {x : α} (h : xs.find? k = some x) : x ∈ xs.items :=
  List.mem_of_find?_eq_some h

theorem key_of_find? {xs : Keyed key} {k : String} {x : α} (h : xs.find? k = some x) : key x = k := by
  simpa using List.find?_some h

/-- The item takes the place of the one with its key, or goes to the end. -/
def place (key : α → String) (x : α) (items : List α) : List α :=
  if key x ∈ items.map key then items.map fun y => if key y = key x then x else y
  else items ++ [x]

theorem map_key_place_of_mem {x : α} {items : List α} (h : key x ∈ items.map key) :
    (place key x items).map key = items.map key := by
  simp only [place, if_pos h, List.map_map]
  apply List.map_congr_left
  intro y _
  by_cases hy : key y = key x <;> simp [hy]

theorem map_key_place_of_not_mem {x : α} {items : List α} (h : key x ∉ items.map key) :
    (place key x items).map key = items.map key ++ [key x] := by
  rw [place, if_neg h, List.map_append, List.map_singleton]

theorem distinct_place (x : α) {items : List α} (h : (items.map key).Nodup) :
    ((place key x items).map key).Nodup := by
  by_cases hx : key x ∈ items.map key
  · rwa [map_key_place_of_mem hx]
  · rw [map_key_place_of_not_mem hx, List.nodup_append]
    refine ⟨h, by simp, fun a ha b hb => ?_⟩
    rw [List.mem_singleton.mp hb]
    exact fun hab => hx (hab ▸ ha)

def insert (xs : Keyed key) (x : α) : Keyed key :=
  ⟨place key x xs.items, distinct_place x xs.distinct⟩

def ofList (items : List α) : Keyed key :=
  items.foldl insert empty

theorem find?_eq_some_of_mem {items : List α} (h : (items.map key).Nodup) {x : α} (hx : x ∈ items) :
    items.find? (fun y => key y == key x) = some x := by
  induction items with
  | nil => cases hx
  | cons y items ih =>
    rw [List.map_cons, List.nodup_cons] at h
    rcases List.mem_cons.mp hx with rfl | hin
    · simp
    · have hne : key y ≠ key x := fun hy => h.1 (hy ▸ List.mem_map_of_mem hin)
      rw [List.find?_cons_of_neg (by simpa using hne)]
      exact ih h.2 hin

end Keyed
end ObjectQuery
