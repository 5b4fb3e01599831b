import Mathlib.Data.List.Forall2
import ObjectQuery.Proofs.Enumeration.Listed
import ObjectQuery.Proofs.Mirror.Sameness

/-!
Values in select lists. A value that is there already keeps its place, and one that is the same as nothing there gets a
place of its own.
-/
namespace ObjectQuery

namespace SelectList

variable {list more : List SqlExpr} {v : SqlExpr} {i : Nat}

theorem ordinal?_append (h : ordinal? list v = some i) : ordinal? (list ++ more) v = some i := by
  rw [ordinal?, List.findIdx?_append, ← ordinal?, h, Option.some_or]

theorem add_of_ordinal? (h : ordinal? list v = some i) : add list v = (list, i) := by
  rw [add, h]

theorem add_of_missing (h : ordinal? list v = none) : add list v = (list ++ [v], list.length) := by
  rw [add, h]

theorem ordinal?_lt (h : ordinal? list v = some i) : i < list.length :=
  (List.findIdx?_eq_some_iff_getElem.mp h).1

theorem length_le_of_ordinal? (h : ordinal? (list ++ more) v = some i) (hv : ordinal? list v = none) :
    list.length ≤ i := by
  rw [ordinal?, List.findIdx?_append, ← ordinal?, hv, Option.none_or] at h
  obtain ⟨j, -, rfl⟩ := Option.map_eq_some_iff.mp h
  exact Nat.le_add_left _ _

theorem exists_append_add (list : List SqlExpr) (v : SqlExpr) : ∃ more, (add list v).1 = list ++ more := by
  cases h : ordinal? list v with
  | some i => exact ⟨[], by rw [add_of_ordinal? h, List.append_nil]⟩
  | none => exact ⟨[v], by rw [add_of_missing h]⟩

theorem add_lt (list : List SqlExpr) (v : SqlExpr) : (add list v).2 < (add list v).1.length := by
  cases h : ordinal? list v with
  | some i =>
    rw [add_of_ordinal? h]
    exact ordinal?_lt h
  | none => simp [add_of_missing h]

/-- A value that is the same as itself is found where it was put. -/
theorem ordinal?_add (hv : v.same v) : ordinal? (add list v).1 v = some (add list v).2 := by
  cases h : ordinal? list v with
  | some i => rwa [add_of_ordinal? h]
  | none =>
    rw [add_of_missing h, ordinal?, List.findIdx?_append, ← ordinal?, h]
    simp [List.findIdx?_cons, hv]

theorem length_le_add (more : List SqlExpr) (hv : ordinal? list v = none) : list.length ≤ (add (list ++ more) v).2 := by
  cases h : ordinal? (list ++ more) v with
  | some i =>
    rw [add_of_ordinal? h]
    exact length_le_of_ordinal? h hv
  | none =>
    rw [add_of_missing h, List.length_append]
    exact Nat.le_add_right _ _

end SelectList

namespace Compiler

open SelectList

variable {list more : List SqlExpr} {items : List Item}

theorem exists_append_register (list : List SqlExpr) (items : List Item) :
    ∃ more, (register list items).1 = list ++ more := by
  induction items generalizing list with
  | nil => exact ⟨[], (List.append_nil list).symm⟩
  | cons item rest ih =>
    obtain ⟨more, hmore⟩ := exists_append_add list item.value
    obtain ⟨further, hfurther⟩ := ih (add list item.value).1
    exact ⟨more ++ further, by rw [register, hfurther, hmore, List.append_assoc]⟩

/-- The item at its place in the list that results: where it is found if it is the same as itself, and behind all that
was there before if that was nothing like it. -/
structure Entered (before after : List SqlExpr) (item out : Item) (i : Nat) : Prop where
  out : out = { item with ordinal := some i }
  lt : i < after.length
  found : item.value.same item.value → ordinal? after item.value = some i
  behind : ordinal? before item.value = none → before.length ≤ i

theorem forall₂_register (list : List SqlExpr) (items : List Item) :
    List.Forall₂ (fun item out => ∃ i, Entered list (register list items).1 item out i) items
      (register list items).2 := by
  have hplaced : ∀ before, List.Forall₂
      (fun item out => ∃ i, Entered list (register (list ++ before) items).1 item out i)
      items (register (list ++ before) items).2 := by
    induction items with
    | nil => exact fun _ => .nil
    | cons item rest ih =>
      intro before
      obtain ⟨added, hadded⟩ := exists_append_add (list ++ before) item.value
      obtain ⟨more, hmore⟩ := exists_append_register (add (list ++ before) item.value).1 rest
      refine .cons ⟨(add (list ++ before) item.value).2, rfl, ?_, fun hv => ?_, length_le_add before⟩ ?_
      · rw [register, hmore, List.length_append]
        exact Nat.lt_add_right _ (add_lt _ _)
      · rw [register, hmore]
        exact ordinal?_append (ordinal?_add hv)
      · have hrest := ih (before ++ added)
        rw [← List.append_assoc, ← hadded] at hrest
        exact hrest
  simpa using hplaced []

/-- What is in the list already leaves it as it is. -/
theorem register_of_ordinals (h : ∀ out ∈ (register list items).2, ∃ i, ordinal? list out.value = some i) :
    (register list items).1 = list := by
  induction items with
  | nil => rfl
  | cons item rest ih =>
    obtain ⟨i, hi⟩ := h { item with ordinal := some (add list item.value).2 } List.mem_cons_self
    have hadd := add_of_ordinal? hi
    rw [register, hadd] at h ⊢
    exact ih fun out hmem => h out (List.mem_cons_of_mem _ hmem)

theorem ordinal?_of_not_same {v : SqlExpr} (h : ¬ v.same v) : ordinal? list v = none := by
  refine List.findIdx?_eq_none_iff.mpr fun x _ => Bool.eq_false_iff.mpr fun hx => h ?_
  exact SqlExpr.same_trans (by rwa [SqlExpr.same_comm]) hx

variable {raw raw' : List Item} {before after : List SqlExpr} {item item' out out' : Item} {i j : Nat}

theorem Entered.again_iff (hp : Entered before after item out i) (hp' : Entered after (after ++ more) item' out' j)
    (hmember : item'.member = item.member) :
    out' = out ↔ item'.value = item.value ∧ item.value.same item.value := by
  constructor
  · intro heq
    have hvalue : item'.value = item.value := by simpa [hp.out, hp'.out] using congrArg Item.value heq
    refine ⟨hvalue, ?_⟩
    by_contra hnot
    have hij : j = i := by simpa [hp.out, hp'.out] using congrArg Item.ordinal heq
    exact Nat.lt_irrefl _ (Nat.lt_of_lt_of_le hp.lt (hij ▸ hp'.behind (ordinal?_of_not_same (hvalue ▸ hnot))))
  · rintro ⟨heq, hsame⟩
    have hj := hp'.found (heq ▸ hsame)
    rw [heq, ordinal?_append (hp.found hsame), Option.some.injEq] at hj
    rw [hp.out, hp'.out, ← hj, ← heq, ← hmember]

theorem forall₂_aligned {α β γ δ : Type} {R : α → β → Prop} {S : α → γ → Prop} {T : γ → δ → Prop} {as bs cs ds}
    (hS : List.Forall₂ S as cs) (hR : List.Forall₂ R as bs) (hT : List.Forall₂ T cs ds) :
    List.Forall₂ (fun b d => ∃ a c, R a b ∧ S a c ∧ T c d) bs ds := by
  induction hS generalizing bs ds with
  | nil =>
    cases hR
    cases hT
    exact .nil
  | cons hac _ ih =>
    cases hR with
    | cons hab hR =>
      cases hT with
      | cons hcd hT => exact .cons ⟨_, _, hab, hac, hcd⟩ (ih hR hT)

/-- Items are entered again as they were exactly if they have the same values as before, and these are the same as
themselves. -/
theorem register_again (list : List SqlExpr) {P : SqlExpr → SqlExpr → Prop}
    (h : List.Forall₂ (fun x y : Item => y.member = x.member ∧ P x.value y.value) raw raw') :
    List.Forall₂ (fun x y : Item => y.member = x.member ∧ P x.value y.value ∧
        (y = x ↔ y.value = x.value ∧ x.value.same x.value))
      (register list raw).2 (register (register list raw).1 raw').2 := by
  have haligned := forall₂_aligned h (forall₂_register list raw) (forall₂_register (register list raw).1 raw')
  obtain ⟨more, hmore⟩ := exists_append_register (register list raw).1 raw'
  refine haligned.imp ?_
  rintro out out' ⟨item, item', ⟨i, hp⟩, ⟨hmember, hvalues⟩, j, hp'⟩
  rw [hmore] at hp'
  have hiff := hp.again_iff hp' hmember
  rw [show out.member = item.member by rw [hp.out], show out'.member = item'.member by rw [hp'.out],
    show out.value = item.value by rw [hp.out], show out'.value = item'.value by rw [hp'.out]]
  exact ⟨hmember, hvalues, hiff⟩

/-- If they all are, nothing new is entered. -/
theorem register_again_of_eq (h : (register (register list raw).1 raw').2 = (register list raw).2)
    (hsame : ∀ item ∈ (register list raw).2, item.value.same item.value) :
    (register (register list raw).1 raw').1 = (register list raw).1 := by
  refine register_of_ordinals fun out hout => ?_
  rw [h] at hout
  obtain ⟨item, -, i, hp⟩ := exists_of_mem_of_forall₂ (forall₂_register list raw) hout
  have hvalue : out.value = item.value := by rw [hp.out]
  exact ⟨i, hvalue ▸ hp.found (hvalue ▸ hsame out hout)⟩

end Compiler
end ObjectQuery
