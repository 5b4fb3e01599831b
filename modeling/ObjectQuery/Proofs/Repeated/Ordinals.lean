import ObjectQuery.Proofs.Repeated.Again

/-!
Conversion with ordinals and without. Both convert to the same items; with ordinals, each item has its place in the
select list, where what was there before stays, and nothing is put in that is there already.
-/
namespace ObjectQuery

open Build

/-! What is not the same as itself. -/

def SqlExpr.isNaN : SqlExpr → Bool
  | .literal v => v.isNaN
  | .parameter _ (some v) => v.isNaN
  | _ => false

def SqlExpr.holdsNaN (v : SqlExpr) : Bool :=
  v.leaves.any isNaN

theorem Literal.same_self (v : Literal) : v.same v = !v.isNaN := by
  cases v with
  | float x =>
    rw [Bool.eq_iff_iff, same, Binary64.equals_self_iff]
    simp [isNaN]
  | bool | int | text => simp [same, isNaN]

mutual

theorem SqlExpr.same_self (v : SqlExpr) : v.same v = !v.leaves.any SqlExpr.isNaN := by
  cases v with
  | column | null | subquery | star => simp [SqlExpr.same, SqlExpr.leaves, SqlExpr.isNaN]
  | literal v => simp [SqlExpr.same, SqlExpr.leaves, SqlExpr.isNaN, v.same_self]
  | parameter name value =>
    cases value <;> simp [SqlExpr.same, SqlExpr.leaves, SqlExpr.isNaN, Literal.sameOption, Literal.same_self]
  | arithmetic op a b => simp [SqlExpr.same, SqlExpr.leaves, a.same_self, b.same_self]
  | function name args => simp [SqlExpr.same, SqlExpr.leaves, SqlExpr.sameAll_self args]
  | condition p => simp [SqlExpr.same, SqlExpr.leaves, p.same_self]
  termination_by structural v

theorem SqlExpr.sameAll_self (vs : List SqlExpr) :
    SqlExpr.sameAll vs vs = !(SqlExpr.leavesAll vs).any SqlExpr.isNaN := by
  cases vs with
  | nil => rfl
  | cons v vs => simp [SqlExpr.sameAll, SqlExpr.leavesAll, v.same_self, SqlExpr.sameAll_self vs]
  termination_by structural vs

theorem Predicate.same_self (p : Predicate) : p.same p = !p.leaves.any SqlExpr.isNaN := by
  cases p with
  | always | never => rfl
  | compare op a b => simp [Predicate.same, Predicate.leaves, a.same_self, b.same_self]
  | isNull v => simp [Predicate.same, Predicate.leaves, v.same_self]
  | and p q | or p q => simp [Predicate.same, Predicate.leaves, p.same_self, q.same_self]
  | not p => simp [Predicate.same, Predicate.leaves, p.same_self]
  termination_by structural p

end

/-- A value is the same as itself exactly if it holds no NaN. -/
theorem SqlExpr.same_self_iff (v : SqlExpr) : v.same v ↔ v.holdsNaN = false := by
  rw [same_self, holdsNaN, Bool.not_eq_true']

namespace SelectList

variable {list : List SqlExpr} {v : SqlExpr} {i : Nat}

theorem exists_same_of_ordinal? (h : ordinal? list v = some i) : ∃ x, list[i]? = some x ∧ x.same v := by
  obtain ⟨hlt, hsame, -⟩ := List.findIdx?_eq_some_iff_getElem.mp h
  exact ⟨list[i], List.getElem?_eq_getElem hlt, hsame⟩

theorem not_same_of_missing (h : ordinal? list v = none) : ∀ x ∈ list, ¬ x.same v := by
  simpa [ordinal?] using h

end SelectList

namespace Compiler

open SelectList

/-- The items with their places in a list that had some values before, and now has others behind them. -/
structure Registered (before added : List SqlExpr) (items entered : List Item) : Prop where
  /-- Nothing becomes of an item but that it has a place, and its value is there, or one that is the same. -/
  placed : List.Forall₂ (fun item out => ∃ i v, out = { item with ordinal := some i } ∧
    (before ++ added)[i]? = some v ∧ (v = item.value ∨ v.same item.value)) items entered
  origin : ∀ w ∈ added, ∃ item ∈ items, item.value = w
  apart : ∀ v ∈ before, ∀ w ∈ added, ¬ v.same w
  pairwise : added.Pairwise fun v w => ¬ v.same w

variable {before added list : List SqlExpr} {item : Item} {items entered rest : List Item} {i : Nat}

theorem Registered.nil (list : List SqlExpr) : Registered list [] [] [] :=
  ⟨.nil, nofun, fun _ _ => nofun, .nil⟩

theorem Registered.known (h : Registered list added rest entered) (hi : ordinal? list item.value = some i) :
    Registered list added (item :: rest) ({ item with ordinal := some i } :: entered) where
  placed := by
    obtain ⟨x, hx, hsame⟩ := exists_same_of_ordinal? hi
    have hlt := (List.getElem?_eq_some_iff.mp hx).1
    exact .cons ⟨i, x, rfl, (List.getElem?_append_left hlt).trans hx, .inr hsame⟩ h.placed
  origin w hw := by
    obtain ⟨item', hmem, hvalue⟩ := h.origin w hw
    exact ⟨item', List.mem_cons_of_mem _ hmem, hvalue⟩
  apart := h.apart
  pairwise := h.pairwise

theorem Registered.new (h : Registered (list ++ [item.value]) added rest entered)
    (hi : ordinal? list item.value = none) :
    Registered list (item.value :: added) (item :: rest)
      ({ item with ordinal := some list.length } :: entered) where
  placed := by
    refine .cons ⟨list.length, item.value, rfl, ?_, .inl rfl⟩ ?_
    · simp
    · simpa using h.placed
  origin w hw := by
    obtain rfl | hw := List.mem_cons.mp hw
    · exact ⟨item, List.mem_cons_self, rfl⟩
    · obtain ⟨item', hmem, hvalue⟩ := h.origin w hw
      exact ⟨item', List.mem_cons_of_mem _ hmem, hvalue⟩
  apart v hv w hw := by
    obtain rfl | hw := List.mem_cons.mp hw
    · exact not_same_of_missing hi v hv
    · exact h.apart v (List.mem_append_left _ hv) w hw
  pairwise := .cons (h.apart item.value (by simp)) h.pairwise

theorem registered_register (list : List SqlExpr) (items : List Item) :
    ∃ added, (register list items).1 = list ++ added ∧ Registered list added items (register list items).2 := by
  induction items generalizing list with
  | nil => exact ⟨[], (List.append_nil list).symm, .nil list⟩
  | cons item rest ih =>
    cases hi : ordinal? list item.value with
    | some i =>
      obtain ⟨added, hadded, hrest⟩ := ih list
      rw [register, add_of_ordinal? hi]
      exact ⟨added, hadded, hrest.known hi⟩
    | none =>
      obtain ⟨added, hadded, hrest⟩ := ih (list ++ [item.value])
      rw [register, add_of_missing hi]
      exact ⟨item.value :: added, by simpa using hadded, hrest.new hi⟩

/-- What is put in is not there yet, unless it is not even the same as itself. -/
theorem Registered.distinct (h : Registered before added items entered)
    (hitems : ∀ item ∈ items, item.value.holdsNaN = false) : added.Nodup ∧ before.Disjoint added := by
  have hself : ∀ w ∈ added, w.same w := by
    intro w hw
    obtain ⟨item, hmem, rfl⟩ := h.origin w hw
    exact item.value.same_self_iff.mpr (hitems item hmem)
  constructor
  · refine h.pairwise.imp_of_mem fun hv _ hvw => ?_
    rintro rfl
    exact hvw (hself _ hv)
  · exact fun v hv hw => h.apart v hv v hw (hself v hw)

variable {c : Compiler} {s : BuildState}

/-- Conversion with ordinals fails as conversion without does. Where the one converts, so does the other, to the same
items with the places of their values in the select list; this list is all that it writes besides, and it only grows,
by values that are not in it. -/
theorem selectItems_agrees {admits : Node → Prop} (h : c.Visits admits s) (n : Nat) (id : ContextId)
    (steps : List String) (extent : Extent) :
    (∀ stop t, (itemsOf (c.calls n) id steps extent).run s = (.error stop, t) →
      (selectItems (c.calls n) id steps extent).run s = (.error stop, t)) ∧
    ∀ items t, (itemsOf (c.calls n) id steps extent).run s = (.ok items, t) →
      ∃ d st added entered, s.contexts[id]? = some d ∧ s.statements[d.statement]? = some st ∧
        (selectItems (c.calls n) id steps extent).run s =
          (.ok entered, t.alter d.statement fun m => { m with select := st.select ++ added }) ∧
        Registered st.select added items entered ∧
        ((∀ item ∈ items, item.value.holdsNaN = false) → added.Nodup ∧ st.select.Disjoint added) := by
  constructor
  · intro stop t hrun
    rw [selectItems, run_bind, hrun]
  · intro items t hrun
    obtain ⟨d, hd⟩ := has_of_run_itemsOf hrun
    obtain ⟨st, hst⟩ : ∃ st, s.statements[d.statement]? = some st :=
      ⟨_, List.getElem?_eq_getElem (h.intact.refers id d hd).statement⟩
    -- conversion adds joins to the statement, but leaves its select list alone
    have hext := (derives_itemsOf (c.calls_derive n) id steps extent).extends_of_run hrun
    obtain ⟨more, hd'⟩ := hext.contexts id d hd
    obtain ⟨joins, -, hst'⟩ := hext.statements _ _ hst
    rw [← Context.statement_followAll more d] at hst'
    have henter := run_enterItems hd' hst' items
    rw [Context.statement_followAll] at henter
    obtain ⟨added, hadded, hregistered⟩ := registered_register st.select items
    refine ⟨d, st, added, _, hd, hst, ?_, hregistered, hregistered.distinct⟩
    rw [selectItems, run_bind, hrun, ← hadded]
    exact henter

end Compiler

/-- For the staff, the name of an employee is selected already, the number is not. -/
theorem Compiler.selectItems_agrees_staff :
    company.Visits (fun _ => True) staffBuilt ∧
      ∃ (items entered : List Item) (t : BuildState) (d : Context) (st : Statement) (added : List SqlExpr),
        (itemsOf (company.calls 12) 0 [] .all).run staffBuilt = (.ok items, t) ∧ items.length = 2 ∧
        staffBuilt.contexts[0]? = some d ∧ staffBuilt.statements[d.statement]? = some st ∧
        (selectItems (company.calls 12) 0 [] .all).run staffBuilt =
          (.ok entered, t.alter d.statement fun m => { m with select := st.select ++ added }) ∧
        added.Nodup ∧ st.select.Disjoint added ∧ entered.map Item.ordinal = [some 4, some 0] := by
  have hvisits : company.Visits (fun _ => True) staffBuilt := .root .absent 12 .start trivial
  have hitems : ∃ items t, (itemsOf (company.calls 12) 0 [] .all).run staffBuilt = (.ok items, t) ∧
      items.length = 2 ∧ ∀ item ∈ items, item.value.holdsNaN = false := ⟨_, _, rfl, rfl, by decide⟩
  have hentered : ∃ entered u, (selectItems (company.calls 12) 0 [] .all).run staffBuilt = (.ok entered, u) ∧
      entered.map Item.ordinal = [some 4, some 0] := ⟨_, _, rfl, rfl⟩
  obtain ⟨items, t, hrun, hlength, hnan⟩ := hitems
  obtain ⟨entered, u, hselect, hordinals⟩ := hentered
  obtain ⟨d, st, added, entered', hd, hst, hselect', -, hdistinct⟩ :=
    (selectItems_agrees hvisits 12 0 [] .all).2 items t hrun
  obtain ⟨rfl, rfl⟩ : entered = entered' ∧ u = _ := by simpa using hselect.symm.trans hselect'
  obtain ⟨hnodup, hdisjoint⟩ := hdistinct hnan
  exact ⟨hvisits, items, entered, t, d, st, added, hrun, hlength, hd, hst, hselect', hnodup, hdisjoint, hordinals⟩

end ObjectQuery
