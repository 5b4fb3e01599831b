import ObjectQuery.Proofs.Assigned.Appends
import ObjectQuery.Proofs.Intact.Operators

/-!
Whole queries. The states that compilations pass through are intact, so parameters are found or missed in all of them,
and a schema that was resolved from a specification leaves only the query to blame for a failure.
-/
namespace ObjectQuery

open Build

variable {c : Compiler} {s : BuildState}

theorem Spec.ready_of_resolve {spec : Spec} (h : spec.resolve = .ok c.schema) : c.Ready := by
  have hrealizes := realizes_of_resolve h
  have hdescribes : ∀ r ∈ c.schema.mapping.items, ∃ e ∈ spec.entities, spec.Describes e r :=
    fun r hr => exists_of_mem_of_forall₂ hrealizes.entities hr
  constructor
  · intro r hr
    obtain ⟨e, -, he⟩ := hdescribes r hr
    obtain ⟨t, ht⟩ := he.table
    simp [Database.table?, hrealizes.tables, ht.there]
  · intro r hr name id hm
    obtain ⟨e, -, he⟩ := hdescribes r hr
    obtain ⟨_, t, column, ht, hcolumn⟩ := he.exists_places (Entity.member?_of_mem hm)
    simp [Database.column?, Database.table?, hrealizes.tables, ht.there, hcolumn.there]

/-- Every table and column that the state names is in the database. -/
structure BuildState.Backed (db : Database) (s : BuildState) : Prop where
  rows : ∀ (id : ContextId) (d : Context) r, s.contexts[id]? = some d → d.rows? = some r → (db.table? r.table).isSome
  targets : ∀ (m : StatementId) (st : Statement) t, s.statements[m]? = some st → st.update.target = some t →
    (db.table? t).isSome
  columns : ∀ (m : StatementId) (st : Statement), s.statements[m]? = some st → ∀ i ∈ st.update.items,
    (db.column? i.column).isSome

theorem BuildState.Intact.backed (h : s.Intact c) (hc : c.Ready) : s.Backed c.schema.database where
  rows id d r hd hr := (h.refers id d hd).table r hr hc
  targets m st t hst ht := (h.assigns m st hst).target t ht hc
  columns m st hst i hi := (h.assigns m st hst).items i hi hc

namespace Compiler

theorem Visits.intact {admits : Node → Prop} (h : c.Visits admits s) : s.Intact c := by
  induction h with
  | start => exact BuildState.intact_empty c
  | root o fuel _ _ ih => exact (@secures_root _ o c fuel _ ih).intact

/-- From every context of every state that compilations pass through the parents come to an end, so every search for a
parameter does. That goes for the states in which a sequence is under the scope of a value that is set. -/
theorem ends_of_visits {admits : Node → Prop} (h : c.Visits admits s) :
    (∀ id < s.contexts.length, s.Ends (· < s.contexts.length) (some id)) ∧
      ∀ scope < s.contexts.length, ∀ x, ∃ r, (findBinding? scope x).run s = (.ok r, s) := by
  have hhas : ∀ id < s.contexts.length, s.Has id := fun id hlt => ⟨_, List.getElem?_eq_getElem hlt⟩
  refine ⟨fun id hid => (h.intact.ends id (hhas id hid)).known, fun scope hscope x => ?_⟩
  obtain ⟨r, hr⟩ := h.intact.exists_binding (hhas scope hscope) x
  refine ⟨r, ?_⟩
  change (orStop (bindingFrom s.contexts x s.contexts.length (some scope))).run s = _
  rw [hr]
  rfl

/-- Names are being set to counts, and an association of the employee has just been followed. -/
def namesBeingSet : BuildState :=
  ((@root ⟨fun s => s.contexts.length == 5⟩ company 9 (setNames namesakeCount)).run {}).2

theorem ends_of_visits_namesBeingSet :
    company.Visits (fun _ => True) namesBeingSet ∧ namesBeingSet.contexts[0]?.map Context.parent = some (some 1) ∧
      namesBeingSet.contexts[4]?.map Context.parent = some (some 0) ∧
      namesBeingSet.Ends (· < namesBeingSet.contexts.length) (some 4) ∧
      ∃ r, (findBinding? 4 "e").run namesBeingSet = (.ok r, namesBeingSet) := by
  have hvisits : company.Visits (fun _ => True) namesBeingSet := .root _ 9 .start trivial
  obtain ⟨hends, hfinds⟩ := ends_of_visits hvisits
  exact ⟨hvisits, rfl, rfl, hends 4 (by decide), hfinds 4 (by decide) "e"⟩

/-- No compilation for a schema that was resolved from a specification comes upon a number that names nothing, or fails
with a fault that it looks for in vain. Tables and columns that the mapping or a state on the way names are all there,
whether anything is read from them or only their names are. -/
theorem proper_of_compile_error {spec : Spec} (hspec : spec.resolve = .ok c.schema) (fuel : Nat) (node : Node) :
    c.compile fuel node ≠ .error .dangling ∧
      (∀ e, c.compile fuel node = .error (.failed e) → e.isDefensive = false) ∧
      c.Ready ∧ ∀ s, c.Reached node s → s.Backed c.schema.database := by
  have hready := Spec.ready_of_resolve hspec
  have hproper : ∀ stop, c.compile fuel node = .error stop → stop.Proper := by
    intro stop hstop
    unfold compile at hstop
    split at hstop
    · cases hstop
    · next s hrun =>
      cases hstop
      refine (secures_root c fuel node (BuildState.intact_empty c)).stop _ ?_ hready
      rw [hrun]
  exact ⟨fun h => hproper _ h, fun e h => hproper _ h, hready, fun s h => h.visits.intact.backed hready⟩

/-- An employee is no value that a name could be made of. -/
theorem proper_of_compile_error_setNames :
    Spec.company.resolve = .ok company.schema ∧
      (∃ e, company.compile 9 (setNames (.binary (.arithmetic .add) namesakeCount (.parameter "e"))) =
        .error (.failed e) ∧ e.isDefensive = false) ∧
      company.Reached (setNames namesakeCount) namesBeingSet ∧ namesBeingSet.Backed company.schema.database := by
  have hresolve : Spec.company.resolve = .ok company.schema := rfl
  have hfault : ∃ e, company.compile 9 (setNames (.binary (.arithmetic .add) namesakeCount (.parameter "e"))) =
      .error (.failed e) := ⟨_, rfl⟩
  obtain ⟨e, hfault⟩ := hfault
  have hreached : company.Reached (setNames namesakeCount) namesBeingSet := ⟨_, 9, rfl⟩
  obtain ⟨-, hproper, -⟩ := proper_of_compile_error hresolve 9
    (setNames (.binary (.arithmetic .add) namesakeCount (.parameter "e")))
  obtain ⟨-, -, -, hbacked⟩ := proper_of_compile_error hresolve 9 (setNames namesakeCount)
  exact ⟨hresolve, ⟨e, hfault, hproper e hfault⟩, hreached, hbacked _ hreached⟩

end Compiler
end ObjectQuery
