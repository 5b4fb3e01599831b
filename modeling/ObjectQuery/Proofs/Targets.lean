import ObjectQuery.Proofs.Coherent
import ObjectQuery.Proofs.Reached

/-!
The items of an update belong to its target, at every moment of a compilation. So the last check of an update
never finds an item of another table.
-/
namespace ObjectQuery

open World Build

/-- Items need a target, and all of them are of that table. -/
def Assignments.OfTarget (a : Assignments) : Prop :=
  a.items ≠ [] → ∃ t, a.target = some t ∧ ∀ i ∈ a.items, i.column.table = t

namespace Assignments

variable {a : Assignments}

theorem OfTarget.bind (h : a.OfTarget) (table : TableId) : (a.bind table).OfTarget := by
  intro hne
  obtain ⟨t, ht, hi⟩ := h hne
  exact ⟨t, by simp [Assignments.bind, ht], hi⟩

theorem OfTarget.append (h : a.OfTarget) {items : List SetItem}
    (hi : ∀ i ∈ items, a.target = some i.column.table) : (a.append items).OfTarget := by
  intro hne
  have hold : ∀ i ∈ a.items, a.target = some i.column.table := by
    intro i hm
    obtain ⟨t, ht, hall⟩ := h (List.ne_nil_of_mem hm)
    rw [hall i hm, ht]
  have hall : ∀ i ∈ a.items ++ items, a.target = some i.column.table :=
    List.forall_mem_append.mpr ⟨hold, hi⟩
  obtain ⟨i, hm⟩ := List.exists_mem_of_ne_nil _ hne
  refine ⟨_, hall i hm, fun j hj => ?_⟩
  exact Option.some.inj ((hall j hj).symm.trans (hall i hm))

theorem OfTarget.find?_eq_none (h : a.OfTarget) :
    (a.target.bind fun t => a.items.find? fun i => i.column.table ≠ t) = none := by
  cases ht : a.target with
  | none => rfl
  | some t =>
    refine List.find?_eq_none.mpr fun i hi => ?_
    obtain ⟨t', ht', hall⟩ := h (List.ne_nil_of_mem hi)
    rw [ht] at ht'
    cases ht'
    simp [hall i hi]

end Assignments

variable {c : Compiler} {K : Content c} {F : StatementId → Prop} {σ τ : World} {node : Node}
  {s : BuildState}

theorem Step.ofTarget (h : Step c K F σ τ)
    (ho : ∀ m s, σ.statement? m = some s → s.update.OfTarget) :
    ∀ m s, τ.statement? m = some s → s.update.OfTarget := by
  cases h with
  | begin => exact forall_begin (P := fun _ s => s.update.OfTarget) ho fun hne => absurd rfl hne
  | bind m table => exact forall_alter (P := fun _ s => s.update.OfTarget) ho fun s _ hs => hs.bind table
  | append m items _ fits =>
    exact forall_alter (P := fun _ s => s.update.OfTarget) ho fun s hm hs => hs.append (fits s hm)
  | join | restrict | select | settle | complete =>
    exact forall_alter (P := fun _ s => s.update.OfTarget) ho fun s _ hs => hs
  | _ => exact ho

theorem Compiler.completeUpdate_eq [Observer] {number : StatementId}
    (h : ∀ m, s.statements[number]? = some m → m.update.OfTarget) :
    (c.completeUpdate number).run s =
      (modifyStatement number fun m => { m with kind := .update }).run s := by
  rw [completeUpdate, modifyStatement, run_bind, run_bind, run_statement]
  cases hm : s.statements[number]? with
  | none => rfl
  | some m =>
    have hnone := (h m hm).find?_eq_none
    simp only [Option.elim_some, hnone, run_bind, run_statement, hm]

/-- In every state that a compilation passes through, the items of each update are of its target, and the check
that completes an update finds nothing to complain of. -/
theorem Compiler.Reached.items_ofTarget (h : c.Reached node s) :
    (∀ m ∈ s.statements, m.update.OfTarget) ∧
      ∀ (_ : Observer) (number : StatementId), (c.completeUpdate number).run s =
        (modifyStatement number fun m => { m with kind := .update }).run s := by
  obtain ⟨τ, hs, rfl⟩ := h.steps (.anything c)
  have hall : ∀ m s, τ.statement? m = some s → s.update.OfTarget :=
    hs.preserve (I := fun σ => ∀ m s, σ.statement? m = some s → s.update.OfTarget) valid_start
      (fun m s hm => by simp [statement?, start] at hm) fun _ hstep => hstep.ofTarget
  refine ⟨fun m hm => ?_, fun _ number => Compiler.completeUpdate_eq (hall number)⟩
  obtain ⟨k, hk⟩ := List.getElem?_of_mem hm
  exact hall k m hk

def renameEmployees : Node :=
  (Node.source "Employee").updateWith ⟨["e"], .construct [("name", .literal (.text "x"))]⟩

/-- Stopped between its first item and its completion, the update has a target already. -/
theorem items_ofTarget_renameEmployees :
    ∃ s, Compiler.company.Reached renameEmployees s ∧
      s.statements.map (fun m => (m.kind, m.update.target, m.update.items.length)) =
        [(.select, some 0, 1)] ∧
      (∀ m ∈ s.statements, m.update.OfTarget) ∧
      ∀ (_ : Observer) (number : StatementId), (Compiler.company.completeUpdate number).run s =
        (modifyStatement number fun m => { m with kind := .update }).run s := by
  let o : Observer := ⟨fun s => s.statements.any fun m => !m.update.items.isEmpty⟩
  exact ⟨_, ⟨o, 5, rfl⟩, rfl, Compiler.Reached.items_ofTarget ⟨o, 5, rfl⟩⟩

end ObjectQuery
