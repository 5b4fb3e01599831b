import ObjectQuery.Proofs.Assigned.Retargeted
import ObjectQuery.Proofs.Conversions.Queries
import ObjectQuery.Proofs.Fuel.Calls
import ObjectQuery.Proofs.Parts
import ObjectQuery.Proofs.UpdateRoot

/-!
An update with a condition is a filter and an update with the same setter. The filter leaves the rows that it applies
to, so the update finds what it would have found before; it only has its calls at another depth.
-/
namespace ObjectQuery

open Build

namespace Compiler

variable {c : Compiler} {rec : Calls} {source : Node} {condition setter : Lambda} {parent : Option ContextId}
  {n : Nat} {s t : BuildState} {id : ContextId}

theorem builderFor_updateWhere (hall : c.builders = Builder.all) (node : Node) (condition setter : Lambda) :
    c.builderFor (node.updateWhere condition setter) = .ok .update := by
  rw [builderFor, hall]
  rfl

/-- The assignments of an update over rows. -/
def updateRows (c : Compiler) (rec : Calls) (number : StatementId) (id : ContextId) (setter : Lambda)
    (parent : Option ContextId) : Build ContextId := do
  c.updateWith rec number id setter parent
  c.completeUpdate number
  addContext (.update parent number id)

theorem run_buildUpdate_with {d : Context} (hd : s.contexts[id]? = some d) (hu : d.isUpdate = false) (node : Node) :
    (c.buildUpdate rec (node.updateWith setter) id parent).run s =
      (c.updateRows rec d.statement id setter parent).run s := by
  rw [buildUpdate, run_bind_of (run_ensureComposable_of hd hu _), run_bind_of (run_context_of hd)]
  rfl

theorem run_buildUpdate_where {d : Context} (hd : s.contexts[id]? = some d) (hu : d.isUpdate = false) (node : Node) :
    (c.buildUpdate rec (node.updateWhere condition setter) id parent).run s =
      (restrict rec id condition parent >>= fun _ => c.updateRows rec d.statement id setter parent).run s := by
  rw [buildUpdate, run_bind_of (run_ensureComposable_of hd hu _), run_bind_of (run_context_of hd)]
  exact congrArg (run · s) (bind_assoc (restrict rec id condition parent) _ _)

theorem run_buildFilter {d : Context} (hd : s.contexts[id]? = some d) (hu : d.isUpdate = false) (node : Node) :
    (buildFilter rec (node.filter condition) id parent).run s =
      (restrict rec id condition parent >>= fun _ => pure id).run s := by
  rw [buildFilter, run_bind_of (run_ensureComposable_of hd hu _)]
  rfl

/-- Over rows, an update with a condition does what a filter and an update do. -/
theorem run_buildUpdate_filter (h : rec.Obey c.rooting) (hp : s.Plain id) :
    (c.buildUpdate rec (source.updateWhere condition setter) id parent).run s =
      (buildFilter rec (source.filter condition) id parent >>= fun id =>
        c.buildUpdate rec ((source.filter condition).updateWith setter) id parent).run s := by
  obtain ⟨d, hd, hu⟩ := hp
  have hkeeps : s.KeepsContexts ((restrict rec id condition parent).run s).2 :=
    (keeps_restrict h id condition parent s).1
  rw [run_buildUpdate_where hd hu, run_bind (buildFilter rec (source.filter condition) id parent),
    run_buildFilter hd hu, run_bind, run_bind]
  generalize (restrict rec id condition parent).run s = r at hkeeps
  obtain ⟨_ | _, t⟩ := r
  · rfl
  · -- the rows are still there, and in the same statement
    obtain ⟨e, he, hde⟩ := hkeeps id d hd
    have hue : e.isUpdate = false := (Context.isUpdate_eq_of_core hde).trans hu
    dsimp only
    rw [← Context.statement_eq_of_core hde]
    exact (run_buildUpdate_with he hue _).symm

/-- The update over filtered rows, when the rows are compiled with calls of their own. -/
def updateFiltered (c : Compiler) (rec rec' : Calls) (source : Node) (condition setter : Lambda)
    (parent : Option ContextId) : Build ContextId := do
  let id ← c.sequence rec parent (source.filter condition)
  c.buildUpdate rec' ((source.filter condition).updateWith setter) id parent

theorem approximates_updateFiltered {rec₁ rec₁' rec₂ rec₂' : Calls} (h₁ : rec₁.Approximate rec₁')
    (h₂ : rec₂.Approximate rec₂') (source : Node) (condition setter : Lambda) (parent : Option ContextId) :
    (c.updateFiltered rec₁ rec₂ source condition setter parent).Approximates
      (c.updateFiltered rec₁' rec₂' source condition setter parent) :=
  (approximates_sequence h₁ parent _).bind fun id => approximates_buildUpdate h₂ _ id parent

section Sequences

variable (hall : c.builders = Builder.all)

include hall

/-- Its source has one call less to make. -/
theorem sequence_updateFiltered (n : Nat) (source : Node) (condition setter : Lambda) (parent : Option ContextId) :
    (c.calls (n + 2)).sequence parent ((source.filter condition).updateWith setter) =
      c.updateFiltered (c.calls n) (c.calls (n + 1)) source condition setter parent :=
  sequence_chain (builderFor_updateWith hall _ setter) parent

theorem run_sequence_updateWhere (hkind : source.kind ≠ .update) (n : Nat) (s : BuildState) :
    ((c.calls (n + 1)).sequence parent (source.updateWhere condition setter)).run s =
      (c.updateFiltered (c.calls n) (c.calls n) source condition setter parent).run s := by
  change (c.sequence (c.calls n) parent (source.updateWhere condition setter)).run s = _
  rw [updateFiltered, Node.updateWhere, sequence_chain (builderFor_updateWhere hall source condition setter),
    Node.filter, sequence_chain (builderFor_filter hall source condition), bind_assoc, run_bind, run_bind]
  cases hrun : ((c.calls n).sequence parent source).run s with
  | mk result t =>
    cases result with
    | error stop => rfl
    | ok id => exact run_buildUpdate_filter (calls_obey c.rooting n) (plain_of_run_sequence hrun hkind)

variable (hkind : source.kind ≠ .update) (condition setter : Lambda) (n : Nat)

include hkind

theorem approximates_updateWhere :
    (c.root (n + 1) (source.updateWhere condition setter)).Approximates
      (c.root (n + 2) ((source.filter condition).updateWith setter)) := by
  have hnext : (c.calls n).Approximate (c.calls (n + 1)) := calls_approximate (Nat.le_succ n)
  refine Approximates.bind (fun s => ?_) fun id => approximates_finish (calls_approximate (Nat.le_succ _)) id
  rw [run_sequence_updateWhere hall hkind, sequence_updateFiltered hall]
  exact approximates_updateFiltered (calls_approximate (Nat.le_refl n)) hnext source condition setter none s

theorem approximates_filter_updateWith :
    (c.root (n + 2) ((source.filter condition).updateWith setter)).Approximates
      (c.root (n + 2) (source.updateWhere condition setter)) := by
  have hnext : (c.calls n).Approximate (c.calls (n + 1)) := calls_approximate (Nat.le_succ n)
  refine Approximates.bind (fun s => ?_) fun id => .refl _
  rw [run_sequence_updateWhere hall hkind, sequence_updateFiltered hall]
  exact approximates_updateFiltered hnext (calls_approximate (Nat.le_refl _)) source condition setter none s

end Sequences

theorem returns_of_ne_outOfFuel {node : Node} (h : c.compile n node ≠ .error .outOfFuel) :
    c.Returns node (c.compile n node) :=
  Filter.eventually_atTop.mpr ⟨n, fun _ hn => compile_of_le h hn⟩

theorem Returns.unique {node : Node} {r r' : Except Stop CompiledQuery} (h : c.Returns node r)
    (h' : c.Returns node r') : r = r' := by
  obtain ⟨fuel, hr, hr'⟩ := (h.and h').exists
  exact hr.symm.trans hr'

end Compiler

/-- An update with a condition is a filter followed by an update. For every source that is no update itself, both
queries come to the same: to statements and contexts that are equal one by one, or to the same stop. -/
theorem Compiler.exists_returns_updateWhere {c : Compiler} {source : Node} (hall : c.builders = Builder.all)
    (hkind : source.kind ≠ .update) (condition setter : Lambda) :
    ∃ r, c.Returns (source.updateWhere condition setter) r ∧
      c.Returns ((source.filter condition).updateWith setter) r := by
  by_cases h : ∃ n, c.compile n (source.updateWhere condition setter) ≠ .error .outOfFuel
  · obtain ⟨n, hn⟩ := h
    refine ⟨_, returns_of_ne_outOfFuel hn, Filter.eventually_atTop.mpr ⟨n + 2, fun m hm => ?_⟩⟩
    obtain ⟨k, rfl⟩ := Nat.exists_eq_add_of_le' (Nat.le_of_add_left_le hm)
    have hmore : c.compile (k + 1) (source.updateWhere condition setter) = c.compile n _ :=
      compile_of_le hn (by omega)
    rw [compile_of_approximates (approximates_updateWhere hall hkind condition setter k) (hmore ▸ hn), hmore]
  · -- a query that never comes to an end does so in neither form
    simp only [not_exists, not_not] at h
    refine ⟨.error .outOfFuel, .of_forall h, Filter.eventually_atTop.mpr ⟨2, fun m hm => ?_⟩⟩
    obtain ⟨k, rfl⟩ := Nat.exists_eq_add_of_le' hm
    by_contra hne
    refine hne ?_
    rw [← compile_of_approximates (approximates_filter_updateWith hall hkind condition setter k) hne, h]

/-- The departments of the employees. -/
def staffedDepartments : Node :=
  (Node.source "Employee").select ⟨["e"], .member (.parameter "e") "department"⟩

def namedOld : Lambda :=
  ⟨["d"], .binary (.comparison .equal) (.member (.parameter "d") "name") (.literal (.text "old"))⟩

def renameToNew : Lambda :=
  ⟨["d"], .construct [("name", .literal (.text "new"))]⟩

theorem Compiler.returns_renamedDepartments :
    staffedDepartments.kind ≠ .update ∧
      ∃ q, Compiler.company.Returns (staffedDepartments.updateWhere namedOld renameToNew) (.ok q) ∧
        Compiler.company.Returns ((staffedDepartments.filter namedOld).updateWith renameToNew) (.ok q) := by
  have hkind : staffedDepartments.kind ≠ .update := by decide
  refine ⟨hkind, ?_⟩
  obtain ⟨r, hwhere, hfilter⟩ :=
    Compiler.exists_returns_updateWhere (c := Compiler.company) rfl hkind namedOld renameToNew
  have hcompiles : (Compiler.company.compile 12 (staffedDepartments.updateWhere namedOld renameToNew)).isOk := rfl
  cases hq : Compiler.company.compile 12 (staffedDepartments.updateWhere namedOld renameToNew) with
  | error stop => rw [hq] at hcompiles; cases hcompiles
  | ok q =>
    obtain rfl : r = .ok q := hwhere.unique (hq ▸ Compiler.returns_of_ne_outOfFuel (by rw [hq]; nofun))
    exact ⟨q, hwhere, hfilter⟩

end ObjectQuery
