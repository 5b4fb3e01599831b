import ObjectQuery.Proofs.Fuel.Calls
import ObjectQuery.Proofs.Twins.Operators

/-!
How the compilation of a whole query ends. It ends in one way at most, however much fuel it has.
-/
namespace ObjectQuery

open Build

variable {c : Compiler} {side : Side} {free : StatementId → Prop} {w : Pairing} {node node' : Node} {n n' : Nat}
  {r r' : Except Stop (List Statement × StatementId)}

/-- The statements and the one at the root, or the reason why there are none. -/
def Compiler.outcome (c : Compiler) (fuel : Nat) (node : Node) : Except Stop (List Statement × StatementId) :=
  (c.compile fuel node).map fun q => (q.statements, q.root)

/-- With fuel enough, the query compiles to this. -/
def Compiler.Gives (c : Compiler) (node : Node) (r : Except Stop (List Statement × StatementId)) : Prop :=
  r ≠ .error .outOfFuel ∧ ∃ fuel, c.outcome fuel node = r

def Build.Coincide (side : Side) (x y : Except Stop (StatementId × ContextId) × BuildState) : Prop :=
  Agrees side (fun a s b t => t.statements = s.statements ∧ b.1 = a.1) (fun _ _ => True) x y

namespace Compiler

theorem outcome_eq_of_coincide (h : Coincide side ((c.root n node).run {}) ((c.root n' node').run {}))
    (hl : side = .left → c.outcome n node ≠ .error .outOfFuel)
    (hr : side = .right → c.outcome n' node' ≠ .error .outOfFuel) : c.outcome n' node' = c.outcome n node := by
  unfold outcome compile at *
  generalize (c.root n node).run {} = x at *
  generalize (c.root n' node').run {} = y at *
  cases h with
  | left h => exact absurd rfl (hl h)
  | right h => exact absurd rfl (hr h)
  | @gives a s b t h =>
    obtain ⟨hs, hm⟩ := h
    simp only [Except.map, hs, hm]
  | stops => rfl

theorem twins_finish {rec rec' : Calls} {i j : ContextId} (h : rec.Twins side free rec') (hij : w.same i j) :
    Build.Twins side free w (fun _ a b => b.1 = a.1) (finish rec i) (finish rec' j) := by
  have hend : ∀ v, w.Within v → Build.Twins side free v (fun _ a b => b.1 = a.1)
      (do pure ((← context i).statement, i)) (do pure ((← context j).statement, j)) := fun v hv =>
    .context (hv.same hij) fun d e hde => .pure hde.statement
  refine .context hij fun d e hde => ?_
  rw [hde.isUpdate]
  dsimp only
  split
  · exact hend w (.refl w)
  · exact (twins_selectItems h hij [] .all).then fun v hv _ => hend v hv

theorem outcome_of_le (h : c.outcome n node ≠ .error .outOfFuel) (hn : n ≤ n') :
    c.outcome n' node = c.outcome n node := by
  have hcompile : c.compile n node ≠ .error .outOfFuel := fun hc => h (by rw [outcome, hc]; rfl)
  rw [outcome, compile_of_le hcompile hn, outcome]

end Compiler
end ObjectQuery
