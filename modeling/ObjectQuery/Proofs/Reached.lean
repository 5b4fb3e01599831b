import ObjectQuery.Proofs.Calls.Operator

/-!
The states that a compilation passes through, in the middle of its operators and after failures too. They are
reached by steps, so what the first state has and every step preserves holds of all of them.
-/
namespace ObjectQuery

open World Build

/-- Some observer stops a compilation of the query in that state, or it ends there. -/
def Compiler.Reached (c : Compiler) (node : Node) (s : BuildState) : Prop :=
  ∃ (o : Observer) (fuel : Nat), ((@Compiler.root o c fuel node).run {}).2 = s

variable {c : Compiler} {K : Content c} {F : StatementId → Prop} {σ τ : World} {node : Node}
  {s : BuildState}

theorem Compiler.holds_finish [Observer] {rec : Calls} {id : ContextId} {m : StatementId}
    (h : rec.Respect c K) (hf : Fresh F σ) (hm : F m) (hs : σ.Sited id m) :
    Holds c K F σ (finish rec id) fun r _ => r = (m, id) := by
  have hend : ∀ τ, Grows σ τ → Holds c K F τ (do pure ((← context id).statement, id))
      fun r _ => r = (m, id) := by
    intro τ hτ
    refine (Holds.sited (hs.mono hτ)).read fun d he => ?_
    obtain ⟨-, rfl, -⟩ := he
    exact .pure rfl
  refine Holds.context.read fun d _ => ?_
  split
  · exact hend σ (.refl σ)
  · exact (holds_selectItems h hf hm hs [] .all).bind fun _ τ hτ _ => hend τ hτ

/-- The root statement of a query lies in no other. -/
theorem Compiler.holds_root [Observer] (c : Compiler) (K : Content c) (fuel : Nat) (node : Node) (σ : World) :
    Holds c K (fun _ => True) σ (c.root fuel node)
      fun r τ => τ.Sited r.2 r.1 ∧ τ.Nested none r.1 := by
  have h := c.calls_respect K fuel
  have hf : ∀ σ, Fresh (fun _ => True) σ := fun _ _ _ => trivial
  refine (h.sequence node (hf σ) placed_none).bind fun id τ _ hs => ?_
  obtain ⟨m, -, hs, hn⟩ := hs
  refine (holds_finish h (hf τ) trivial hs).imp fun _ υ hυ he => ?_
  obtain rfl := he
  exact ⟨hs.mono hυ, hn.mono hυ⟩

theorem Compiler.Reached.steps (h : c.Reached node s) (K : Content c) :
    ∃ τ, Steps c K (fun _ => True) start τ ∧ τ.state = s := by
  obtain ⟨o, fuel, rfl⟩ := h
  obtain ⟨τ, hs, he, -⟩ := @Compiler.holds_root o c K fuel node start valid_start
  exact ⟨τ, hs, he⟩

/-- A query that compiles ends in a world reached by steps, with its root statement outermost. -/
theorem Compiler.steps_of_compile {fuel : Nat} {q : CompiledQuery} (h : c.compile fuel node = .ok q)
    (K : Content c) : ∃ τ, Steps c K (fun _ => True) start τ ∧ τ.state.statements = q.statements ∧
      τ.state.contexts = q.contexts ∧ τ.Sited q.rootContext q.root ∧ τ.Nested none q.root := by
  obtain ⟨number, id, s, hrun, rfl⟩ := of_compile h
  obtain ⟨τ, hs, he, hp⟩ := c.holds_root K fuel node start valid_start
  have hrun : (c.root fuel node).run start.state = (.ok (number, id), s) := hrun
  rw [hrun] at he hp
  exact ⟨τ, hs, congrArg _ he, congrArg _ he, hp _ rfl⟩

theorem Steps.preserve {I : World → Prop} (h : Steps c K F σ τ) (hv : Valid c σ) (hi : I σ)
    (hstep : ∀ {σ τ}, Valid c σ → Step c K F σ τ → I σ → I τ) : I τ := by
  induction h with
  | refl => exact hi
  | tail hs ht ih => exact hstep (Steps.valid hs hv) ht ih

end ObjectQuery
