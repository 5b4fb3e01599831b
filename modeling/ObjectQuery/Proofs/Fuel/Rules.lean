import ObjectQuery.Compile.Operator
import ObjectQuery.Proofs.Run

/-!
Actions that differ in their fuel only. The one with less of it either runs out or does what the other one does, down to
the state that it leaves.
-/
namespace ObjectQuery

namespace Build

variable {α β : Type}

/-- Whatever the first action comes to without running out of fuel, the second comes to as well. -/
def Approximates (act act' : Build α) : Prop :=
  ∀ s, (∃ t, act.run s = (.error .outOfFuel, t)) ∨ act'.run s = act.run s

namespace Approximates

variable {act act' : Build α} {go go' : α → Build β}

theorem refl (act : Build α) : act.Approximates act :=
  fun _ => .inr rfl

theorem trans {act'' : Build α} (h : act.Approximates act') (h' : act'.Approximates act'') : act.Approximates act'' := by
  intro s
  obtain hout | heq := h s
  · exact .inl hout
  · have hs := h' s
    rwa [heq] at hs

theorem exhausted (act : Build α) : Approximates (throw .outOfFuel) act :=
  fun s => .inl ⟨s, rfl⟩

theorem bind (h : act.Approximates act') (hg : ∀ a, (go a).Approximates (go' a)) :
    (act >>= go).Approximates (act' >>= go') := by
  intro s
  obtain hout | heq := h s
  · exact .inl (stops_bind hout)
  · rw [run_bind, run_bind, heq]
    cases act.run s with
    | mk result t =>
      cases result with
      | error stop => exact .inr rfl
      | ok a => exact hg a t

/-- Both begin alike. -/
theorem next (act : Build α) (hg : ∀ a, (go a).Approximates (go' a)) :
    (act >>= go).Approximates (act >>= go') :=
  (refl act).bind hg

/-- Both go on alike. -/
theorem first (h : act.Approximates act') (go : α → Build β) : (act >>= go).Approximates (act' >>= go) :=
  h.bind fun a => refl (go a)

theorem map (f : α → β) (h : act.Approximates act') : (f <$> act).Approximates (f <$> act') := by
  rw [← bind_pure_comp, ← bind_pure_comp]
  exact h.first _

theorem attempt (h : act.Approximates act') : (Build.attempt act).Approximates (Build.attempt act') := by
  intro s
  obtain hout | heq := h s
  · exact .inl (outOfFuel_attempt hout)
  · exact .inr (by rw [run_attempt, run_attempt, heq])

theorem inContext (text : String) (h : act.Approximates act') :
    (Build.inContext text act).Approximates (Build.inContext text act') :=
  h.attempt.first _

theorem mapM (xs : List α) {f g : α → Build β} (h : ∀ x, (f x).Approximates (g x)) :
    (xs.mapM f).Approximates (xs.mapM g) := by
  induction xs with
  | nil => exact refl _
  | cons x xs ih =>
    rw [List.mapM_cons, List.mapM_cons]
    exact (h x).bind fun y => ih.first _

theorem withParent [Observer] (id : ContextId) (parent : Option ContextId) (h : act.Approximates act') :
    (Build.withParent id parent act).Approximates (Build.withParent id parent act') :=
  next _ fun _ => next _ fun _ => h.attempt.first _

theorem run_eq_of_ne {r : Except Stop α × BuildState} {s : BuildState} (h : act.Approximates act')
    (hrun : act.run s = r) (hr : r.1 ≠ .error .outOfFuel) : act'.run s = r := by
  obtain ⟨_, hout⟩ | heq := h s
  · exact absurd (congrArg Prod.fst (hrun.symm.trans hout)) hr
  · exact heq.trans hrun

/-- A result is found again. -/
theorem run_eq {a : α} {s t : BuildState} (h : act.Approximates act') (hrun : act.run s = (.ok a, t)) :
    act'.run s = (.ok a, t) :=
  h.run_eq_of_ne hrun nofun

end Approximates
end Build

/-- Every call approximates the one that is made in its place. -/
structure Calls.Approximate (rec rec' : Calls) : Prop where
  value : ∀ scope e, (rec.value scope e).Approximates (rec'.value scope e)
  condition : ∀ scope e, (rec.condition scope e).Approximates (rec'.condition scope e)
  classify : ∀ id steps, (rec.classify id steps).Approximates (rec'.classify id steps)
  members : ∀ id steps extent, (rec.members id steps extent).Approximates (rec'.members id steps extent)
  sequence : ∀ parent node, (rec.sequence parent node).Approximates (rec'.sequence parent node)

theorem Calls.approximate_exhausted (rec : Calls) : Calls.exhausted.Approximate rec :=
  ⟨fun _ _ => .exhausted _, fun _ _ => .exhausted _, fun _ _ => .exhausted _, fun _ _ _ => .exhausted _,
    fun _ _ => .exhausted _⟩

end ObjectQuery
