import ObjectQuery.Compile.Setter
import ObjectQuery.Proofs.Calls.Rows

/-!
The items of a setter belong to the table that they are meant for, and their values fit the statement of the
sequence. Binding a target makes it known for good.
-/
namespace ObjectQuery

open World Build

/-- The update of the statement is bound to the table. -/
def World.Targets (σ : World) (m : StatementId) (table : TableId) : Prop :=
  ∃ s, σ.statement? m = some s ∧ s.update.target = some table

theorem World.Targets.mono {σ τ : World} {m : StatementId} {table : TableId} (h : Grows σ τ)
    (ht : σ.Targets m table) : τ.Targets m table := by
  obtain ⟨s, hs, ht⟩ := ht
  obtain ⟨s', hs', hc⟩ := h.statement m s hs
  exact ⟨s', hs', hc.target table ht⟩

theorem Assignments.target_bind {a : Assignments} {table : TableId} (h : a.conflict? table = none) :
    (a.bind table).target = some table := by
  unfold bind
  unfold conflict? at h
  cases ht : a.target with
  | none => rfl
  | some existing => simpa [ht] using h

/-- Items for the statement: their columns are of the table, if there is one. -/
def Assigns {c : Compiler} (K : Content c) (σ : World) (m : StatementId) (table : Option TableId)
    (items : List SetItem) : Prop :=
  ∀ i ∈ items, (∀ t, table = some t → i.column.table = t) ∧ K.value σ m i.value

theorem Assigns.mono {c : Compiler} {K : Content c} {σ τ : World} {m : StatementId}
    {table : Option TableId} {items : List SetItem} (h : Grows σ τ) (ha : Assigns K σ m table items) :
    Assigns K τ m table items :=
  fun i hi => ⟨(ha i hi).1, K.value_mono h (ha i hi).2⟩

namespace Compiler

variable {c : Compiler} {K : Content c} {F : StatementId → Prop} {σ : World} {m k : StatementId}
  {rec : Calls}

theorem holds_settableColumn (h : rec.Respect c K) (hf : Fresh F σ) {id : ContextId}
    (hs : σ.Sited id m) (steps : List String) (table : Option TableId) :
    Holds c K F σ (settableColumn rec id steps table)
      fun column _ => ∀ t, table = some t → column.table = t := by
  refine (h.classify steps hf hs).attempt.bind fun result τ _ _ => ?_
  split
  · split
    · exact .fail
    · next hany =>
      refine .pure fun t ht => ?_
      subst ht
      simp only [Option.any_some, decide_eq_true_eq, Decidable.not_not] at hany
      exact hany.symm
  · exact .fail
  · exact .fail
  · exact .fail

theorem holds_targetColumn (target : TableId) (name : String) :
    Holds c K F σ (c.targetColumn target name) fun _ _ => True := by
  refine Holds.bind (P := fun _ _ => True) ?_ fun e τ _ _ => ?_
  · refine Holds.orDangling.read fun _ _ => ?_
    exact Holds.orFail.imp fun _ _ _ _ => trivial
  · split
    · exact .pure trivial
    · exact .fail

theorem holds_entered (h : rec.Respect c K) (hf : Fresh F σ) {into : ContextId} (hs : σ.Sited into k)
    (steps : List String) (value : Expr) :
    Holds c K F σ (entered? rec into steps value) fun _ _ => True := by
  unfold entered?
  split
  · exact .pure trivial
  · exact (holds_ask h hf hs steps .field).bind fun _ _ _ _ => .pure trivial

theorem holds_flatten (h : rec.Respect c K) (hf : Fresh F σ) {into scope : ContextId}
    (hi : σ.Sited into k) (hs : σ.Sited scope m) (table : Option TableId) (depth : Nat)
    (outer : List String) (bindings : List (String × Expr)) :
    Holds c K F σ (flatten c rec into table scope depth outer bindings)
      fun items τ => Assigns K τ m table items := by
  induction depth generalizing σ outer bindings with
  | zero => exact .fail
  | succ depth ih =>
    refine (Holds.mapM bindings (R := fun items τ => Assigns K τ m table items)
      (fun binding _ τ hτ => ?_) fun _ _ _ => Assigns.mono).bind ?_
    · obtain ⟨name, value⟩ := binding
      refine (holds_entered h (hf.mono hτ) (hi.mono hτ) _ value).bind fun nested υ hυ _ => ?_
      have g := hτ.trans hυ
      cases nested with
      | some nested => exact ih (hf.mono g) (hi.mono g) (hs.mono g) _ nested
      | none =>
        refine (holds_settableColumn h (hf.mono g) (hi.mono g) _ table).bind fun column φ hφ hc => ?_
        have g := g.trans hφ
        refine (h.value value.strip (hf.mono g) (hs.mono g)).bind fun v ψ _ hv => ?_
        refine .pure fun i hm => ?_
        rw [List.mem_singleton.mp hm]
        exact ⟨hc, hv⟩
    · intro groups τ _ hg
      refine .pure fun i hm => ?_
      obtain ⟨group, hgroup, hm⟩ := List.mem_flatten.mp hm
      exact hg group hgroup i hm

variable [Observer]

theorem holds_setterItems (h : rec.Respect c K) (hf : Fresh F σ) {into sequence : ContextId}
    {parent : Option ContextId} (hi : σ.Sited into k) (hs : σ.Sited sequence m)
    (hp : σ.Inside parent m) (setter : Lambda) (table : Option TableId) :
    Holds c K F σ (c.setterItems rec setter into table sequence parent)
      fun items τ => Assigns K τ m table items := by
  refine (holds_lambdaScope hs hp).bind fun scope τ hτ hscope => ?_
  have hf := hf.mono hτ
  have hi := hi.mono hτ
  split
  · exact holds_flatten h hf hi hscope table _ _ _
  · refine (holds_itemsOfExpr h hf hscope _ .all).bind fun items υ hυ hv => ?_
    refine (Holds.mapM items (R := fun i τ => Assigns K τ m table [i])
      (fun item hm φ hφ => ?_) fun _ _ _ => Assigns.mono).imp ?_
    · refine Holds.orFail.read fun member _ => ?_
      have g := hυ.trans hφ
      refine (holds_settableColumn h (hf.mono g) (hi.mono g) _ table).bind fun column ψ hψ hc => ?_
      refine .pure fun i hm' => ?_
      rw [List.mem_singleton.mp hm']
      exact ⟨hc, K.value_mono (hφ.trans hψ) (hv item hm)⟩
    · exact fun bs φ _ hb i hi => hb i hi i (List.mem_singleton_self i)

theorem holds_bindTarget (hm : F m) (table : TableId) :
    Holds c K F σ (c.bindTarget m table) fun _ τ => τ.Targets m table ∧
      τ = σ.alter m fun s => { s with update := s.update.bind table } := by
  refine Holds.statement.read fun s hs => ?_
  split
  · refine Holds.orDangling.read fun _ _ => ?_
    refine Holds.orDangling.read fun _ _ => ?_
    exact .fail
  · next hc =>
    refine (Holds.modifyStatement (.bind m table hm ?_)).imp ?_
    · intro s' hs'
      rw [hs] at hs'
      cases hs'
      exact hc
    · intro _ _ _ he
      obtain rfl := he
      exact ⟨⟨_, statement?_alter_self hs _, Assignments.target_bind hc⟩, rfl⟩

theorem holds_addItems (hm : F m) {items : List SetItem}
    (ht : ∀ i ∈ items, σ.Targets m i.column.table) (hv : ∀ i ∈ items, K.value σ m i.value) :
    Holds c K F σ (addItems m items)
      fun _ τ => τ = σ.alter m fun s => { s with update := s.update.append items } := by
  refine Holds.modifyStatement (.append m items hm ?_ hv)
  intro s hs i hi
  obtain ⟨s', hs', htarget⟩ := ht i hi
  rw [hs] at hs'
  cases hs'
  exact htarget

end Compiler
end ObjectQuery
