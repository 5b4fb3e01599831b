import ObjectQuery.Compile.Value
import ObjectQuery.Proofs.Calls.Resolve

/-!
Values and conditions fit the statement of the scope that they are compiled for. An aggregate selects in a
statement of its own, to which it refers.
-/
namespace ObjectQuery.Compiler

open World Build

variable {c : Compiler} {K : Content c} {F : StatementId → Prop} {σ : World} {m : StatementId}
  {rec : Calls} {scope : ContextId}

theorem condition_comparison (op : Comparison) {lhs rhs : SqlExpr} (hl : K.value σ m lhs)
    (hr : K.value σ m rhs) : K.condition σ m (comparison op lhs rhs) := by
  unfold comparison
  split
  · exact K.isNull hl
  · exact K.isNull hr
  · exact K.negate (K.isNull hl)
  · exact K.negate (K.isNull hr)
  · exact K.equal hl hr
  · exact K.negate (K.equal hl hr)
  · exact K.compare hl hr

theorem holds_pathValue (h : rec.Respect c K) (hf : Fresh F σ) (hs : σ.Sited scope m) (e : Expr) :
    Holds c K F σ (pathValue rec scope e) fun v τ => K.value τ m v := by
  refine Holds.orFail.read fun path _ => ?_
  refine (holds_resolve h hf hs path).bind fun d τ _ he => ?_
  obtain ⟨a, he, hd⟩ := he
  cases d with
  | field => exact .pure (K.value_within he hd)
  | computed => exact .pure (K.value_within he hd)
  | _ => exact .fail

theorem holds_condition (h : rec.Respect c K) (hf : Fresh F σ) (hs : σ.Sited scope m) (e : Expr) :
    Holds c K F σ (condition rec scope e) fun p τ => K.condition τ m p := by
  unfold condition
  split
  · next lhs rhs _ =>
    refine (h.condition lhs hf hs).bind fun p τ hτ hp => ?_
    refine (h.condition rhs (hf.mono hτ) (hs.mono hτ)).bind fun q υ hυ hq => ?_
    exact .pure (K.conjunction (K.condition_mono hυ hp) hq)
  · next lhs rhs _ =>
    refine (h.condition lhs hf hs).bind fun p τ hτ hp => ?_
    refine (h.condition rhs (hf.mono hτ) (hs.mono hτ)).bind fun q υ hυ hq => ?_
    exact .pure (K.disjunction (K.condition_mono hυ hp) hq)
  · next op lhs rhs _ =>
    refine (h.value lhs hf hs).bind fun v τ hτ hv => ?_
    refine (h.value rhs (hf.mono hτ) (hs.mono hτ)).bind fun w υ hυ hw => ?_
    exact .pure (condition_comparison op (K.value_mono hυ hv) hw)
  · exact .fail
  · next inner _ => exact .map ((h.condition inner hf hs).imp fun _ _ _ hp => K.negate hp)
  · exact .pure K.ofBool
  · refine (h.value _ hf hs).bind fun v τ _ hv => ?_
    split
    · exact .pure (K.toCondition hv)
    · exact .pure (K.equal hv K.literal)

variable [Observer]

/-- The argument belongs to the sub-query, whose statement lies under that of the scope. -/
theorem holds_aggregateArgument (h : rec.Respect c K) (hf : Fresh F σ) {n : StatementId}
    {sequence : ContextId} (hq : σ.Sited sequence n) (hn : σ.Nested (some scope) n)
    (function : Aggregate) (selector : Option Lambda) :
    Holds c K F σ (aggregateArgument rec scope function selector sequence)
      fun v τ => K.value τ n v := by
  unfold aggregateArgument
  split
  · next l =>
    refine (holds_lambdaScope hq hn.inside).bind fun inner τ hτ hi => ?_
    exact h.value l.body (hf.mono hτ) hi
  · exact .pure K.star
  · refine (h.members [] .field hf hq).bind fun items τ _ hi => ?_
    split
    · exact .pure (hi _ List.mem_cons_self)
    · exact .fail

theorem holds_aggregate (h : rec.Respect c K) (hf : Fresh F σ) (hs : σ.Sited scope m)
    (function : Aggregate) (source : Node) (selector : Option Lambda) :
    Holds c K F σ (aggregate rec scope function source selector) fun v τ => K.value τ m v := by
  refine (h.sequence source hf hs.placed).bind fun sequence τ hτ hlen => ?_
  obtain ⟨n, hlen, hq, hn⟩ := hlen
  have hown : F n := hf n hlen
  refine Holds.ensureComposable.read fun _ _ => ?_
  refine (holds_aggregateArgument h (hf.mono hτ) hq hn function selector).bind
    fun v υ hυ hv => ?_
  have hq := hq.mono hυ
  refine (Holds.sited hq).read fun d he => ?_
  obtain ⟨-, rfl, -⟩ := he
  refine (Holds.modifyStatement (.select _ _ hown ?_)).bind ?_
  · intro s _ w hw
    rw [List.mem_singleton.mp hw]
    exact .inr (K.function (by simpa using hv))
  intro _ φ hφ he
  obtain rfl := he
  obtain ⟨a, ha, ho⟩ := (hn.mono hυ).mono hφ
  obtain rfl := (((hs.mono hτ).mono hυ).mono hφ).unique ha
  exact .pure (K.subquery ho .self)

theorem holds_value (h : rec.Respect c K) (hf : Fresh F σ) (hs : σ.Sited scope m) (e : Expr) :
    Holds c K F σ (c.value rec scope e) fun v τ => K.value τ m v := by
  unfold value
  split
  · split
    · exact Holds.nextParameter.bind fun _ τ _ _ => .pure K.parameter
    · exact .pure K.literal
  · exact .pure K.parameter
  · exact .pure K.null
  · exact h.value _ hf hs
  · exact holds_pathValue h hf hs _
  · exact holds_pathValue h hf hs _
  · next lhs rhs =>
    refine (h.value lhs hf hs).bind fun v τ hτ hv => ?_
    refine (h.value rhs (hf.mono hτ) (hs.mono hτ)).bind fun w υ hυ hw => ?_
    exact .pure (K.arithmetic (K.value_mono hυ hv) hw)
  · exact .map ((h.condition _ hf hs).imp fun _ _ _ hp => K.ofCondition hp)
  · exact .map ((h.condition _ hf hs).imp fun _ _ _ hp => K.ofCondition hp)
  · next args =>
    refine .map ((Holds.mapM args (R := fun v τ => K.value τ m v) (fun e _ τ hτ => ?_) ?_).imp ?_)
    · exact h.value e (hf.mono hτ) (hs.mono hτ)
    · exact fun _ _ _ hτ hv => K.value_mono hτ hv
    · exact fun _ _ _ hv => K.function hv
  · exact .fail
  · exact (holds_aggregate h hf hs _ _ _).inContext

end ObjectQuery.Compiler
