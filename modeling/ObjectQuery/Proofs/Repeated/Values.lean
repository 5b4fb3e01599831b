import ObjectQuery.Proofs.Repeated.Resolve

/-!
Values, conditions and members that are compiled again. A sub-query is compiled to a statement of its own each time.
-/
namespace ObjectQuery

open Build Compiler

namespace Replay

variable {R : Replay} {m n : R.Moment} {ℓ : Prop} {i j a b : ContextId} {c : Compiler} {rec : ObjectQuery.Calls}

theorem repeats_rowColumns (hij : m.At ℓ i j) (outer : Option String) (extent : Extent) :
    Repeats c m (fun n => List.Forall₂ (Member ℓ n)) (c.rowColumns i outer extent) (c.rowColumns j outer extent) := by
  refine .context hij fun d e hd he hde _ => ?_
  refine (Repeats.orFailRel _ _ hde.rows?).bind fun n hn r r' ⟨hrr, hr, hr'⟩ => ?_
  rw [hrr.entity, hrr.table]
  refine (repeats_entity _).bind fun k hk entity _ ⟨heq, _⟩ => ?_
  have hmembers : ∀ o : R.Moment, m.Later o → ∀ columns : List (String × ColumnId), List.Forall₂ (Member ℓ o)
      (columns.map fun x => (some x.1, .column x.2 (some r.aliasName)))
      (columns.map fun x => (some x.1, .column x.2 (some r'.aliasName))) := by
    refine fun o ho columns => ?_
    rw [List.forall₂_map_left_iff, List.forall₂_map_right_iff, List.forall₂_same]
    exact fun x _ => ⟨rfl, .column _ fun hℓ hm => hm.of_later ho i j d e r r' (hij.2 hℓ) hij.1 hd he hr hr'⟩
  rw [heq]
  have hlater := hn.trans hk
  cases extent with
  | key =>
    refine (Repeats.orDangling _).then fun o ho keys => ?_
    exact (Repeats.pure rfl).then fun u hu columns => .pure (hmembers u ((hlater.trans ho).trans hu) columns)
  | field | all => exact (Repeats.pure rfl).then fun o ho columns => .pure (hmembers o (hlater.trans ho) columns)

variable (h : R.Calls c rec)

include h

theorem repeats_members (hij : m.At ℓ i j) (steps : List String) (extent : Extent) :
    Repeats c m (fun n => List.Forall₂ (Member ℓ n)) (c.members rec i steps extent) (c.members rec j steps extent) := by
  refine (h.classify steps hij).bind fun n hn d d' hd => ?_
  cases hd with
  | field k haliases => exact .pure (.cons ⟨rfl, .column k haliases⟩ .nil)
  | computed hv => exact .pure (.cons ⟨rfl, hv⟩ .nil)
  | table rows | association rows => exact repeats_rowColumns rows none extent
  | object owner steps =>
    refine .context owner fun d e _ _ hde _ => ?_
    cases hde with
    | @projection _ _ _ _ _ _ f =>
      refine (Repeats.mapM (Q := fun u => List.Forall₂ (Member ℓ u)) (f.body.constructedAt steps) ?_ ?_).bind
        fun _ _ _ _ hgroups => .pure (List.rel_flatten hgroups)
      · exact fun u v huv xs ys hxy => hxy.imp fun x y hxy => ⟨hxy.1, hxy.2.mono huv⟩
      · refine fun o ho name _ => (h.members _ extent (owner.mono ho)).bind fun u _ items items' hitems => .pure ?_
        rw [List.forall₂_map_left_iff, List.forall₂_map_right_iff]
        exact hitems.imp fun x y hxy =>
          ⟨congrArg (fun m => some (m.elim name fun m => name ++ "." ++ m)) hxy.1, hxy.2⟩
    | table | association | lambda | update => exact repeats_rowColumns owner _ extent

theorem repeats_pathValue (hab : m.At ℓ a b) (e : Expr) :
    Repeats c m (Moment.Shifted ℓ) (pathValue rec a e) (pathValue rec b e) := by
  cases hp : Path.ofExpr? e with
  | none =>
    rw [pathValue, hp]
    exact .fail _
  | some path =>
    rw [pathValue_of_path hp, pathValue_of_path hp]
    refine (repeats_resolve h hab path).bind fun n _ d d' hd => ?_
    exact (Repeats.orFailRel _ _ hd.value?).imp fun o ho v v' hv => hv.1.mono ho

theorem repeats_condition (hab : m.At ℓ a b) (e : Expr) :
    Repeats c m (fun n p q => n.Shifted ℓ (.condition p) (.condition q)) (condition rec a e) (condition rec b e) := by
  cases hcond : e.strip.isCondition with
  | false =>
    rw [condition_of_isCondition_eq_false hcond, condition_of_isCondition_eq_false hcond]
    exact (h.value e.strip hab).map fun _ _ _ _ hv => hv.test
  | true =>
    unfold condition
    generalize e.strip = d at hcond
    cases d with
    | binary op lhs rhs =>
      cases op with
      | and =>
        refine (h.condition lhs hab).bind fun n hn p p' hp => ?_
        refine (h.condition rhs (hab.mono hn)).bind fun k hk q q' hq => .pure ((hp.mono hk).conjunction hq)
      | or =>
        refine (h.condition lhs hab).bind fun n hn p p' hp => ?_
        refine (h.condition rhs (hab.mono hn)).bind fun k hk q q' hq => .pure ((hp.mono hk).disjunction hq)
      | comparison op =>
        refine (h.value lhs hab).bind fun n hn v v' hv => ?_
        refine (h.value rhs (hab.mono hn)).bind fun k hk w w' hw => .pure ((hv.mono hk).comparison op hw)
      | arithmetic op => exact .fail _
    | not inner => exact (h.condition inner hab).map fun _ _ _ _ hp => hp.negate
    | literal v =>
      cases v with
      | bool v =>
        refine .pure (.plain fun l hl => ?_)
        change l ∈ (Predicate.ofBool v).leaves at hl
        rw [Predicate.leaves_ofBool] at hl
        cases hl
      | _ => cases hcond
    | _ => cases hcond

/-! Sub-queries. -/

theorem repeats_aggregateArgument (hij : m.At False i j) (hab : m.At False a b) (function : Aggregate)
    (selector : Option Lambda) : Repeats c m Whatever (aggregateArgument rec a function selector i)
      (aggregateArgument rec b function selector j) := by
  cases selector with
  | some f =>
    refine (Repeats.lambdaScope f hij (.some hab)).bind fun n _ k l hkl => ?_
    exact (h.value f.body hkl).imp fun _ _ _ _ _ => trivial
  | none =>
    cases function with
    | count => exact .pure trivial
    | _ =>
      refine (h.members [] .field hij).bind fun n _ xs ys hxy => ?_
      cases hxy with
      | nil => exact .fail _
      | cons hx hxs =>
        cases hxs with
        | nil => exact .pure trivial
        | cons => exact .fail _

theorem repeats_aggregate (hab : m.At ℓ a b) (function : Aggregate) (source : Node) (selector : Option Lambda) :
    Repeats c m (Moment.Shifted ℓ) (aggregate rec a function source selector)
      (aggregate rec b function source selector) := by
  have hfree : m.At False a b := hab.weaken False.elim
  rw [aggregate, aggregate, ← composable_bind, ← composable_bind]
  refine (h.sequence _ source (.some hfree)).bind fun n hn i j hij => ?_
  refine (repeats_aggregateArgument h hij.1 (hfree.mono hn) function selector).bind fun k hk argument argument' _ => ?_
  refine .contextOwn (hij.mono hk) fun d e _ hnew hs => ?_
  rw [hs]
  refine Repeats.bind (Repeats.modifyStatement d.statement ?_) fun o _ _ _ hlt => .pure ?_
  · exact fun _ _ htarget => htarget
  · exact .subquery hnew hlt

theorem repeats_value (hab : m.At ℓ a b) (e : Expr) :
    Repeats c m (Moment.Shifted ℓ) (c.value rec a e) (c.value rec b e) := by
  have hlogical : ∀ d, Repeats c m (Moment.Shifted ℓ) (SqlExpr.condition <$> rec.condition a d)
      (SqlExpr.condition <$> rec.condition b d) := fun d => (h.condition d hab).map fun _ _ _ _ hp => hp
  cases e with
  | literal v =>
    unfold Compiler.value
    dsimp only
    split
    · refine Repeats.nextParameter.bind fun n _ text text' ⟨k, hk, hk', hnew⟩ => ?_
      rw [hk, hk']
      exact .pure (.constant k v hnew)
    · exact .pure (.plain fun l hl => List.mem_singleton.mp hl ▸ rfl)
  | «external» name => exact .pure (.plain fun l hl => List.mem_singleton.mp hl ▸ rfl)
  | null => exact .pure (.plain fun l hl => List.mem_singleton.mp hl ▸ rfl)
  | convert inner => exact h.value inner hab
  | parameter | member => exact repeats_pathValue h hab _
  | binary op lhs rhs =>
    cases op with
    | arithmetic op =>
      refine (h.value lhs hab).bind fun n hn v v' hv => ?_
      exact (h.value rhs (hab.mono hn)).bind fun k hk w w' hw => .pure ((hv.mono hk).arithmetic op hw)
    | and | or | comparison => exact hlogical _
  | not inner => exact hlogical _
  | call function args =>
    refine (Repeats.mapM args (fun n k hnk v v' hv => hv.mono hnk) fun n hn x _ => ?_).map fun _ _ _ _ hvs =>
      Moment.Shifted.function function hvs
    exact h.value x (hab.mono hn)
  | construct bindings => exact .fail _
  | aggregate function source selector => exact (repeats_aggregate h hab function source selector).inContext

end Replay
end ObjectQuery
