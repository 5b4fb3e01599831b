import ObjectQuery.Proofs.Assigned.Setter
import ObjectQuery.Proofs.Enumeration.Unnested
import ObjectQuery.Proofs.Reached

/-!
Compilations of several queries, one after the other in the same state. The projections of every state that they pass
through are those of the queries.
-/
namespace ObjectQuery

open Build

variable [Observer] {c : Compiler} {rec : Calls} {named any : String → Prop}

namespace Compiler

omit [Observer] in
theorem stays_ask (h : rec.Stay named) (id : ContextId) (steps : List String) (request : Request) :
    Stays named (ask rec id steps request) := by
  refine .read (reads_context id) fun d => ?_
  split
  · exact .fail _
  · refine (h.classify id steps).attempt.bind fun r => ?_
    cases r with
    | ok d => exact .pure _
    | error e => cases e <;> first | exact .pure _ | exact .fail _

omit [Observer] in
theorem reads_rowColumns (id : ContextId) (outer : Option String) (extent : Extent) :
    (c.rowColumns id outer extent).Reads := by
  refine (reads_context id).bind fun d => (reads_orFail _ _).bind fun r => (reads_orFail _ _).bind fun e => ?_
  cases extent with
  | key => exact (reads_orDangling _).bind fun _ => (reads_pure _).bind fun _ => reads_pure _
  | field | all => exact (reads_pure _).bind fun _ => reads_pure _

omit [Observer] in
theorem stays_members (h : rec.Stay named) (id : ContextId) (steps : List String) (extent : Extent) :
    Stays named (c.members rec id steps extent) := by
  refine (h.classify id steps).bind fun d => ?_
  cases d with
  | field | computed => exact .pure _
  | table rows | association rows => exact .of_reads (reads_rowColumns rows none extent)
  | object owner objectSteps =>
    refine .read (reads_context owner) fun d => ?_
    split
    · refine .bind (.mapM _ fun name _ => ?_) fun _ => .pure _
      exact (h.members owner _ extent).bind fun _ => .pure _
    · exact .of_reads (reads_rowColumns owner _ extent)

omit [Observer] in
theorem stays_itemsOf (h : rec.Stay named) (id : ContextId) (steps : List String) (extent : Extent) :
    Stays named (itemsOf rec id steps extent) :=
  (h.members id steps extent).bind fun _ => .pure _

omit [Observer] in
theorem stays_itemsOfExpr (h : rec.Stay named) (scope : ContextId) {e : Expr} (he : e.Unnested any) (extent : Extent) :
    Stays named (itemsOfExpr rec scope e extent) := by
  unfold itemsOfExpr
  split
  · exact .read (reads_rootOf scope _) fun sequence => stays_itemsOf h sequence _ extent
  · exact (h.value scope he).bind fun _ => .pure _

theorem stays_selectItems (h : rec.Stay named) (id : ContextId) (steps : List String) (extent : Extent) :
    Stays named (selectItems rec id steps extent) := by
  refine (stays_itemsOf h id steps extent).bind fun items => ?_
  refine .read (reads_context id) fun d => .read (reads_statement _) fun st => ?_
  exact Stays.modifyStatement.bind fun _ => .pure _

omit [Observer] in
theorem stays_settableColumn (h : rec.Stay named) (id : ContextId) (steps : List String) (table : Option TableId) :
    Stays named (settableColumn rec id steps table) := by
  refine (h.classify id steps).attempt.bind fun r => ?_
  cases r with
  | ok d =>
    cases d with
    | field column aliasName =>
      dsimp only
      split
      · exact .fail _
      · exact .pure _
    | table | association | computed | object => exact .fail _
  | error e => cases e <;> exact .fail _

theorem stays_bindTarget (m : StatementId) (table : TableId) : Stays named (c.bindTarget m table) := by
  refine .read (reads_statement m) fun st => ?_
  split
  · exact .read (reads_orDangling _) fun _ => .read (reads_orDangling _) fun _ => .fail _
  · exact .modifyStatement

omit [Observer] in
theorem stays_entered? (h : rec.Stay named) (into : ContextId) (steps : List String) (value : Expr) :
    Stays named (entered? rec into steps value) := by
  unfold entered?
  split
  · exact .pure _
  · exact (stays_ask h into steps .field).bind fun _ => .pure _

omit [Observer] in
theorem stays_flatten (h : rec.Stay named) (into : ContextId) (table : Option TableId) (scope : ContextId) (depth : Nat)
    (outer : List String) {bindings : List (String × Expr)} (hb : ∀ b ∈ bindings, b.2.Unnested any) :
    Stays named (flatten c rec into table scope depth outer bindings) := by
  induction depth generalizing outer bindings with
  | zero => exact .fail _
  | succ depth ih =>
    refine .bind (.mapM _ fun binding hmem => ?_) fun _ => .pure _
    have hvalue := hb binding hmem
    refine (stays_entered? h into _ binding.2).bind_of_run fun nested s t hrun => ?_
    cases nested with
    | some nested =>
      have hnested := hvalue.bindings (bindings?_of_run_entered? hrun)
      exact ih _ fun b hb => (hnested b hb).2
    | none =>
      refine (stays_settableColumn h into _ table).bind fun column => ?_
      exact (h.value scope hvalue.strip).bind fun _ => .pure _

theorem stays_setterItems (h : rec.Stay named) {setter : Lambda} (hs : setter.body.Unnested any) (into : ContextId)
    (table : Option TableId) (sequence : ContextId) (parent : Option ContextId) :
    Stays named (c.setterItems rec setter into table sequence parent) := by
  refine (Stays.lambdaScope setter sequence parent).bind fun scope => ?_
  split
  · next bindings hb => exact stays_flatten h into table scope _ [] fun b hmem => (hs.bindings hb b hmem).2
  · refine (stays_itemsOfExpr h scope hs.strip .all).bind fun items => .mapM items fun item _ => ?_
    refine .read (reads_orFail _ _) fun member => ?_
    exact (stays_settableColumn h into _ table).bind fun _ => .pure _

theorem stays_setItem (h : rec.Stay named) (member : Lambda) (path : Path) {operand : Argument}
    (ho : Argument.UnnestedAll any [operand]) (sequence : ContextId) (parent : Option ContextId) :
    Stays named (c.setItem rec member path operand sequence parent) := by
  cases operand with
  | lambda l =>
    have hover : ∀ target, (c.entityOver target).Reads := fun _ =>
      (reads_orDangling _).bind fun _ => reads_orFail _ _
    have hcolumn : Stays named (c.computedColumn rec path sequence) := by
      refine .read (reads_context sequence) fun d => .read (reads_statement _) fun st => ?_
      split
      · refine .read (hover _) fun e => ?_
        split
        · exact .pure _
        · exact .fail _
      · exact stays_settableColumn h sequence _ none
    refine hcolumn.bind fun column => (Stays.lambdaScope l sequence parent).bind fun scope => ?_
    exact (Stays.withParent (h.value scope ho.1)).bind fun _ => .pure _
  | value e =>
    refine (stays_settableColumn h sequence _ none).bind fun column => ?_
    refine (Stays.lambdaScope member sequence parent).bind fun scope => ?_
    exact (h.value scope ho.1).bind fun _ => .pure _
  | «entity» | «sequence» => exact .fail _

theorem stays_restrict (h : rec.Stay named) (sequence : ContextId) {l : Lambda} (hl : l.body.Unnested any)
    (parent : Option ContextId) : Stays named (restrict rec sequence l parent) := by
  have hcondition : Stays named (lambdaCondition rec sequence l parent) :=
    (Stays.lambdaScope l sequence parent).bind fun scope => h.condition scope hl
  exact hcondition.bind fun p => .read (reads_context sequence) fun d => .modifyStatement

omit [Observer] in
theorem stays_updatedRows? (h : rec.Stay named) (sequence : ContextId) : Stays named (updatedRows? rec sequence) := by
  have hrows : Stays named (rowsOf? rec sequence) := by
    refine (stays_ask h sequence [] .association).bind fun association => ?_
    split
    · exact .pure _
    · exact (stays_ask h sequence [] .table).bind fun _ => .pure _
  refine hrows.bind fun rows => ?_
  cases rows with
  | none => exact .pure _
  | some id => exact .read (reads_context id) fun _ => .pure _

theorem stays_updateWith (h : rec.Stay named) (m : StatementId) (sequence : ContextId) {setter : Lambda}
    (hs : setter.body.Unnested any) (parent : Option ContextId) :
    Stays named (c.updateWith rec m sequence setter parent) := by
  refine (stays_updatedRows? h sequence).bind fun rows => ?_
  cases rows with
  | some row =>
    refine (stays_bindTarget m row.2).bind fun _ => ?_
    exact (stays_setterItems h hs row.1 (some row.2) sequence parent).bind fun items => .modifyStatement
  | none =>
    refine (stays_setterItems h hs sequence none sequence parent).bind fun items => ?_
    refine (Stays.forM items fun item => stays_bindTarget m item.column.table).bind fun _ => ?_
    exact .modifyStatement

theorem stays_updateInto (h : rec.Stay named) (m : StatementId) (sequence : ContextId) {target : Node}
    (ht : target.Unnested named) {setter : Lambda} (hs : setter.body.Unnested any) (parent : Option ContextId) :
    Stays named (c.updateInto rec m sequence target setter parent) := by
  have htable : ∀ into, (targetTable into).Reads := by
    refine fun into => (reads_context into).bind fun d => ?_
    split
    · exact reads_pure _
    · exact reads_fail _
  refine (h.sequence parent ht).bind fun into => .read (htable into) fun table => ?_
  refine (stays_selectItems h sequence [] .all).bind fun _ => Stays.modifyStatement.bind fun _ => ?_
  refine (stays_setterItems h hs into (some table) sequence parent).bind fun items => ?_
  refine Stays.modifyStatement.bind fun _ => (stays_bindTarget m table).bind fun _ => ?_
  exact .modifyStatement

theorem stays_assign (h : rec.Stay named) (m : StatementId) (sequence : ContextId) {operands : List Argument}
    (ho : Argument.UnnestedAll named operands) (parent : Option ContextId) :
    Stays named (c.assign rec m sequence operands parent) := by
  unfold assign
  split
  · refine (stays_updatedRows? h sequence).bind fun rows => ?_
    split
    · exact stays_bindTarget m _
    · exact .pure _
  · exact stays_updateWith h m sequence ho.1 parent
  · exact (stays_restrict h sequence ho.1 parent).bind fun _ => stays_updateWith h m sequence ho.2.1 parent
  · exact stays_updateInto h m sequence ho.1 ho.2.1 parent
  · exact .fail _

variable {node : Node} {parent : Option ContextId}

theorem stays_buildSource : Stays named (c.buildSource node parent) := by
  unfold buildSource
  split
  · refine .read (reads_orFail _ _) fun e => Stays.nextAlias.bind fun aliasName => ?_
    exact Stays.addStatement.bind fun number => .addContext trivial
  · exact .fail _

theorem stays_buildUpdate (h : rec.Stay named) (hn : node.Unnested named) (sequence : ContextId) :
    Stays named (c.buildUpdate rec node sequence parent) := by
  have hcomplete : ∀ m, Stays named (c.completeUpdate m) := by
    refine fun m => .read (reads_statement m) fun st => ?_
    dsimp only
    split
    · exact .read (reads_orDangling _) fun _ => .fail _
    · exact .modifyStatement
  refine .read (reads_ensureComposable sequence _) fun _ => .read (reads_context sequence) fun d => ?_
  refine (stays_assign h _ sequence hn.operands parent).bind fun _ => (hcomplete _).bind fun _ => ?_
  exact .addContext trivial

theorem stays_buildSet (h : rec.Stay named) (hn : node.Unnested named) (sequence : ContextId) :
    Stays named (c.buildSet rec node sequence parent) := by
  have hoperands := hn.operands
  refine .read (reads_ensureComposable sequence _) fun _ => ?_
  split
  · next member operand ho =>
    rw [ho] at hoperands
    refine .read (reads_ofExcept _) fun path => .read (reads_context sequence) fun d => ?_
    refine (stays_setItem h member path hoperands.2 sequence parent).bind fun item => ?_
    exact (stays_bindTarget _ _).bind fun _ => Stays.modifyStatement.bind fun _ => .pure _
  · exact .fail _

theorem stays_build (h : rec.Stay named) (b : Builder) (hn : node.Unnested named) (sequence : Option ContextId) :
    Stays named (c.build rec b node sequence parent) := by
  have hoperands := hn.operands
  unfold build
  split
  · exact stays_buildSource
  · refine .read (reads_orFail _ _) fun sequence => ?_
    cases b with
    | source => exact stays_buildSource
    | filter =>
      refine .read (reads_ensureComposable sequence _) fun _ => ?_
      split
      · next l ho =>
        rw [ho] at hoperands
        exact (stays_restrict h sequence hoperands.1 parent).bind fun _ => .pure _
      · exact .fail _
    | select =>
      refine .read (reads_ensureComposable sequence _) fun _ => ?_
      split
      · next l ho =>
        rw [ho] at hoperands
        exact .read (reads_context sequence) fun d => .addContext hoperands.1
      · exact .fail _
    | update => exact stays_buildUpdate h hn sequence
    | set => exact stays_buildSet h hn sequence

theorem stays_sequence (h : rec.Stay named) (hn : node.Unnested named) :
    Stays named (c.sequence rec parent node) := by
  refine .read (reads_ofExcept _) fun b => ?_
  unfold primarySequence?
  split
  · next source hs =>
    exact (Stays.map (h.sequence parent (hn.primary hs))).bind fun source => stays_build h b hn source
  · exact .read (reads_pure _) fun source => stays_build h b hn source

theorem calls_stay (hc : c.schema.Unnested) (fuel : Nat) : (c.calls fuel).Stay named := by
  induction fuel with
  | zero => exact ⟨fun _ _ _ => .throw _, fun _ _ _ => .throw _, fun _ _ => .throw _, fun _ _ _ => .throw _,
      fun _ _ _ => .throw _⟩
  | succ fuel ih =>
    exact ⟨stays_value ih, stays_condition ih, stays_classify hc ih, stays_members ih, fun _ _ => stays_sequence ih⟩

theorem stays_root (hc : c.schema.Unnested) (fuel : Nat) (hn : node.Unnested named) :
    Stays named (c.root fuel node) := by
  refine ((calls_stay hc fuel).sequence none hn).bind fun id => .read (reads_context id) fun d => ?_
  split
  · exact .read (reads_context id) fun _ => .pure _
  · exact (stays_selectItems (calls_stay hc fuel) id [] .all).bind fun _ => .read (reads_context id) fun _ => .pure _

end Compiler

/-- The states that compilations of such queries pass through, one query after another, if their observers stop them at
any time. -/
inductive Compiler.Visits (c : Compiler) (admits : Node → Prop) : BuildState → Prop
  | start : Visits c admits {}
  | root {s : BuildState} (o : Observer) (fuel : Nat) {node : Node} (before : Visits c admits s) (hn : admits node) :
    Visits c admits ((@Compiler.root o c fuel node).run s).2

omit [Observer] in
theorem Compiler.Reached.visits {node : Node} {s : BuildState} (h : c.Reached node s) : c.Visits (· = node) s := by
  obtain ⟨o, fuel, rfl⟩ := h
  exact .root o fuel .start rfl

omit [Observer] in
theorem Compiler.Visits.steps {admits : Node → Prop} {s : BuildState} (h : c.Visits admits s) (K : Content c) :
    ∃ τ, Steps c K (fun _ => True) World.start τ ∧ τ.state = s := by
  induction h with
  | start => exact ⟨_, .refl, rfl⟩
  | root o fuel _ _ ih =>
    obtain ⟨σ, hs, rfl⟩ := ih
    obtain ⟨τ, ht, he, -⟩ := @Compiler.holds_root o c K fuel _ σ (Steps.valid hs World.valid_start)
    exact ⟨τ, hs.trans ht, he⟩

omit [Observer] in
theorem Compiler.Visits.unnested {s : BuildState} (h : c.Visits (Node.Unnested named) s) (hc : c.schema.Unnested) :
    s.Unnested named := by
  induction h with
  | start => exact fun _ => nofun
  | root o fuel _ hn ih => exact stays_root hc fuel hn _ ih

end ObjectQuery
