import ObjectQuery.Proofs.Coherent
import ObjectQuery.Proofs.Conversions.Rows

/-!
Operators with and without conversions, and whole queries. A query compiles to the same statements whether or not
conversions are left out of it and of the mapping, and if it does not compile, it fails for the same kind of reason.
-/
namespace ObjectQuery

open Build Compiler

namespace Compiler

variable {c c' : Compiler} {rec : Calls}

section

variable (h : rec.Echo c')
include h

theorem echoes_restrict {f g : Lambda} (hfg : f.erase = g.erase) (sequence : ContextId) (parent : Option ContextId) :
    c'.Echoes Eq (restrict rec sequence f parent) fun rec' => restrict rec' sequence g parent := by
  have hcondition : c'.Echoes Eq (lambdaCondition rec sequence f parent) fun rec' =>
      lambdaCondition rec' sequence g parent :=
    (Echoes.lambdaScope hfg sequence parent).bind fun scope _ hscope =>
      hscope ▸ h.condition scope (Lambda.erase_body_eq hfg)
  refine hcondition.bind fun p _ hp => (Echoes.context sequence).bind fun d d' hd => ?_
  rw [hp, hd.statement_eq]
  exact .modifyStatement _ _

theorem echoes_buildFilter {node node' : Node} (hnode : node.erase = node'.erase) (sequence : ContextId)
    (parent : Option ContextId) :
    c'.Echoes Eq (buildFilter rec node sequence parent) fun rec' => buildFilter rec' node' sequence parent := by
  have hoperands := Node.peers_operands hnode
  refine (Echoes.ensureComposable sequence _).bind fun _ _ _ => ?_
  generalize node.operands = as at hoperands
  generalize node'.operands = bs at hoperands
  cases hoperands with
  | nil => exact .same _
  | cons hab hrest =>
    cases hrest with
    | cons => cases hab <;> exact .same _
    | nil =>
      cases hab with
      | lambda hfg => exact (echoes_restrict h hfg sequence parent).bind fun _ _ _ => .pure rfl
      | _ => exact .same _

omit h in
theorem echoes_buildSelect {node node' : Node} (hnode : node.erase = node'.erase) (sequence : ContextId)
    (parent : Option ContextId) :
    c'.Echoes Eq (buildSelect node sequence parent) fun _ => buildSelect node' sequence parent := by
  have hoperands := Node.peers_operands hnode
  refine (Echoes.ensureComposable sequence _).bind fun _ _ _ => ?_
  generalize node.operands = as at hoperands
  generalize node'.operands = bs at hoperands
  cases hoperands with
  | nil => exact .same _
  | cons hab hrest =>
    cases hrest with
    | cons => cases hab <;> exact .same _
    | nil =>
      cases hab with
      | @lambda f g hfg =>
        refine (Echoes.context sequence).bind fun d d' hd => ?_
        rw [hd.statement_eq, Expr.isNone_bindings? (Lambda.erase_body_eq hfg)]
        exact .addContext (by simp only [Context.erase, hfg])
      | _ => exact .same _

theorem echoes_updatedRows? (sequence : ContextId) :
    c'.Echoes Eq (updatedRows? rec sequence) fun rec' => updatedRows? rec' sequence := by
  have hrows : c'.Echoes Eq (rowsOf? rec sequence) fun rec' => rowsOf? rec' sequence := by
    refine (echoes_ask h sequence [] .association).bind fun association _ ha => ha ▸ ?_
    split
    · exact .pure rfl
    · exact (echoes_ask h sequence [] .table).bind fun table _ ht => ht ▸ .pure rfl
  refine hrows.bind fun o _ ho => ho ▸ ?_
  cases o with
  | none => exact .pure rfl
  | some id =>
    refine (Echoes.context id).bind fun d d' hd => ?_
    rw [hd.rows?_eq]
    exact .pure rfl

omit h in
theorem echoes_targetTable (into : ContextId) : c'.Echoes Eq (targetTable into) fun _ => targetTable into := by
  refine (Echoes.context into).bind fun d d' hd => ?_
  cases hd with
  | table => exact .pure rfl
  | association | projection | lambda | update => exact .same _

omit h in
/-- The selector of a set names the same member, or is wrong on both sides. -/
theorem echoes_selectedPath {f g : Lambda} (hfg : f.erase = g.erase) :
    c'.Echoes Eq (ofExcept (selectedPath f)) fun _ => ofExcept (selectedPath g) := by
  unfold selectedPath
  rw [Lambda.row?_eq hfg, Path.ofExpr?_eq (Lambda.erase_body_eq hfg)]
  cases g.row? with
  | none => exact .same _
  | some row =>
    dsimp only
    split
    · exact .pure rfl
    · exact .fail ⟨rfl, rfl⟩

end

variable (hc : c.erase = c'.erase)
include hc

theorem echoes_buildSource {node node' : Node} (hnode : node.erase = node'.erase) (parent : Option ContextId) :
    c'.Echoes Eq (c.buildSource node parent) fun _ => c'.buildSource node' parent := by
  have harguments := Node.peers_arguments hnode
  unfold buildSource
  generalize node.arguments = as at harguments
  generalize node'.arguments = bs at harguments
  cases harguments with
  | nil => exact .same _
  | cons hab =>
    cases hab with
    | «entity» name =>
      refine (echoes_entity hc name).bind fun e e' he => Echoes.nextAlias.bind fun aliasName _ ha => ?_
      rw [Entity.name_eq he, Entity.table_eq he, ha]
      exact (Echoes.addStatement _).bind fun number _ hn => hn ▸ .addContext rfl
    | _ => exact .same _

variable (h : rec.Echo c')
include h

theorem echoes_updateWith {f g : Lambda} (hfg : f.erase = g.erase) (number : StatementId) (sequence : ContextId)
    (parent : Option ContextId) :
    c'.Echoes Eq (c.updateWith rec number sequence f parent) fun rec' =>
      c'.updateWith rec' number sequence g parent := by
  refine (echoes_updatedRows? h sequence).bind fun rows _ hrows => hrows ▸ ?_
  cases rows with
  | some rows =>
    refine (echoes_bindTarget hc number _).bind fun _ _ _ => ?_
    refine (echoes_setterItems hc h hfg _ _ sequence parent).bind fun items _ hitems => hitems ▸ ?_
    exact .modifyStatement _ _
  | none =>
    refine (echoes_setterItems hc h hfg sequence none sequence parent).bind fun items _ hitems => hitems ▸ ?_
    refine (Echoes.forM items fun item => echoes_bindTarget hc number _).bind fun _ _ _ => ?_
    exact .modifyStatement _ _

theorem echoes_assignInto {f g : Lambda} (hfg : f.erase = g.erase) (number : StatementId)
    (sequence into : ContextId) (table : TableId) (parent : Option ContextId) :
    c'.Echoes Eq (c.assignInto rec number sequence into table f parent) fun rec' =>
      c'.assignInto rec' number sequence into table g parent := by
  refine (echoes_selectItems h sequence [] .all).bind fun _ _ _ => (Echoes.modifyStatement _ _).bind fun _ _ _ => ?_
  refine (echoes_setterItems hc h hfg into _ sequence parent).bind fun items _ hitems => hitems ▸ ?_
  refine (Echoes.modifyStatement _ _).bind fun _ _ _ => (echoes_bindTarget hc number table).bind fun _ _ _ => ?_
  exact .modifyStatement _ _

theorem echoes_updateInto {target target' : Node} (ht : target.erase = target'.erase) {f g : Lambda}
    (hfg : f.erase = g.erase) (number : StatementId) (sequence : ContextId) (parent : Option ContextId) :
    c'.Echoes Eq (c.updateInto rec number sequence target f parent) fun rec' =>
      c'.updateInto rec' number sequence target' g parent := by
  refine (h.sequence parent ht).bind fun into _ hinto => hinto ▸ ?_
  exact (echoes_targetTable into).bind fun table _ htable => htable ▸
    echoes_assignInto hc h hfg number sequence into table parent

theorem echoes_assign {as bs : List Argument} (hoperands : List.Forall₂ Argument.Peers as bs) (number : StatementId)
    (sequence : ContextId) (parent : Option ContextId) :
    c'.Echoes Eq (c.assign rec number sequence as parent) fun rec' => c'.assign rec' number sequence bs parent := by
  unfold assign
  cases hoperands with
  | nil =>
    refine (echoes_updatedRows? h sequence).bind fun rows _ hrows => hrows ▸ ?_
    cases rows with
    | none => exact .pure rfl
    | some rows => exact echoes_bindTarget hc number _
  | cons hab hrest =>
    cases hrest with
    | nil =>
      cases hab with
      | lambda hfg => exact echoes_updateWith hc h hfg number sequence parent
      | _ => exact .same _
    | cons hcd hrest =>
      cases hrest with
      | cons => cases hab <;> cases hcd <;> exact .same _
      | nil =>
        cases hab with
        | lambda hfg =>
          cases hcd with
          | lambda hsetter =>
            exact (echoes_restrict h hfg sequence parent).bind fun _ _ _ =>
              echoes_updateWith hc h hsetter number sequence parent
          | _ => exact .same _
        | sequence htarget =>
          cases hcd with
          | lambda hsetter => exact echoes_updateInto hc h htarget hsetter number sequence parent
          | _ => exact .same _
        | _ => cases hcd <;> exact .same _

theorem echoes_buildUpdate {node node' : Node} (hnode : node.erase = node'.erase) (sequence : ContextId)
    (parent : Option ContextId) :
    c'.Echoes Eq (c.buildUpdate rec node sequence parent) fun rec' => c'.buildUpdate rec' node' sequence parent := by
  refine (Echoes.ensureComposable sequence _).bind fun _ _ _ => (Echoes.context sequence).bind fun d d' hd => ?_
  rw [hd.statement_eq]
  refine (echoes_assign hc h (Node.peers_operands hnode) _ sequence parent).bind fun _ _ _ => ?_
  exact (echoes_completeUpdate hc _).bind fun _ _ _ => .addContext rfl

theorem echoes_setItem {f g : Lambda} (hfg : f.erase = g.erase) (path : Path) {a b : Argument} (hab : a.Peers b)
    (sequence : ContextId) (parent : Option ContextId) :
    c'.Echoes Eq (c.setItem rec f path a sequence parent) fun rec' => c'.setItem rec' g path b sequence parent := by
  have hcolumn := echoes_settableColumn h sequence path.steps none
  cases hab with
  | lambda hvalue =>
    have hcomputed : c'.Echoes Eq (c.computedColumn rec path sequence) fun rec' =>
        c'.computedColumn rec' path sequence := by
      refine (Echoes.context sequence).bind fun d d' hd => ?_
      rw [hd.statement_eq]
      refine (Echoes.statement _).bind fun st _ hst => hst ▸ ?_
      split
      · exact echoes_targetColumn hc _ _
      · exact hcolumn
    refine hcomputed.bind fun column _ hk => (Echoes.lambdaScope hvalue sequence parent).bind fun scope _ hscope => ?_
    rw [hk, hscope]
    refine Echoes.bind (.withParent sequence _ (h.value _ (Lambda.erase_body_eq hvalue))) fun v _ hv => ?_
    exact hv ▸ .pure rfl
  | value hvalue =>
    refine hcolumn.bind fun column _ hk => (Echoes.lambdaScope hfg sequence parent).bind fun scope _ hscope => ?_
    rw [hk, hscope]
    exact (h.value _ hvalue).bind fun v _ hv => hv ▸ .pure rfl
  | sequence | «entity» => exact .same _

theorem echoes_buildSet {node node' : Node} (hnode : node.erase = node'.erase) (sequence : ContextId)
    (parent : Option ContextId) :
    c'.Echoes Eq (c.buildSet rec node sequence parent) fun rec' => c'.buildSet rec' node' sequence parent := by
  have hoperands := Node.peers_operands hnode
  refine (Echoes.ensureComposable sequence _).bind fun _ _ _ => ?_
  generalize node.operands = as at hoperands
  generalize node'.operands = bs at hoperands
  cases hoperands with
  | nil => exact .same _
  | cons hab hrest =>
    cases hrest with
    | nil => cases hab <;> exact .same _
    | cons hcd hrest =>
      cases hrest with
      | cons => cases hab <;> exact .same _
      | nil =>
        cases hab with
        | lambda hfg =>
          refine (echoes_selectedPath hfg).bind fun path _ hpath => hpath ▸ ?_
          refine (Echoes.context sequence).bind fun d d' hd => ?_
          rw [hd.statement_eq]
          refine (echoes_setItem hc h hfg path hcd sequence parent).bind fun item _ hitem => hitem ▸ ?_
          refine (echoes_bindTarget hc _ _).bind fun _ _ _ => (Echoes.modifyStatement _ _).bind fun _ _ _ => ?_
          exact .pure rfl
        | _ => exact .same _

theorem echoes_build (b : Builder) {node node' : Node} (hnode : node.erase = node'.erase)
    (sequence parent : Option ContextId) :
    c'.Echoes Eq (c.build rec b node sequence parent) fun rec' => c'.build rec' b node' sequence parent := by
  unfold build
  rw [Node.kind_eq hnode]
  split
  · exact echoes_buildSource hc hnode parent
  · refine (Echoes.orFailSame _ sequence).bind fun sequence _ hs => hs ▸ ?_
    cases b with
    | source => exact echoes_buildSource hc hnode parent
    | filter => exact echoes_buildFilter h hnode sequence parent
    | select => exact echoes_buildSelect hnode sequence parent
    | update => exact echoes_buildUpdate hc h hnode sequence parent
    | set => exact echoes_buildSet hc h hnode sequence parent

theorem echoes_sequence (parent : Option ContextId) {node node' : Node} (hnode : node.erase = node'.erase) :
    c'.Echoes Eq (c.sequence rec parent node) fun rec' => c'.sequence rec' parent node' := by
  have hbuilder : c'.Echoes Eq (ofExcept (c.builderFor node)) fun _ => ofExcept (c'.builderFor node') := by
    rw [builderFor_eq hc hnode]
    cases c'.builderFor node' with
    | error e => exact .same e
    | ok b => exact .pure rfl
  have hprimary : c'.Echoes Eq (primarySequence? rec parent node) fun rec' =>
      primarySequence? rec' parent node' := by
    have hsource := Node.rel_primary? hnode
    unfold primarySequence?
    generalize node.primary? = o at hsource
    generalize node'.primary? = o' at hsource
    cases hsource with
    | none => exact .pure rfl
    | some hsource => exact (h.sequence parent hsource).map fun _ _ hid => congrArg some hid
  refine hbuilder.bind fun b _ hb => hb ▸ hprimary.bind fun source _ hs => hs ▸ ?_
  exact echoes_build hc h b hnode source parent

omit h in
/-- Whatever is compiled with some amount of fuel is compiled with enough of it on the other side. -/
theorem calls_echo (n : Nat) : (c.calls n).Echo c' := by
  induction n with
  | zero => exact ⟨fun _ _ _ _ => .exhausted, fun _ _ _ _ => .exhausted, fun _ _ => .exhausted,
      fun _ _ _ => .exhausted, fun _ _ _ _ => .exhausted⟩
  | succ n ih => exact {
      value := fun scope _ _ he => (echoes_value ih hc scope he).call fun _ => rfl
      condition := fun scope _ _ he => (echoes_condition ih scope he).call fun _ => rfl
      classify := fun id steps => (echoes_classify hc ih id steps).call fun _ => rfl
      members := fun id steps extent => (echoes_members hc ih id steps extent).call fun _ => rfl
      sequence := fun parent _ _ hnode => (echoes_sequence hc ih parent hnode).call fun _ => rfl }

end Compiler
end ObjectQuery
