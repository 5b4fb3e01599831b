import ObjectQuery.Proofs.Laws.Operator
import ObjectQuery.Proofs.Nested.Values
import ObjectQuery.Proofs.Twins.Values

/-!
Operators are compiled alike over sequences of one's own. So every call ends alike, however much fuel the other side
has left.
-/
namespace ObjectQuery

open Build

/-- The same answer, and paired contexts. -/
structure Answer.Alike (w : Pairing) (a b : Answer) : Prop where
  holds : b.holds = a.holds
  context : Option.Rel w.same a.context b.context

namespace Compiler

variable {c : Compiler} {side : Side} {free : StatementId → Prop} {rec rec' : Calls} {w : Pairing} {i j k l : ContextId}
  {m : StatementId} {p q : Option ContextId}

/-! Rows and setters. -/

theorem twins_rowColumns (hij : w.same i j) (outer : Option String) (extent : Extent) :
    Twins side free w Equal (c.rowColumns i outer extent) (c.rowColumns j outer extent) := by
  refine .context hij fun d e hde => ?_
  rw [hde.kindName]
  refine (Twins.orFailRel _ hde.rows?).bind fun v _ r r' hrr => ?_
  obtain ⟨-⟩ := hrr
  refine (twins_entity _).then fun _ _ entity => ?_
  cases extent with
  | key => exact (Twins.orDangling _).then fun _ _ keys => (Twins.pure rfl).then fun _ _ columns => .pure rfl
  | field | all => exact (Twins.pure rfl).then fun _ _ columns => .pure rfl

theorem twins_enterItems (hij : w.same i j) (items : List Item) :
    Twins side free w Equal (enterItems i items) (enterItems j items) := by
  refine .context hij fun d e hde => ?_
  rw [hde.statement]
  refine (Twins.statement d.statement).bind fun v _ st st' hst => ?_
  obtain ⟨u, rfl⟩ := hst.assigns
  exact (Twins.modifyStatement fun st u => ⟨u, rfl⟩).then fun _ _ _ => .pure rfl

theorem twins_targetColumn (target : TableId) (name : String) :
    Twins side free w Equal (c.targetColumn target name) (c.targetColumn target name) := by
  have hover : Twins side free w Equal (c.entityOver target) (c.entityOver target) :=
    (Twins.orDangling _).then fun _ _ _ => .orFail _ _
  refine hover.then fun _ _ e => ?_
  split
  · exact .pure rfl
  · exact .fail _

/-- The target of a statement that is not free is the same on both sides. -/
theorem twins_bindTarget (hm : ¬ free m) (table : TableId) :
    Twins side free w Equal (c.bindTarget m table) (c.bindTarget m table) := by
  refine (Twins.statement m).bind fun v _ st st' hst => ?_
  obtain rfl := hst.eq hm
  split
  · exact (Twins.orDangling _).then fun _ _ _ => (Twins.orDangling _).then fun _ _ _ => .fail _
  · exact .modifyStatement fun _ _ => ⟨_, rfl⟩

theorem twins_addItems (m : StatementId) (items : List SetItem) :
    Twins side free w Equal (addItems m items) (addItems m items) :=
  .modifyStatement fun _ _ => ⟨_, rfl⟩

theorem twins_completeUpdate (hm : ¬ free m) :
    Twins side free w Equal (c.completeUpdate m) (c.completeUpdate m) := by
  refine (Twins.statement m).bind fun v _ st st' hst => ?_
  obtain rfl := hst.eq hm
  dsimp only
  split
  · exact (Twins.orDangling _).then fun _ _ _ => .fail _
  · exact .modifyStatement fun st u => ⟨u, rfl⟩

theorem twins_targetTable (hij : w.same i j) : Twins side free w Equal (targetTable i) (targetTable j) := by
  refine .context hij fun d e hde => ?_
  cases hde with
  | table _ rows =>
    obtain ⟨-⟩ := rows
    exact .pure rfl
  | association | projection | lambda | update => exact .fail _

variable (h : rec.Twins side free rec')

include h

theorem twins_ask (hij : w.same i j) (steps : List String) (request : Request) :
    Twins side free w Answer.Alike (ask rec i steps request) (ask rec' j steps request) := by
  have hno : ∀ {v : Pairing}, Answer.no.Alike v Answer.no := ⟨rfl, .none⟩
  refine .context hij fun d e hde => ?_
  rw [hde.isUpdate]
  split
  · exact .fail _
  · refine (h.classify steps hij).recover (fun v _ x y hxy => .pure ?_) fun _ _ e => ?_
    · cases hxy with
      | table rows | association rows => cases request <;> first | exact hno | exact ⟨rfl, .some rows⟩
      | object owner => cases request <;> first | exact hno | exact ⟨rfl, .some (v.same_of_twin owner)⟩
      | field | computed => cases request <;> exact ⟨rfl, .none⟩
    · cases e with
      | memberResolution => exact .pure hno
      | _ => exact .fail _

theorem twins_members (hij : w.same i j) (steps : List String) (extent : Extent) :
    Twins side free w Equal (c.members rec i steps extent) (c.members rec' j steps extent) := by
  refine (h.classify steps hij).bind fun v hv x y hxy => ?_
  cases hxy with
  | field | computed => exact .pure rfl
  | table rows | association rows => exact twins_rowColumns rows none extent
  | object owner steps =>
    have howner := v.same_of_twin owner
    refine .context howner fun d e hde => ?_
    cases hde with
    | projection =>
      refine (Twins.mapM _ fun x hx name _ => ?_).then fun _ _ groups => .pure rfl
      exact (h.members _ extent (hx.same howner)).then fun _ _ items => .pure rfl
    | table | association | lambda | update => exact twins_rowColumns howner _ extent

theorem twins_itemsOf (hij : w.same i j) (steps : List String) (extent : Extent) :
    Twins side free w Equal (itemsOf rec i steps extent) (itemsOf rec' j steps extent) :=
  (h.members steps extent hij).then fun _ _ _ => .pure rfl

theorem twins_itemsOfExpr (hij : w.same i j) (e : Expr) (extent : Extent) :
    Twins side free w Equal (itemsOfExpr rec i e extent) (itemsOfExpr rec' j e extent) := by
  unfold itemsOfExpr
  split
  · exact (Twins.rootOf hij _).bind fun _ _ _ _ hs => twins_itemsOf h hs _ extent
  · exact (h.value e hij).then fun _ _ _ => .pure rfl

theorem twins_selectItems (hij : w.same i j) (steps : List String) (extent : Extent) :
    Twins side free w Equal (selectItems rec i steps extent) (selectItems rec' j steps extent) :=
  (twins_itemsOf h hij steps extent).then fun _ hv items => twins_enterItems (hv.same hij) items

theorem twins_settableColumn (hij : w.same i j) (steps : List String) (table : Option TableId) :
    Twins side free w Equal (settableColumn rec i steps table) (settableColumn rec' j steps table) := by
  refine (h.classify steps hij).recover (fun _ _ x y hxy => ?_) fun _ _ e => ?_
  · cases hxy with
    | field k a =>
      dsimp only
      split
      · exact .fail _
      · exact .pure rfl
    | table | association | computed | object => exact .fail _
  · cases e <;> exact .fail _

theorem twins_entered? (hij : w.same i j) (steps : List String) (value : Expr) :
    Twins side free w Equal (entered? rec i steps value) (entered? rec' j steps value) := by
  unfold entered?
  split
  · exact .pure rfl
  · refine (twins_ask h hij steps .field).bind fun _ _ a b hab => ?_
    rw [hab.holds]
    exact .pure rfl

theorem twins_flatten (hij : w.same i j) (hkl : w.same k l) (table : Option TableId) (depth : Nat)
    (outer : List String) (bindings : List (String × Expr)) :
    Twins side free w Equal (flatten c rec i table k depth outer bindings)
      (flatten c rec' j table l depth outer bindings) := by
  induction depth generalizing w outer bindings with
  | zero => exact .fail _
  | succ depth ih =>
    rw [flatten_succ, flatten_succ]
    refine (Twins.mapM _ fun v hv binding _ => ?_).then fun _ _ groups => .pure rfl
    refine (twins_entered? h (hv.same hij) _ _).then fun x hx nested => ?_
    have hij := hx.same (hv.same hij)
    have hkl := hx.same (hv.same hkl)
    cases nested with
    | some nested => exact ih hij hkl _ nested
    | none =>
      refine (twins_settableColumn h hij _ table).then fun y hy column => ?_
      exact (h.value _ (hy.same hkl)).then fun _ _ v => .pure rfl

theorem twins_setterItems (hij : w.same i j) (hkl : w.same k l) (hp : Option.Rel w.same p q) (setter : Lambda)
    (table : Option TableId) :
    Twins side free w Equal (c.setterItems rec setter i table k p) (c.setterItems rec' setter j table l q) := by
  refine (Twins.lambdaScope setter hkl hp).bind fun v hv scope scope' hs => ?_
  have hij := hv.same hij
  split
  · exact twins_flatten h hij hs table _ [] _
  · refine (twins_itemsOfExpr h hs _ .all).then fun x hx items => Twins.mapM items fun y hy item _ => ?_
    refine (Twins.orFail _ _).then fun z hz member => ?_
    exact (twins_settableColumn h (hz.same (hy.same (hx.same hij))) _ table).then fun _ _ column => .pure rfl

/-! Operators. -/

theorem twins_restrict (hij : w.same i j) (hp : Option.Rel w.same p q) (f : Lambda) :
    Twins side free w Equal (restrict rec i f p) (restrict rec' j f q) := by
  have hcondition : Twins side free w Equal (lambdaCondition rec i f p) (lambdaCondition rec' j f q) :=
    (Twins.lambdaScope f hij hp).bind fun _ _ _ _ hs => h.condition f.body hs
  refine hcondition.then fun v hv condition => .context (hv.same hij) fun d e hde => ?_
  rw [hde.statement]
  exact .modifyStatement fun st u => ⟨u, rfl⟩

theorem twins_updatedRows? (hij : w.same i j) :
    Twins side free w (fun v => Option.Rel fun a b => v.same a.1 b.1 ∧ a.2 = b.2) (updatedRows? rec i)
      (updatedRows? rec' j) := by
  have hrows : Twins side free w (fun v => Option.Rel v.same) (rowsOf? rec i) (rowsOf? rec' j) := by
    refine (twins_ask h hij [] .association).bind fun v hv a b hab => ?_
    rw [hab.holds]
    split
    · exact .pure hab.context
    · refine (twins_ask h (hv.same hij) [] .table).bind fun x _ a b hab => ?_
      rw [hab.holds]
      split
      · exact .pure hab.context
      · exact .pure .none
  refine hrows.bind fun v _ a b hab => ?_
  cases hab with
  | none => exact .pure .none
  | some hkl =>
    refine .context hkl fun d e hde => .pure ?_
    have hrr := hde.rows?
    generalize d.rows? = r at hrr
    generalize e.rows? = r' at hrr
    cases hrr with
    | none => exact .none
    | some hrr =>
      obtain ⟨-⟩ := hrr
      exact .some ⟨hkl, rfl⟩

theorem twins_updateWith (hm : ¬ free m) (hij : w.same i j) (hp : Option.Rel w.same p q) (setter : Lambda) :
    Twins side free w Equal (c.updateWith rec m i setter p) (c.updateWith rec' m j setter q) := by
  refine (twins_updatedRows? h hij).bind fun v hv rows rows' hrows => ?_
  have hij := hv.same hij
  have hp := rel_imp (fun _ _ => hv.same) hp
  cases hrows with
  | @some a b hab =>
    obtain ⟨a, table⟩ := a
    obtain ⟨b, table'⟩ := b
    obtain ⟨hab, rfl⟩ : v.same a b ∧ table = table' := hab
    refine (twins_bindTarget hm table).then fun x hx _ => ?_
    refine (twins_setterItems h (hx.same hab) (hx.same hij) (rel_imp (fun _ _ => hx.same) hp) setter _).then ?_
    exact fun _ _ items => twins_addItems m items
  | none =>
    refine (twins_setterItems h hij hij hp setter none).then fun x hx items => ?_
    refine (Twins.forM items fun _ _ item _ => twins_bindTarget hm item.column.table).then ?_
    exact fun _ _ _ => twins_addItems m items

theorem twins_assignInto (hm : ¬ free m) (hij : w.same i j) (hkl : w.same k l) (hp : Option.Rel w.same p q)
    (table : TableId) (setter : Lambda) :
    Twins side free w Equal (c.assignInto rec m i k table setter p) (c.assignInto rec' m j l table setter q) := by
  refine (twins_selectItems h hij [] .all).then fun v hv _ => ?_
  refine (Twins.modifyStatement fun st u => ⟨u, rfl⟩).then fun x hx _ => ?_
  have hv := hv.trans hx
  refine (twins_setterItems h (hv.same hkl) (hv.same hij) (rel_imp (fun _ _ => hv.same) hp) setter _).then ?_
  refine fun _ _ items => (Twins.modifyStatement fun st u => ⟨u, rfl⟩).then fun _ _ _ => ?_
  exact (twins_bindTarget hm table).then fun _ _ _ => twins_addItems m items

theorem twins_updateInto (hm : ¬ free m) (hij : w.same i j) (hp : Option.Rel w.same p q) (target : Node)
    (setter : Lambda) :
    Twins side free w Equal (c.updateInto rec m i target setter p) (c.updateInto rec' m j target setter q) := by
  refine (h.sequence target hp).bind fun v hv into into' hinto => ?_
  have hinto := v.same_of_own hinto
  refine (twins_targetTable hinto).then fun x hx table => ?_
  exact twins_assignInto h hm (hx.same (hv.same hij)) (hx.same hinto)
    (rel_imp (fun _ _ h => hx.same (hv.same h)) hp) table setter

theorem twins_assign (hm : ¬ free m) (hij : w.same i j) (hp : Option.Rel w.same p q) (operands : List Argument) :
    Twins side free w Equal (c.assign rec m i operands p) (c.assign rec' m j operands q) := by
  unfold assign
  split
  · refine (twins_updatedRows? h hij).bind fun v _ rows rows' hrows => ?_
    cases hrows with
    | none => exact .pure rfl
    | @some a b hab =>
      obtain ⟨-, htable⟩ := hab
      dsimp only
      rw [htable]
      exact twins_bindTarget hm _
  · exact twins_updateWith h hm hij hp _
  · refine (twins_restrict h hij hp _).then fun v hv _ => ?_
    exact twins_updateWith h hm (hv.same hij) (rel_imp (fun _ _ => hv.same) hp) _
  · exact twins_updateInto h hm hij hp _ _
  · exact .fail _

theorem twins_computedColumn (hij : w.own i j) (path : Path) :
    Twins side free w Equal (c.computedColumn rec path i) (c.computedColumn rec' path j) := by
  refine .contextOwn hij fun d e hde hfree => ?_
  rw [hde.statement]
  refine (Twins.statement d.statement).bind fun v hv st st' hst => ?_
  obtain rfl := hst.eq hfree
  split
  · exact twins_targetColumn _ _
  · exact twins_settableColumn h (hv.same (w.same_of_own hij)) _ none

theorem twins_setItem (hij : w.own i j) (hp : Option.Rel w.same p q) (member : Lambda) (path : Path)
    (operand : Argument) :
    Twins side free w Equal (c.setItem rec member path operand i p) (c.setItem rec' member path operand j q) := by
  have hsame := w.same_of_own hij
  cases operand with
  | lambda f =>
    refine (twins_computedColumn h hij path).then fun v hv column => ?_
    have hp := rel_imp (fun _ _ => hv.same) hp
    refine (Twins.lambdaScope f (hv.same hsame) hp).bind fun x hx scope scope' hs => ?_
    have hvalue : ∀ y, x.Within y → Twins side free y Equal (rec.value scope f.body) (rec'.value scope' f.body) :=
      fun y hy => h.value f.body (hy.same hs)
    exact (Twins.withParent (hx.own (hv.own hij)) (.some hs) hvalue).then fun _ _ _ => .pure rfl
  | value e =>
    refine (twins_settableColumn h hsame path.steps none).then fun v hv column => ?_
    have hp := rel_imp (fun _ _ => hv.same) hp
    refine (Twins.lambdaScope member (hv.same hsame) hp).bind fun x hx scope scope' hs => ?_
    exact (h.value e hs).then fun _ _ _ => .pure rfl
  | «entity» | «sequence» => exact .fail _

variable {node : Node}

omit h in
theorem twins_buildSource (hp : Option.Rel w.same p q) :
    Twins side free w Pairing.own (c.buildSource node p) (c.buildSource node q) := by
  unfold buildSource
  split
  · refine (twins_entity _).then fun v hv e => Twins.nextAlias.then fun x hx aliasName => ?_
    refine (Twins.addStatement _).bind fun y hy m n hmn => ?_
    obtain ⟨rfl, hfree⟩ := hmn
    have hp := rel_imp (fun _ _ h => hy.same (hx.same (hv.same h))) hp
    exact .addOwn (.table hp ⟨.nil⟩) rfl hfree
  · exact .fail _

theorem twins_buildFilter (hij : w.own i j) (hp : Option.Rel w.same p q) :
    Twins side free w Pairing.own (buildFilter rec node i p) (buildFilter rec' node j q) := by
  refine (Twins.ensureComposable (w.same_of_own hij) _).then fun v hv _ => ?_
  have hij := hv.own hij
  split
  · refine (twins_restrict h (v.same_of_own hij) (rel_imp (fun _ _ => hv.same) hp) _).then fun x hx _ => ?_
    exact .pure (hx.own hij)
  · exact .fail _

omit h in
theorem twins_buildSelect (hij : w.own i j) (hp : Option.Rel w.same p q) :
    Twins side free w Pairing.own (buildSelect node i p) (buildSelect node j q) := by
  refine (Twins.ensureComposable (w.same_of_own hij) _).then fun v hv _ => ?_
  have hij := hv.own hij
  split
  · refine .contextOwn hij fun d e hde hfree => ?_
    rw [hde.statement]
    exact .addOwn (.projection (rel_imp (fun _ _ => hv.same) hp) (v.same_of_own hij)) rfl hfree
  · exact .fail _

theorem twins_buildUpdate (hij : w.own i j) (hp : Option.Rel w.same p q) :
    Twins side free w Pairing.own (c.buildUpdate rec node i p) (c.buildUpdate rec' node j q) := by
  refine (Twins.ensureComposable (w.same_of_own hij) _).then fun v hv _ => ?_
  have hij := hv.own hij
  have hp := rel_imp (fun _ _ => hv.same) hp
  refine .contextOwn hij fun d e hde hfree => ?_
  rw [hde.statement]
  refine (twins_assign h hfree (v.same_of_own hij) hp _).then fun x hx _ => ?_
  refine (twins_completeUpdate hfree).then fun y hy _ => ?_
  have hx := hx.trans hy
  exact .addOwn (.update (rel_imp (fun _ _ => hx.same) hp) (hx.same (v.same_of_own hij))) rfl hfree

theorem twins_buildSet (hij : w.own i j) (hp : Option.Rel w.same p q) :
    Twins side free w Pairing.own (c.buildSet rec node i p) (c.buildSet rec' node j q) := by
  refine (Twins.ensureComposable (w.same_of_own hij) _).then fun v hv _ => ?_
  have hij := hv.own hij
  have hp := rel_imp (fun _ _ => hv.same) hp
  split
  · refine (Twins.ofExcept _).then fun x hx path => .contextOwn (hx.own hij) fun d e hde hfree => ?_
    rw [hde.statement]
    refine (twins_setItem h (hx.own hij) (rel_imp (fun _ _ => hx.same) hp) _ path _).then fun y hy item => ?_
    refine (twins_bindTarget hfree _).then fun y' hy' _ => (twins_addItems _ _).then fun z hz _ => ?_
    exact .pure (hz.own (hy'.own (hy.own (hx.own hij))))
  · exact .fail _

theorem twins_build (b : Builder) (hij : w.own i j) (hp : Option.Rel w.same p q) :
    Twins side free w Pairing.own (c.build rec b node (some i) p) (c.build rec' b node (some j) q) := by
  cases b with
  | source => exact twins_buildSource hp
  | filter => exact twins_buildFilter h hij hp
  | select => exact twins_buildSelect hij hp
  | update => exact twins_buildUpdate h hij hp
  | set => exact twins_buildSet h hij hp

theorem twins_sequence (hp : Option.Rel w.same p q) (node : Node) :
    Twins side free w Pairing.own (c.sequence rec p node) (c.sequence rec' q node) := by
  intro s t hst
  have hsource : ∀ b, c.builderFor node = .ok b → Twins side free w Pairing.own
      (primarySequence? rec p node >>= fun source => c.build rec b node source p)
      (primarySequence? rec' q node >>= fun source => c.build rec' b node source q) := by
    intro b hb
    rcases primary?_of_builderFor hb with ⟨rfl, hnone⟩ | ⟨-, inner, hinner⟩
    · rw [primarySequence?, primarySequence?, hnone]
      exact twins_buildSource hp
    · rw [primarySequence?, primarySequence?, hinner, bind_map_left, bind_map_left]
      exact (h.sequence inner hp).bind fun v hv _ _ hij => twins_build h b hij (rel_imp (fun _ _ => hv.same) hp)
  rw [sequence, sequence]
  cases hb : c.builderFor node with
  | error e => exact Twins.fail e s t hst
  | ok b => exact hsource b hb s t hst

omit h

/-- Every call ends alike on both sides, unless it runs out of fuel on the side that has less. -/
theorem calls_twins (c : Compiler) {n n' : Nat} (hn : side.Covers n n') :
    (c.calls n).Twins side free (c.calls n') := by
  induction n generalizing n' with
  | zero =>
    cases side with
    | left => exact Calls.twins_exhausted_left _
    | right =>
      obtain rfl := Nat.le_zero.mp hn
      exact Calls.twins_exhausted_right _
  | succ n ih =>
    cases n' with
    | zero =>
      cases side with
      | left => exact absurd hn (Nat.not_succ_le_zero n)
      | right => exact Calls.twins_exhausted_right _
    | succ n' =>
      have h := ih hn.pred
      exact ⟨fun e hij => twins_value h hij e, fun e hij => twins_condition h hij e,
        fun steps hij => twins_classify h hij steps, fun steps extent hij => twins_members h hij steps extent,
        fun node hp => twins_sequence h hp node⟩

end Compiler
end ObjectQuery
