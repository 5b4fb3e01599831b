import ObjectQuery.Proofs.Repeated.Values

/-!
Queries that are compiled again. Each has a statement of its own, and does there what it did in the other one the first
time.
-/
namespace ObjectQuery

open Build Compiler

namespace Replay

variable {R : Replay} {m n : R.Moment} {ℓ : Prop} {i j a b : ContextId} {p q : Option ContextId} {c : Compiler}
  {rec : ObjectQuery.Calls} {f member : Lambda} {e : Expr}

/-- The same column, whatever the value is. -/
def Assigns (_ : R.Moment) (x y : SetItem) : Prop :=
  y.column = x.column

theorem repeats_composable {act act' : Build ContextId} (h : Repeats c m Moment.Own act act') (operation : String) :
    Repeats c m Moment.Own (composable operation act) (composable operation act') :=
  h.bind fun _ _ _ _ hij =>
    (Repeats.ensureComposable hij.1 operation operation).bind fun _ hn _ _ _ => .pure (hij.mono hn)

theorem repeats_buildSource (hpq : Option.Rel (m.At False) p q) (name : String) :
    Repeats c m Moment.Own (c.buildSource (.source name) p) (c.buildSource (.source name) q) := by
  refine (repeats_entity name).bind fun n₁ h₁ entity _ ⟨heq, _⟩ => ?_
  rw [heq]
  refine Repeats.nextAlias.bind fun n₂ h₂ text text' _ => ?_
  refine Repeats.bind (Repeats.addStatement rfl) fun n₃ h₃ k k' ⟨hk, hk'⟩ => ?_
  have hparent := rel_imp (fun _ _ hij => ((Moment.At.mono hij h₁).mono h₂).mono h₃) hpq
  have hrows : n₃.RowsImage False ⟨entity.name, entity.table, text, []⟩ ⟨entity.name, entity.table, text', []⟩ :=
    ⟨rfl, rfl, fun _ _ hi => by cases hi⟩
  refine (Repeats.addContext (.table hparent hrows) hk' False.elim fun r hr => ?_).imp fun _ _ _ _ hij =>
    ⟨hij.1, _, hij.2, hk, rfl⟩
  cases hr
  rfl

/-! Updates. -/

theorem repeats_targetColumn (target : TableId) (name : String) :
    Repeats c m Equal (c.targetColumn target name) (c.targetColumn target name) := by
  refine ((Repeats.orDangling _).then fun _ _ _ => Repeats.orFail _ _ _).then fun _ _ e => ?_
  split
  · exact .pure rfl
  · exact .fail _

theorem repeats_bindTarget {k : StatementId} (hk : R.first.statements.length ≤ k) (table : TableId) :
    Repeats c m Whatever (c.bindTarget k table) (c.bindTarget (R.slot k) table) := by
  refine (Repeats.statement hk).bind fun n _ st st' htarget => ?_
  rw [Assignments.conflict?, Assignments.conflict?, htarget]
  split
  · exact (Repeats.orDangling _).then fun _ _ _ => (Repeats.orDangling _).then fun _ _ _ => .fail _
  · refine (Repeats.modifyStatement k fun st st' htarget => ?_).imp fun _ _ _ _ _ => trivial
    simp only [Assignments.bind, htarget]

variable (h : R.Calls c rec)

include h

theorem repeats_settableColumn (hij : m.At ℓ i j) (steps : List String) (table : Option TableId) :
    Repeats c m Equal (settableColumn rec i steps table) (settableColumn rec j steps table) := by
  refine (h.classify steps hij).answer (fun e => ?_) fun n _ d d' hd => ?_
  · cases e <;> exact ⟨_, rfl⟩
  · cases hd with
    | field =>
      dsimp only
      split
      · exact .fail _
      · exact .pure rfl
    | table | association | computed | object => exact .fail _

theorem repeats_computedColumn (hij : m.Own i j) (path : Path) :
    Repeats c m Equal (c.computedColumn rec path i) (c.computedColumn rec path j) := by
  refine .contextOwn hij fun d e _ hnew hs => ?_
  rw [hs]
  refine (Repeats.statement hnew).bind fun n hn st st' htarget => ?_
  rw [htarget]
  split
  · exact repeats_targetColumn _ _
  · exact repeats_settableColumn h (hij.mono hn).1 _ _

theorem repeats_restrict (hij : m.Own i j) (hpq : Option.Rel (m.At False) p q) (f : Lambda) :
    Repeats c m Whatever (restrict rec i f p) (restrict rec j f q) := by
  have hcondition : Repeats c m Whatever (lambdaCondition rec i f p) (lambdaCondition rec j f q) :=
    (Repeats.lambdaScope f hij.1 hpq).bind fun n _ a b hab => (h.condition f.body hab).imp fun _ _ _ _ _ => trivial
  refine hcondition.bind fun n hn x y _ => .context (hij.mono hn).1 fun d e _ _ _ hs => ?_
  rw [hs]
  refine Repeats.imp (Repeats.modifyStatement _ ?_) fun _ _ _ _ _ => trivial
  exact fun _ _ htarget => htarget

theorem repeats_setItem (hij : m.Own i j) (hpq : Option.Rel (m.At False) p q) (member : Lambda) (path : Path)
    (operand : Argument) :
    Repeats c m Assigns (c.setItem rec member path operand i p) (c.setItem rec member path operand j q) := by
  cases operand with
  | lambda f =>
    refine (repeats_computedColumn h hij path).then fun n hn column => ?_
    have hparent := rel_imp (fun _ _ hab => Moment.At.mono hab hn) hpq
    refine (Repeats.lambdaScope f (hij.mono hn).1 hparent).bind fun k hk a b hab => ?_
    -- nothing is known of values in new statements
    refine (Repeats.withParent (P := Whatever) ((hij.mono hn).mono hk) hab (fun _ _ _ _ _ _ => trivial) fun o ho =>
      ?_).bind fun _ _ _ _ _ => .pure rfl
    exact (h.value f.body (hab.mono ho)).imp fun _ _ _ _ _ => trivial
  | value e =>
    refine (repeats_settableColumn h hij.1 path.steps none).then fun n hn column => ?_
    have hparent := rel_imp (fun _ _ hab => Moment.At.mono hab hn) hpq
    refine (Repeats.lambdaScope member (hij.mono hn).1 hparent).bind fun k _ a b hab => ?_
    exact (h.value e hab).bind fun _ _ _ _ _ => .pure rfl
  | entity | sequence => exact .fail _

theorem repeats_setOver (hij : m.Own i j) (hpq : Option.Rel (m.At False) p q) (member : Lambda) (operand : Argument) :
    Repeats c m Moment.Own (c.setOver rec member operand i p) (c.setOver rec member operand j q) := by
  unfold setOver
  cases selectedPath member with
  | error e => exact .fail e
  | ok path =>
    refine Repeats.then (.pure rfl) fun n₁ h₁ path => ?_
    refine .contextOwn (hij.mono h₁) fun d e _ hnew hs => ?_
    rw [hs]
    refine (repeats_setItem h (hij.mono h₁) (rel_imp (fun _ _ hab => hab.mono h₁) hpq) member path operand).bind
      fun n₂ h₂ x y hxy => ?_
    rw [show y.column = x.column from hxy]
    refine (repeats_bindTarget hnew _).bind fun n₃ h₃ _ _ _ => ?_
    refine Repeats.bind (Repeats.modifyStatement _ ?_) fun n₄ h₄ _ _ _ => .pure ?_
    · exact fun _ _ htarget => htarget
    · exact (((hij.mono h₁).mono h₂).mono h₃).mono h₄

theorem repeats_sequence (hpq : Option.Rel (m.At False) p q) (operation : String) (node : Node) :
    Repeats c m Moment.Own (composable operation (c.sequence rec p node))
      (composable operation (c.sequence rec q node)) := by
  have hmono : ∀ {n : R.Moment}, m.Later n → Option.Rel (n.At False) p q := fun hn =>
    rel_imp (fun _ _ hab => hab.mono hn) hpq
  cases hb : c.builderFor node with
  | error e =>
    rw [Compiler.sequence, hb]
    exact .fail e
  | ok b =>
    have hset : ∀ {source : Node} {member : Lambda} {operand : Argument},
        c.builderFor (source.chain .set [.lambda member, operand]) = .ok .set → Repeats c m Moment.Own
          (c.sequence rec p (source.chain .set [.lambda member, operand]))
          (c.sequence rec q (source.chain .set [.lambda member, operand])) := by
      intro source member operand hb
      rw [sequence_set_over hb, sequence_set_over hb]
      exact (h.sequence _ _ hpq).bind fun n hn i j hij => repeats_setOver h hij (hmono hn) member operand
    have hshape := Builder.shape_of_claims (claims_of_builderFor hb)
    cases hshape with
    | source name =>
      refine repeats_composable ?_ operation
      rw [Compiler.sequence, Compiler.sequence, hb]
      exact repeats_buildSource hpq name
    | filter source f =>
      refine repeats_composable ?_ operation
      rw [sequence_filter_over hb, sequence_filter_over hb]
      refine (h.sequence _ _ hpq).bind fun n hn i j hij => ?_
      exact (repeats_restrict h hij (hmono hn) f).bind fun _ hk _ _ _ => .pure (hij.mono hk)
    | select source f =>
      refine repeats_composable ?_ operation
      rw [sequence_select_over hb, sequence_select_over hb]
      refine (h.sequence _ _ hpq).bind fun n hn i j hij => .contextOwn hij fun d e _ hnew hs => ?_
      refine (Repeats.addContext (.projection (hmono hn) hij.1) hs False.elim fun _ hr => by cases hr).imp
        fun _ _ _ _ hij => ⟨hij.1, _, hij.2, hnew, rfl⟩
    | set source member value => exact repeats_composable (hset hb) operation
    | setWith source member value => exact repeats_composable (hset hb) operation
    | update | updateWith | updateWhere | updateInto => exact fun _ _ _ hrun => (run_composable_update_ne hb hrun).elim

omit h

theorem repeats_calls (c : Compiler) (k : Nat) : R.Calls c (c.calls k) := by
  induction k with
  | zero =>
    exact ⟨fun _ _ => .throw _, fun _ _ => .throw _, fun _ _ => .throw _, fun _ _ _ => .throw _, fun _ _ _ => .throw _⟩
  | succ k ih =>
    exact ⟨fun e hab => repeats_value ih hab e, fun e hab => repeats_condition ih hab e,
      fun steps hij => repeats_classify ih hij steps, fun steps extent hij => repeats_members ih hij steps extent,
      fun operation node hpq => repeats_sequence ih hpq operation node⟩

end Replay
end ObjectQuery
