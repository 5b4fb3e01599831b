import ObjectQuery.Compile.Query
import ObjectQuery.Proofs.Calls.Setter

/-!
Every operator works on the statement of its sequence, and the calls of a compilation keep what they promise
at every depth.
-/
namespace ObjectQuery

open World Build

/-- The context works on the statement and has no rows of its own. -/
def World.HasNoRows (σ : World) (id : ContextId) (m : StatementId) : Prop :=
  ∃ d, σ.context? id = some d ∧ d.statement = m ∧ d.rows? = none

theorem World.HasNoRows.sited {σ : World} {id : ContextId} {m : StatementId} (h : σ.HasNoRows id m) :
    σ.Sited id m := by
  obtain ⟨d, hd, hm, -⟩ := h
  exact ⟨d, hd, hm⟩

/-- The action compiles an operator over the sequence: it may write the statement of the sequence, whose query
is nested under the parent. -/
structure Over (F : StatementId → Prop) (σ : World) (parent : Option ContextId) (sequence : ContextId)
    (m : StatementId) : Prop where
  fresh : Fresh F σ
  own : F m
  sited : σ.Sited sequence m
  nested : σ.Nested parent m

theorem Over.mono {F : StatementId → Prop} {σ τ : World} {parent : Option ContextId}
    {sequence : ContextId} {m : StatementId} (ho : Over F σ parent sequence m) (h : Grows σ τ) :
    Over F τ parent sequence m :=
  ⟨ho.fresh.mono h, ho.own, ho.sited.mono h, ho.nested.mono h⟩

theorem Over.inside {F : StatementId → Prop} {σ : World} {parent : Option ContextId}
    {sequence : ContextId} {m : StatementId} (ho : Over F σ parent sequence m) : σ.Inside parent m :=
  ho.nested.inside

namespace Compiler

variable [Observer] {c : Compiler} {K : Content c} {F : StatementId → Prop} {σ : World}
  {m : StatementId} {rec : Calls} {parent : Option ContextId} {sequence : ContextId}

omit [Observer] in
/-- A new statement can be nested under any parent that is placed. -/
theorem exists_nested_begin (hv : Valid c σ) (hp : Placed σ parent) :
    ∃ o, ∀ s, (σ.begin s o).Nested parent σ.state.statements.length := by
  cases parent with
  | none => exact ⟨none, fun s => by simp [Nested, begin, ← hv.outer]⟩
  | some p =>
    obtain ⟨a, ha⟩ := hp p rfl
    exact ⟨some a, fun s => ⟨a, ha.mono (grows_begin σ s _), by simp [begin, ← hv.outer]⟩⟩

omit [Observer] in
theorem reads_begin {t : TableSource} {o : Option StatementId} :
    (σ.begin { Statement.empty with sources := ⟨some t, []⟩ } o).Reads σ.state.statements.length t :=
  ⟨_, statement?_begin_self .., by simp [Sources.tables]⟩

theorem holds_enterTable {q : Rows} (hn : σ.Nested parent m)
    (hq : RowsOk c σ σ.state.contexts.length m q) (hnew : q.followed = [] ∧ σ.Unused q.aliasName) :
    Holds c K F σ (addContext (.table parent m q))
      fun id τ => τ.Sited id m ∧ τ.Nested parent m ∧ ∀ k, τ.statement? k = σ.statement? k := by
  have hok : ContextOk c σ σ.state.contexts.length (.table parent m q) := by
    obtain ⟨s, hs, -⟩ := hq.reads
    refine ⟨(List.getElem?_eq_some_iff.mp hs).1, hn.inside, ?_, by simp, by simp [Context.ranges]⟩
    intro _ he
    cases he
    exact hq
  refine (Holds.addContext (.enter _ hok ?_)).imp ?_
  · intro _ he
    cases he
    exact hnew
  · intro _ _ h he
    obtain ⟨rfl, rfl⟩ := he
    exact ⟨⟨_, context?_enter_self _ _, rfl⟩, hn.mono h, fun _ => rfl⟩

/-- The new statement is empty but for its source. -/
theorem holds_buildSource (hp : Placed σ parent) (node : Node) :
    Holds c K F σ (c.buildSource node parent) fun id τ => ∃ m, σ.state.statements.length ≤ m ∧
      τ.Sited id m ∧ τ.Nested parent m ∧ ∃ s, τ.statement? m = some s ∧ s.core = .empty := by
  refine .of_valid fun hv => ?_
  unfold buildSource
  split
  · refine Holds.entity.read fun e he => ?_
    refine Holds.nextAlias.bind fun _ _ h₁ hq => ?_
    obtain ⟨rfl, rfl⟩ := hq
    obtain ⟨o, hn⟩ := exists_nested_begin hv.countAlias (hp.mono h₁)
    have hbegin : Step c K F σ.countAlias _ := .begin e o (hv.unread (Nat.lt_succ_self _))
    refine (Holds.addStatement hbegin).bind fun _ _ _ hq => ?_
    obtain ⟨rfl, rfl⟩ := hq
    refine (holds_enterTable (hn _) (rowsOk_new he reads_begin (Nat.le_refl _))
      ⟨rfl, hv.unused (Nat.lt_succ_self _)⟩).imp ?_
    intro id τ _ hs
    obtain ⟨hs, hnest, hsame⟩ := hs
    exact ⟨_, Nat.le_refl _, hs, hnest, _, (hsame _).trans (statement?_begin_self ..), rfl⟩
  · exact .fail

/-- A context without rows over the same statement may be entered. -/
theorem holds_enterOver (ho : Over F σ parent sequence m) {d : Context} (hp : d.parent = parent)
    (hm : d.statement = m) (hr : d.rows? = none) (hq : d.ranges = [sequence]) :
    Holds c K F σ (addContext d)
      fun id τ => τ.context? id = some d ∧ ∀ k, τ.statement? k = σ.statement? k := by
  refine .of_valid fun hv => ?_
  obtain ⟨e, he, hsite⟩ := ho.sited
  have hok : ContextOk c σ σ.state.contexts.length d := by
    refine .of_rows?_eq_none hr (hm ▸ hsite ▸ (hv.context _ _ he).known) (hp ▸ hm ▸ ho.inside) ?_
    intro q hmem
    rw [hq] at hmem
    rw [List.mem_singleton.mp hmem, hm]
    exact ho.sited
  refine (Holds.addContext (.enter _ hok fun r h => by rw [hr] at h; cases h)).imp fun _ _ _ hw => ?_
  obtain ⟨rfl, rfl⟩ := hw
  exact ⟨context?_enter_self _ _, fun _ => rfl⟩

theorem holds_lambdaCondition (h : rec.Respect c K) (hf : Fresh F σ) (hs : σ.Sited sequence m)
    (hp : σ.Inside parent m) (l : Lambda) :
    Holds c K F σ (lambdaCondition rec sequence l parent) fun p τ => K.condition τ m p :=
  (holds_lambdaScope hs hp).bind fun _ _ hτ hs => h.condition l.body (hf.mono hτ) hs

theorem holds_restrict (h : rec.Respect c K) (ho : Over F σ parent sequence m) (l : Lambda) :
    Holds c K F σ (restrict rec sequence l parent) fun _ _ => True := by
  refine (holds_lambdaCondition h ho.fresh ho.sited ho.inside l).bind fun p τ hτ hp => ?_
  refine (Holds.sited (ho.mono hτ).sited).read fun d hs => ?_
  obtain ⟨-, rfl, -⟩ := hs
  exact (Holds.modifyStatement (.restrict _ p ho.own hp)).imp fun _ _ _ _ => trivial

theorem holds_buildFilter (h : rec.Respect c K) (ho : Over F σ parent sequence m) (node : Node) :
    Holds c K F σ (buildFilter rec node sequence parent) fun id τ => τ.Sited id m := by
  refine Holds.ensureComposable.read fun _ _ => ?_
  split
  · exact (holds_restrict h ho _).bind fun _ τ hτ _ => .pure (ho.sited.mono hτ)
  · exact .fail

theorem holds_buildSelect (ho : Over F σ parent sequence m) (node : Node) :
    Holds c K F σ (buildSelect node sequence parent) fun id τ => τ.HasNoRows id m := by
  refine Holds.ensureComposable.read fun _ _ => ?_
  split
  · refine (Holds.sited ho.sited).read fun d hm => ?_
    obtain ⟨-, hm, -⟩ := hm
    refine Holds.imp (holds_enterOver ho rfl hm rfl rfl) fun id τ _ h => ?_
    exact ⟨_, h.1, hm, rfl⟩
  · exact .fail

theorem holds_bindItems (hm : F m) (items : List SetItem) :
    Holds c K F σ (items.forM fun item => c.bindTarget m item.column.table)
      fun _ τ => ∀ i ∈ items, τ.Targets m i.column.table := by
  induction items generalizing σ with
  | nil => exact .pure (by simp)
  | cons item items ih =>
    refine (holds_bindTarget hm _).bind fun _ τ _ ht => ih.imp fun _ υ hυ hts => ?_
    exact List.forall_mem_cons.mpr ⟨ht.1.mono hυ, hts⟩

/-- Items for one table are added once the statement is bound to it. -/
theorem holds_addAssigned (hm : F m) {items : List SetItem} {table : TableId}
    (ht : σ.Targets m table) (ha : Assigns K σ m (some table) items) :
    Holds c K F σ (addItems m items) fun _ _ => True :=
  (holds_addItems hm (fun i hi => ((ha i hi).1 table rfl).symm ▸ ht) fun i hi => (ha i hi).2).imp
    fun _ _ _ _ => trivial

omit [Observer] in
theorem holds_rowsOf (h : rec.Respect c K) (ho : Over F σ parent sequence m) :
    Holds c K F σ (rowsOf? rec sequence) fun found τ => ∀ id, found = some id → τ.Sited id m := by
  refine (holds_ask h ho.fresh ho.sited [] .association).bind fun answer τ hτ ha => ?_
  have ho := ho.mono hτ
  split
  · exact .pure ha
  · refine (holds_ask h ho.fresh ho.sited [] .table).bind fun answer υ _ ha => .pure fun id he => ?_
    split at he
    · exact ha id he
    · cases he

omit [Observer] in
theorem holds_updatedRows (h : rec.Respect c K) (ho : Over F σ parent sequence m) :
    Holds c K F σ (updatedRows? rec sequence)
      fun found τ => ∀ id table, found = some (id, table) → τ.Sited id m := by
  refine (holds_rowsOf h ho).bind fun found τ _ hfound => ?_
  cases found with
  | none => exact .pure fun _ _ he => by cases he
  | some id =>
    refine Holds.context.read fun d _ => ?_
    refine .pure fun id' table he => ?_
    obtain ⟨_, -, he⟩ := Option.map_eq_some_iff.mp he
    cases he
    exact hfound id rfl

theorem holds_updateWith (h : rec.Respect c K) (ho : Over F σ parent sequence m) (setter : Lambda) :
    Holds c K F σ (c.updateWith rec m sequence setter parent) fun _ _ => True := by
  refine (holds_updatedRows h ho).bind fun found τ hτ hrows => ?_
  have ho := ho.mono hτ
  split
  · next rows table =>
    refine (holds_bindTarget ho.own table).bind fun _ υ hυ ht => ?_
    have ho := ho.mono hυ
    refine (holds_setterItems h ho.fresh ((hrows rows table rfl).mono hυ) ho.sited ho.inside setter
      (some table)).bind fun items φ hφ ha => ?_
    exact holds_addAssigned ho.own (ht.1.mono hφ) ha
  · refine (holds_setterItems h ho.fresh ho.sited ho.sited ho.inside setter none).bind
      fun items υ hυ ha => ?_
    refine (holds_bindItems ho.own items).bind fun _ φ hφ ht => ?_
    exact (holds_addItems ho.own ht fun i hi => K.value_mono hφ (ha i hi).2).imp
      fun _ _ _ _ => trivial

theorem holds_assignInto (h : rec.Respect c K) (ho : Over F σ parent sequence m) {into : ContextId}
    {k : StatementId} (hi : σ.Sited into k) (table : TableId) (setter : Lambda) :
    Holds c K F σ (c.assignInto rec m sequence into table setter parent) fun _ _ => True := by
  refine (holds_selectItems h ho.fresh ho.own ho.sited [] .all).bind fun _ τ hτ _ => ?_
  refine (Holds.modifyStatement (.settle m [] ho.own (by simp))).bind fun _ υ hυ _ => ?_
  have g := hτ.trans hυ
  have ho := ho.mono g
  refine (holds_setterItems h ho.fresh (hi.mono g) ho.sited ho.inside setter (some table)).bind
    fun items φ _ ha => ?_
  refine (Holds.modifyStatement (.settle m _ ho.own ?_)).bind fun _ ψ hψ _ => ?_
  · intro v hv
    obtain ⟨i, hm, rfl⟩ := List.mem_map.mp hv
    exact (ha i hm).2
  · refine (holds_bindTarget ho.own table).bind fun _ χ hχ ht => ?_
    exact holds_addAssigned ho.own ht.1 (ha.mono (hψ.trans hχ))

omit [Observer] in
theorem holds_targetTable (into : ContextId) :
    Holds c K F σ (targetTable into) fun table τ => τ = σ ∧
      ∃ parent m rows, σ.context? into = some (.table parent m rows) ∧ rows.table = table := by
  refine Holds.context.read fun d hd => ?_
  split
  · exact .pure ⟨rfl, _, _, _, hd, rfl⟩
  · exact .fail

theorem holds_updateInto (h : rec.Respect c K) (ho : Over F σ parent sequence m) (target : Node)
    (setter : Lambda) :
    Holds c K F σ (c.updateInto rec m sequence target setter parent) fun _ _ => True := by
  refine (h.sequence target ho.fresh ho.inside.placed).bind fun into τ hτ hi => ?_
  obtain ⟨k, -, hi, -⟩ := hi
  refine (holds_targetTable into).read fun table _ => ?_
  exact holds_assignInto h (ho.mono hτ) hi table setter

theorem holds_completeUpdate (hm : F m) :
    Holds c K F σ (c.completeUpdate m)
      fun _ τ => τ = σ.alter m fun s => { s with kind := .update } := by
  refine Holds.statement.read fun s _ => ?_
  dsimp only
  split
  · refine Holds.orDangling.read fun name _ => ?_
    exact .fail
  · exact Holds.modifyStatement (.complete m hm)

theorem holds_assign (h : rec.Respect c K) (ho : Over F σ parent sequence m)
    (operands : List Argument) :
    Holds c K F σ (c.assign rec m sequence operands parent) fun _ _ => True := by
  unfold assign
  split
  · refine (holds_updatedRows h ho).bind fun found τ _ _ => ?_
    split
    · exact (holds_bindTarget ho.own _).imp fun _ _ _ _ => trivial
    · exact .pure trivial
  · exact holds_updateWith h ho _
  · exact (holds_restrict h ho _).bind fun _ τ hτ _ => holds_updateWith h (ho.mono hτ) _
  · exact holds_updateInto h ho _ _
  · exact .fail

theorem holds_buildUpdate (h : rec.Respect c K) (ho : Over F σ parent sequence m) (node : Node) :
    Holds c K F σ (c.buildUpdate rec node sequence parent) fun id τ => τ.HasNoRows id m := by
  refine Holds.ensureComposable.read fun _ _ => ?_
  refine (Holds.sited ho.sited).read fun d hs => ?_
  obtain ⟨-, rfl, -⟩ := hs
  refine (holds_assign h ho node.operands).bind fun _ τ hτ _ => ?_
  have ho := ho.mono hτ
  refine (holds_completeUpdate ho.own).bind fun _ υ hυ _ => ?_
  refine Holds.imp (holds_enterOver (ho.mono hυ) rfl rfl rfl rfl) fun id τ _ h => ?_
  exact ⟨_, h.1, rfl, rfl⟩

omit [Observer] in
theorem holds_computedColumn (h : rec.Respect c K) (hf : Fresh F σ) (hs : σ.Sited sequence m)
    (path : Path) : Holds c K F σ (c.computedColumn rec path sequence) fun _ _ => True := by
  refine (Holds.sited hs).read fun d he => ?_
  obtain ⟨-, rfl, -⟩ := he
  refine Holds.statement.read fun s _ => ?_
  split
  · exact holds_targetColumn _ _
  · exact (holds_settableColumn h hf hs _ none).imp fun _ _ _ _ => trivial

/-- The statement of the sequence itself is only read. -/
theorem holds_setItem (h : rec.Respect c K) (hf : Fresh F σ) (hs : σ.Sited sequence m)
    (hp : σ.Inside parent m) (member : Lambda) (path : Path) (operand : Argument) :
    Holds c K F σ (c.setItem rec member path operand sequence parent)
      fun item τ => K.value τ m item.value := by
  unfold setItem
  split
  · next l =>
    refine (holds_computedColumn h hf hs path).bind fun column τ hτ _ => ?_
    refine (holds_lambdaScope (hs.mono hτ) (hp.mono hτ)).bind fun scope υ hυ hscope => ?_
    have g := hτ.trans hυ
    refine (Holds.withParent (P := fun v τ => K.value τ m v) (hs.mono g) hscope.inside
      (fun φ hφ => ?_) fun _ _ _ => K.value_mono).bind fun v φ _ hv => .pure hv
    exact h.value l.body (hf.mono (g.trans hφ)) (hscope.mono hφ)
  · next e =>
    refine (holds_settableColumn h hf hs _ none).bind fun column τ hτ _ => ?_
    refine (holds_lambdaScope (hs.mono hτ) (hp.mono hτ)).bind fun scope υ hυ hscope => ?_
    exact (h.value e (hf.mono (hτ.trans hυ)) hscope).bind fun v φ _ hv => .pure hv
  · exact .fail

theorem holds_buildSet (h : rec.Respect c K) (ho : Over F σ parent sequence m) (node : Node) :
    Holds c K F σ (c.buildSet rec node sequence parent) fun id τ => τ.Sited id m := by
  refine Holds.ensureComposable.read fun _ _ => ?_
  split
  · next member operand _ =>
    refine Holds.ofExcept.read fun path _ => ?_
    refine (Holds.sited ho.sited).read fun d hs => ?_
    obtain ⟨-, rfl, -⟩ := hs
    refine (holds_setItem h ho.fresh ho.sited ho.inside member path operand).bind fun item τ hτ hv => ?_
    have ho := ho.mono hτ
    refine (holds_bindTarget ho.own _).bind fun _ υ hυ ht => ?_
    refine (holds_addItems ho.own (by simpa using ht.1) (by simpa using K.value_mono hυ hv)).bind
      fun _ φ hφ _ => .pure ((ho.mono hυ).mono hφ).sited
  · exact .fail

theorem holds_build (h : rec.Respect c K) {n : Nat} (hn : n ≤ σ.state.statements.length)
    (hf : ∀ m, n ≤ m → F m) (hp : Placed σ parent) (b : Builder) (node : Node)
    (source : Option ContextId) (hs : ∀ id, source = some id → σ.Built n parent id) :
    Holds c K F σ (c.build rec b node source parent) fun id τ => τ.Built n parent id := by
  have hsource : Holds c K F σ (c.buildSource node parent) fun id τ => τ.Built n parent id :=
    (holds_buildSource hp node).imp fun id τ _ ⟨m, hm, hs, hnest, _⟩ =>
      ⟨m, Nat.le_trans hn hm, hs, hnest⟩
  unfold build
  split
  · exact hsource
  · refine Holds.orFail.read fun sequence he => ?_
    obtain rfl := he
    obtain ⟨m, hm, hsite, hnest⟩ := hs sequence rfl
    have ho : Over F σ parent sequence m :=
      ⟨fun k hk => hf k (Nat.le_trans hn hk), hf m hm, hsite, hnest⟩
    have hbuilt : ∀ id τ, Grows σ τ → τ.Sited id m → τ.Built n parent id :=
      fun id τ hτ hsite => ⟨m, hm, hsite, (ho.mono hτ).nested⟩
    cases b with
    | source => exact hsource
    | filter => exact (holds_buildFilter h ho node).imp hbuilt
    | select => exact (holds_buildSelect ho node).imp fun id τ hτ h => hbuilt id τ hτ h.sited
    | update => exact (holds_buildUpdate h ho node).imp fun id τ hτ h => hbuilt id τ hτ h.sited
    | set => exact (holds_buildSet h ho node).imp hbuilt

omit [Observer] in
theorem holds_primarySequence (h : rec.Respect c K) (hf : Fresh F σ) (hp : Placed σ parent) (node : Node) :
    Holds c K F σ (primarySequence? rec parent node) fun source τ =>
      ∀ id, source = some id → τ.Built σ.state.statements.length parent id := by
  unfold primarySequence?
  split
  · refine .map ((h.sequence _ hf hp).imp fun id τ _ hb id' he => ?_)
    cases he
    exact hb
  · exact .pure fun _ he => by cases he

theorem holds_sequence (h : rec.Respect c K) (hf : Fresh F σ) (hp : Placed σ parent) (node : Node) :
    Holds c K F σ (c.sequence rec parent node)
      fun id τ => τ.Built σ.state.statements.length parent id := by
  refine Holds.ofExcept.read fun b _ => ?_
  refine (holds_primarySequence h hf hp node).bind fun source τ hτ hs => ?_
  exact holds_build h hτ.length_le hf (hp.mono hτ) b node source hs

theorem calls_respect (c : Compiler) (K : Content c) (fuel : Nat) : (c.calls fuel).Respect c K := by
  -- each function of the compiler relies on the calls one level below only
  induction fuel with
  | zero => exact Calls.respect_exhausted c K
  | succ fuel ih =>
    exact ⟨fun e hf hs => holds_value ih hf hs e, fun e hf hs => holds_condition ih hf hs e,
      fun steps hf hs => holds_classify ih hf hs steps,
      fun steps extent hf hs => holds_members ih hf hs steps extent,
      fun node hf hp => holds_sequence ih hf hp node⟩

end Compiler
end ObjectQuery
