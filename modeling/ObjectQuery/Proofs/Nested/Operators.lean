import ObjectQuery.Proofs.Calls.Rows
import ObjectQuery.Proofs.Laws.Operator
import ObjectQuery.Proofs.Nested.Values

/-!
Operators work on a statement of their own: that of the source which the innermost of them opens. Every call of a
compilation derives what it gives.
-/
namespace ObjectQuery

open Build

theorem Statement.leaves_settle (st : Statement) (select : List SqlExpr) :
    ({ st with sources := st.sources.settle, select } : Statement).leaves =
      ({ st with select } : Statement).leaves := by
  simp [leaves, Sources.settle, List.flatMap_map]

theorem Statement.mem_leaves_select {st : Statement} {select : List SqlExpr} {v : SqlExpr}
    (h : v ∈ ({ st with select } : Statement).leaves) : v ∈ select.flatMap SqlExpr.leaves ∨ v ∈ st.leaves := by
  simp only [leaves, List.mem_append] at h ⊢
  obtain ((h | h) | h) | h := h
  · exact .inl h
  all_goals simp [h]

namespace Compiler

variable [Observer] {c : Compiler} {rec : Calls} {known : List SqlExpr} {b : BuildState} {sequence : ContextId}
  {m : StatementId}

theorem worksOn_bindTarget (table : TableId) : WorksOn b sequence m known silent (c.bindTarget m table) := by
  refine .read (reads_statement m) fun st => ?_
  split
  · refine (Derives.read (reads_orDangling _) fun _ => ?_).worksOn
    exact .read (reads_orDangling _) fun _ => .fail _
  · exact .modifyStatement (fun _ => rfl) fun _ _ hn => .inl hn

theorem worksOn_addItems {items : List SetItem} (hi : assignedLeaves items ⊆ known) :
    WorksOn b sequence m known silent (addItems m items) := by
  refine .modifyStatement (fun _ => rfl) fun st n hn => ?_
  simp only [Statement.leaves, Assignments.append, List.flatMap_append, List.mem_append] at hn ⊢
  obtain hn | hn | hn := hn
  · exact .inl (.inl hn)
  · exact .inl (.inr hn)
  · exact .inr (hi hn)

theorem worksOn_restrict (h : rec.Derive) (l : Lambda) (parent : Option ContextId) :
    WorksOn b sequence m known silent (restrict rec sequence l parent) := by
  have hcondition : Derives known Predicate.leaves (lambdaCondition rec sequence l parent) :=
    (Derives.lambdaScope l sequence parent).bind fun scope =>
      (h.condition known scope l.body).ofKnown fun n hn => List.mem_append_left _ hn
  refine hcondition.worksOn.bind fun p => .context fun d hd => ?_
  subst hd
  refine .modifyStatement (fun _ => rfl) fun st n hn => ?_
  simp only [Statement.leaves, Statement.restrict, List.mem_append] at hn ⊢
  obtain ((hn | hn) | hn) | hn := hn
  · simp [hn]
  · obtain hn | hn := List.mem_append.mp (Predicate.leaves_conjunction_subset _ _ hn)
    · simp [hn]
    · simp [hn]
  · simp [hn]
  · simp [hn]

theorem worksOn_selectItems (h : rec.Derive) (steps : List String) (extent : Extent) :
    WorksOn b sequence m known silent (selectItems rec sequence steps extent) := by
  refine (derives_itemsOf h sequence steps extent).worksOn.bind fun items => .context fun d hd => ?_
  subst hd
  refine .statement fun st => WorksOn.bind (.modifyStatement (fun _ => rfl) fun st' n hn => ?_) fun _ =>
    (Derives.quiet rfl).worksOn
  obtain hn | hn := Statement.mem_leaves_select hn
  · obtain ⟨v, hv, hn⟩ := List.mem_flatMap.mp hn
    obtain hv | ⟨item, hitem, rfl⟩ := mem_register hv
    · have hst : .subquery n ∈ st.leaves := by
        simp only [Statement.leaves, List.mem_append]
        exact .inl (.inl (.inl (List.mem_flatMap_of_mem hv hn)))
      exact .inr (List.mem_append_right _ hst)
    · exact .inr (List.mem_append_left _ (List.mem_append_right _ (List.mem_flatMap_of_mem hitem hn)))
  · exact .inl hn

omit [Observer] in
theorem derives_computedColumn (h : rec.Derive) (path : Path) (sequence : ContextId) :
    Derives known silent (c.computedColumn rec path sequence) := by
  have hover : ∀ target, (c.entityOver target).Reads := fun target =>
    (reads_orDangling _).bind fun _ => reads_orFail _ _
  refine .read (reads_context sequence) fun d => .read (reads_statement _) fun st => ?_
  split
  · refine .read (hover _) fun e => ?_
    split
    · exact .quiet rfl
    · exact .fail _
  · exact derives_settableColumn h sequence _ none

theorem worksOn_setItem (h : rec.Derive) (member : Lambda) (path : Path) (operand : Argument)
    (parent : Option ContextId) :
    WorksOn b sequence m known (fun item => item.value.leaves)
      (c.setItem rec member path operand sequence parent) := by
  have hitem : ∀ known (column : ColumnId) (v : SqlExpr), Derives (known ++ v.leaves)
      (fun item : SetItem => item.value.leaves) (pure ⟨column, v⟩) := fun known column v =>
    .pure fun n hn => List.mem_append_right _ hn
  cases operand with
  | lambda l =>
    refine (derives_computedColumn h path sequence).worksOn.bind fun column => ?_
    refine (Derives.lambdaScope l sequence parent).worksOn.bind fun scope => ?_
    exact (WorksOn.withParent fun known => h.value known scope l.body).bind fun v => (hitem _ column v).worksOn
  | value e =>
    refine (derives_settableColumn h sequence _ none).worksOn.bind fun column => ?_
    refine (Derives.lambdaScope member sequence parent).worksOn.bind fun scope => ?_
    exact (h.value _ scope e).worksOn.bind fun v => (hitem _ column v).worksOn
  | «entity» | «sequence» => exact (Derives.fail _).worksOn

omit [Observer] in
theorem derives_updatedRows? (h : rec.Derive) : Derives known silent (updatedRows? rec sequence) := by
  have hrows : Derives known silent (rowsOf? rec sequence) := by
    refine (derives_ask h sequence [] .association).bind fun association => ?_
    split
    · exact .quiet rfl
    · exact (derives_ask h sequence [] .table).bind fun _ => .quiet rfl
  refine hrows.bind fun rows => ?_
  cases rows with
  | none => exact .quiet rfl
  | some id => exact .read (reads_context id) fun _ => .quiet rfl

theorem worksOn_bindItems (items : List SetItem) :
    WorksOn b sequence m known silent (items.forM fun item => c.bindTarget m item.column.table) := by
  induction items generalizing known with
  | nil => exact (Derives.quiet rfl).worksOn
  | cons item items ih => exact (worksOn_bindTarget item.column.table).bind fun _ => ih

theorem worksOn_updateWith (h : rec.Derive) (setter : Lambda) (parent : Option ContextId) :
    WorksOn b sequence m known silent (c.updateWith rec m sequence setter parent) := by
  refine (derives_updatedRows? h).worksOn.bind fun rows => ?_
  cases rows with
  | some row =>
    refine (worksOn_bindTarget row.2).bind fun _ => ?_
    refine (derives_setterItems h setter row.1 (some row.2) sequence parent).worksOn.bind fun items => ?_
    exact worksOn_addItems (List.subset_append_right ..)
  | none =>
    refine (derives_setterItems h setter sequence none sequence parent).worksOn.bind fun items => ?_
    refine (worksOn_bindItems items).bind fun _ => worksOn_addItems fun v hv => ?_
    exact List.mem_append_left _ (List.mem_append_right _ hv)

theorem worksOn_assignInto (h : rec.Derive) (into : ContextId) (table : TableId) (setter : Lambda)
    (parent : Option ContextId) :
    WorksOn b sequence m known silent (c.assignInto rec m sequence into table setter parent) := by
  refine (worksOn_selectItems h [] .all).bind fun _ => WorksOn.bind (.modifyStatement (fun _ => rfl) ?_) fun _ => ?_
  · intro st n hn
    rw [Statement.leaves_settle] at hn
    exact .inl ((Statement.mem_leaves_select hn).resolve_left nofun)
  refine (derives_setterItems h setter into (some table) sequence parent).worksOn.bind fun items => ?_
  refine WorksOn.bind (.modifyStatement (fun _ => rfl) ?_) fun _ => ?_
  · intro st n hn
    rw [Statement.leaves_settle] at hn
    refine (Statement.mem_leaves_select hn).symm.imp_right fun hn => List.mem_append_right _ ?_
    rwa [List.flatMap_map] at hn
  · refine (worksOn_bindTarget table).bind fun _ => worksOn_addItems fun v hv => ?_
    exact List.mem_append_left _ (List.mem_append_left _ (List.mem_append_right _ hv))

theorem worksOn_updateInto (h : rec.Derive) (target : Node) (setter : Lambda) (parent : Option ContextId) :
    WorksOn b sequence m known silent (c.updateInto rec m sequence target setter parent) := by
  refine (h.sequence parent target).derives.worksOn.bind fun into => ?_
  have htable : (targetTable into).Reads := by
    refine (reads_context into).bind fun d => ?_
    split
    · exact reads_pure _
    · exact reads_fail _
  exact .read htable fun table => worksOn_assignInto h into table setter parent

theorem worksOn_assign (h : rec.Derive) (operands : List Argument) (parent : Option ContextId) :
    WorksOn b sequence m known silent (c.assign rec m sequence operands parent) := by
  unfold assign
  split
  · refine (derives_updatedRows? h).worksOn.bind fun rows => ?_
    split
    · exact worksOn_bindTarget _
    · exact (Derives.quiet rfl).worksOn
  · exact worksOn_updateWith h _ parent
  · exact (worksOn_restrict h _ parent).bind fun _ => worksOn_updateWith h _ parent
  · exact worksOn_updateInto h _ _ parent
  · exact (Derives.fail _).worksOn

/-! The operators. -/

variable {s : BuildState} {node : Node}

omit [Observer] in
theorem extends_openSource (s : BuildState) (table : TableId) : s.Extends (s.openSource table) :=
  BuildState.Extends.begin (BuildState.extends_of_eq rfl rfl : s.Extends s.countAlias) rfl

omit [Observer] in
/-- A source has a statement of its own. -/
theorem builds_enterSource (s : BuildState) (parent : Option ContextId) (e : Entity) :
    s.Builds (s.enterSource parent e) s.contexts.length s.statements.length := by
  have hst : (s.enterSource parent e).statements[s.statements.length]? =
      some { Statement.empty with sources := ⟨some (s.nextSource e.table), []⟩ } :=
    List.getElem?_concat_length ..
  refine ⟨(extends_openSource s e.table).enter _, Nat.le_refl _, ⟨Nat.le_refl _, ?_, ?_⟩,
    ⟨_, BuildState.getElem?_enter_self _ _, rfl, rfl⟩, ⟨_, hst, rfl⟩⟩
  · exact (List.getElem?_eq_some_iff.mp hst).1
  · intro k st hle hk hm
    obtain hold | ⟨-, rfl⟩ := of_getElem?_concat hk
    · exact absurd (List.getElem?_eq_some_iff.mp hold).1 (Nat.not_lt.mpr hle)
    · cases hm

theorem makesAt_buildSource (parent : Option ContextId) : MakesAt s s (c.buildSource node parent) := by
  have hends := c.ends_buildSource (s := s) node parent
  rw [MakesAt, Adds]
  generalize (c.buildSource node parent).run s = r at hends
  cases hends with
  | unchanged stop => exact ⟨.refl s, by rintro _ _ ⟨⟩⟩
  | counted stop => exact ⟨BuildState.extends_of_eq rfl rfl, by rintro _ _ ⟨⟩⟩
  | begun stop e => exact ⟨extends_openSource s e.table, by rintro _ _ ⟨⟩⟩
  | entered stop e => exact ⟨(extends_openSource s e.table).enter _, by rintro _ _ ⟨⟩⟩
  | opened e =>
    refine ⟨(extends_openSource s e.table).enter _, fun id t hr => ?_⟩
    cases hr
    exact .rows s.statements.length (builds_enterSource s parent e)

omit [Observer] in
theorem MakesAt.read {β : Type} {act : Build β} {next : β → Build ContextId} (hb : b.Extends s) (hr : act.Reads)
    (hn : ∀ a, act.run s = (.ok a, s) → MakesAt b s (next a)) : MakesAt b s (act >>= next) := by
  have hact : Adds b s (fun _ t => t = s) act := by
    refine ⟨by rwa [hr s], fun a t hrun => ?_⟩
    have hs := hr s
    rwa [hrun] at hs
  refine hact.bind fun a t hrun _ ht => ?_
  subst ht
  exact hn a hrun

omit [Observer] in
theorem nothing_above (s : BuildState) (m : StatementId) : s.Above m [] :=
  fun _ => nofun

variable (hb : b.Builds s sequence m)

include hb

omit [Observer] in
theorem statement_eq_of_builds {d : Context} (hd : s.contexts[sequence]? = some d) : d.statement = m := by
  obtain ⟨e, he, hm, -⟩ := hb.context
  rw [hd, Option.some.injEq] at he
  exact he ▸ hm

omit [Observer] in
/-- After working on its statement, the sequence is still that of the source. -/
theorem makesAt_of_worksOn {act : Build Unit} (ha : s.Above m known) (h : WorksOn b sequence m known silent act) :
    MakesAt b s (act >>= fun _ => pure sequence) := by
  refine (h s hb ha).bind fun _ t _ ht ⟨hb, _⟩ => ⟨ht, fun id u hr => ?_⟩
  cases hr
  exact .rows m hb

theorem makesAt_buildFilter (h : rec.Derive) (parent : Option ContextId) :
    MakesAt b s (buildFilter rec node sequence parent) := by
  refine MakesAt.read hb.grown (reads_ensureComposable sequence _) fun _ _ => ?_
  split
  · exact makesAt_of_worksOn hb (nothing_above s m) (worksOn_restrict h _ parent)
  · exact .stops hb.grown rfl

theorem makesAt_buildSet (h : rec.Derive) (parent : Option ContextId) :
    MakesAt b s (c.buildSet rec node sequence parent) := by
  refine MakesAt.read hb.grown (reads_ensureComposable sequence _) fun _ _ => ?_
  split
  · next member operand _ =>
    refine MakesAt.read hb.grown (reads_ofExcept _) fun path _ => ?_
    refine MakesAt.read hb.grown (reads_context sequence) fun d hd => ?_
    obtain rfl := statement_eq_of_builds hb (of_run_context hd).1
    refine (worksOn_setItem h member path operand parent s hb (nothing_above _ _)).bind fun item t _ _ ht => ?_
    obtain ⟨hb, ha⟩ := ht
    have hadd : WorksOn b sequence d.statement item.value.leaves silent (do
        c.bindTarget d.statement item.column.table
        addItems d.statement [item]) :=
      (worksOn_bindTarget _).bind fun _ => worksOn_addItems fun v hv => by simpa [assignedLeaves, silent] using hv
    have hmakes := makesAt_of_worksOn hb ha hadd
    rwa [bind_assoc] at hmakes
  · exact .stops hb.grown rfl

/-- The projection is a sequence over the same statement. -/
theorem makesAt_buildSelect (parent : Option ContextId) : MakesAt b s (buildSelect node sequence parent) := by
  refine MakesAt.read hb.grown (reads_ensureComposable sequence _) fun _ _ => ?_
  split
  · next l _ =>
    refine MakesAt.read hb.grown (reads_context sequence) fun d hd => ?_
    obtain rfl := statement_eq_of_builds hb (of_run_context hd).1
    rw [MakesAt, Adds, run_addContext]
    refine ⟨hb.grown.enter _, fun id t hr => ?_⟩
    obtain ⟨hid, rfl⟩ := Prod.mk.inj hr
    split at hid <;> cases hid
    exact .rows d.statement (hb.enter rfl rfl)
  · exact .stops hb.grown rfl

/-- Nothing refers to a statement that has become an update. -/
theorem makesAt_buildUpdate (h : rec.Derive) (parent : Option ContextId) :
    MakesAt b s (c.buildUpdate rec node sequence parent) := by
  refine MakesAt.read hb.grown (reads_ensureComposable sequence _) fun _ _ => ?_
  refine MakesAt.read hb.grown (reads_context sequence) fun d hd => ?_
  obtain rfl := statement_eq_of_builds hb (of_run_context hd).1
  refine (worksOn_assign h node.operands parent s hb (nothing_above _ _)).bind fun _ t _ _ ht => ?_
  have hb := ht.1
  rw [completeUpdate, bind_assoc]
  refine MakesAt.read hb.grown (reads_statement _) fun st hst => ?_
  have hst : t.statements[d.statement]? = some st := (of_run_statement hst).1
  dsimp only
  split
  · rw [bind_assoc]
    exact MakesAt.read hb.grown (reads_orDangling _) fun _ _ => .stops hb.grown rfl
  · have hfeeds : t.Feeds d.statement fun m => { m with kind := .update } := fun st _ n hn => .inl hn
    have hext := hb.grown.alter hb.owns hfeeds
    have howns := hb.owns.alter hfeeds
    have hkind : Adds b t (fun _ u => b.Owns u d.statement)
        (modifyStatement d.statement fun m => { m with kind := .update }) := by
      rw [Adds, run_modifyStatement, hst]
      refine ⟨hext, fun _ u hr => ?_⟩
      obtain rfl := congrArg Prod.snd hr
      exact howns
    refine hkind.bind fun _ u _ hu ho => ?_
    rw [Adds, run_addContext]
    refine ⟨hu.enter _, fun id v hr => ?_⟩
    obtain ⟨hid, rfl⟩ := Prod.mk.inj hr
    split at hid <;> cases hid
    exact .update parent d.statement sequence (u.getElem?_enter_self _) ⟨ho.later, ho.known, ho.unread⟩

omit hb

theorem makes_sequence (h : rec.Derive) (parent : Option ContextId) (node : Node) :
    Makes (c.sequence rec parent node) := by
  intro s
  refine MakesAt.read (.refl s) (reads_ofExcept _) fun b hb => ?_
  have hb : c.builderFor node = .ok b := (of_run_ofExcept hb).1
  rcases primary?_of_builderFor hb with ⟨rfl, hprimary⟩ | ⟨hne, source, hprimary⟩
  · rw [primarySequence?, hprimary]
    exact makesAt_buildSource parent
  · rw [primarySequence?, hprimary, bind_map_left]
    refine Adds.bind (h.sequence parent source s) fun id t _ hst hmade => ?_
    cases hmade with
    | rows m hbuilds =>
      cases b with
      | source => exact absurd rfl hne
      | filter => exact makesAt_buildFilter hbuilds h parent
      | select => exact makesAt_buildSelect hbuilds parent
      | update => exact makesAt_buildUpdate hbuilds h parent
      | set => exact makesAt_buildSet hbuilds h parent
    | update p m q hd _ =>
      obtain ⟨stop, -, hrefuses⟩ := refuses_build hne hd rfl rec node parent
      exact .stops hst hrefuses

/-- Every call derives what it gives, however deep calls may be nested. -/
theorem calls_derive (c : Compiler) (fuel : Nat) : (c.calls fuel).Derive := by
  induction fuel with
  | zero => exact Calls.derive_exhausted
  | succ fuel ih =>
    exact ⟨fun _ => derives_value ih, fun _ => derives_condition ih, fun _ => derives_classify ih,
      fun _ => derives_members ih, makes_sequence ih⟩

end Compiler
end ObjectQuery
