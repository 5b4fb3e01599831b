import ObjectQuery.Compile.Query
import ObjectQuery.Proofs.Laws.Value

/-!
Operators and whole queries obey every law. Every operator but the one that makes an update keeps the rows that it
applies to, and all of them refuse an update.
-/
namespace ObjectQuery

open Build

variable [Observer] {c : Compiler} {L : Law c} {rec : Calls}

namespace Compiler

/-! Assignments. -/

theorem keeps_settableColumn (h : rec.Obey L) (id : ContextId) (steps : List String) (table : Option TableId) :
    L.Keeps (settableColumn rec id steps table) := by
  refine (h.classify id steps).recover (fun d => ?_) (fun _ _ => .fail _) fun e he => ?_
  · cases d with
    | field column aliasName =>
      dsimp only
      split
      · exact .fail _
      · exact .pure _
    | table | association | computed | object => exact .fail _
  · cases e with
    | memberResolution p fault => exact absurd rfl (he p fault)
    | _ => rfl

theorem keeps_targetColumn (target : TableId) (name : String) : L.Keeps (c.targetColumn target name) := by
  have hover : (c.entityOver target).Reads := (reads_orDangling _).bind fun _ => reads_orFail _ _
  refine .read hover fun e => ?_
  split
  · exact .pure _
  · exact .fail _

theorem keeps_bindTarget (m : StatementId) (table : TableId) : L.Keeps (c.bindTarget m table) := by
  refine .read (reads_statement m) fun st => ?_
  split
  · exact .read (reads_orDangling _) fun _ => .read (reads_orDangling _) fun _ => .fail _
  · exact .modifyStatement fun st => ⟨rfl, .inl rfl⟩

theorem keeps_addItems (m : StatementId) (items : List SetItem) : L.Keeps (addItems m items) :=
  .modifyStatement fun _ => ⟨rfl, .inl rfl⟩

theorem keeps_entered? (h : rec.Obey L) (into : ContextId) (steps : List String) (value : Expr) :
    L.Keeps (entered? rec into steps value) := by
  unfold entered?
  split
  · exact .pure _
  · exact (keeps_ask h into steps .field).bind fun _ => .pure _

theorem keeps_flatten (h : rec.Obey L) (into : ContextId) (table : Option TableId) (scope : ContextId)
    (depth : Nat) (outer : List String) (bindings : List (String × Expr)) :
    L.Keeps (flatten c rec into table scope depth outer bindings) := by
  induction depth generalizing outer bindings with
  | zero => exact .fail _
  | succ depth ih =>
    refine .bind (.mapM _ fun binding => ?_) fun _ => .pure _
    refine (keeps_entered? h into _ binding.2).bind fun nested => ?_
    cases nested with
    | some nested => exact ih _ nested
    | none =>
      refine (keeps_settableColumn h into _ table).bind fun column => ?_
      exact (h.value scope _).bind fun _ => .pure _

theorem keeps_setterItems (h : rec.Obey L) (setter : Lambda) (into : ContextId) (table : Option TableId)
    (sequence : ContextId) (parent : Option ContextId) :
    L.Keeps (c.setterItems rec setter into table sequence parent) := by
  refine (keeps_lambdaScope setter sequence parent).bind fun scope => ?_
  split
  · exact keeps_flatten h into table scope _ [] _
  · refine (keeps_itemsOfExpr h scope _ .all).bind fun items => .mapM items fun item => ?_
    refine .read (reads_orFail _ _) fun member => ?_
    exact (keeps_settableColumn h into _ table).bind fun _ => .pure _

theorem keeps_setItem (h : rec.Obey L) (member : Lambda) (path : Path) (operand : Argument) (sequence : ContextId)
    (parent : Option ContextId) : L.Keeps (c.setItem rec member path operand sequence parent) := by
  cases operand with
  | lambda l =>
    have hcolumn : L.Keeps (c.computedColumn rec path sequence) := by
      refine .read (reads_context sequence) fun d => .read (reads_statement _) fun st => ?_
      split
      · exact keeps_targetColumn _ _
      · exact keeps_settableColumn h sequence _ none
    refine hcolumn.bind fun column => (keeps_lambdaScope l sequence parent).bind fun scope => ?_
    exact (Law.Keeps.withParent (h.value scope l.body)).bind fun _ => .pure _
  | value e =>
    refine (keeps_settableColumn h sequence _ none).bind fun column => ?_
    refine (keeps_lambdaScope member sequence parent).bind fun scope => ?_
    exact (h.value scope e).bind fun _ => .pure _
  | «entity» | «sequence» => exact .fail _

theorem keeps_restrict (h : rec.Obey L) (sequence : ContextId) (l : Lambda) (parent : Option ContextId) :
    L.Keeps (restrict rec sequence l parent) := by
  have hcondition : L.Keeps (lambdaCondition rec sequence l parent) :=
    (keeps_lambdaScope l sequence parent).bind fun scope => h.condition scope l.body
  refine hcondition.bind fun p => .read (reads_context sequence) fun d => .modifyStatement fun st => ?_
  exact ⟨rfl, .inl rfl⟩

theorem keeps_updatedRows? (h : rec.Obey L) (sequence : ContextId) : L.Keeps (updatedRows? rec sequence) := by
  have hrows : L.Keeps (rowsOf? rec sequence) := by
    refine (keeps_ask h sequence [] .association).bind fun association => ?_
    split
    · exact .pure _
    · exact (keeps_ask h sequence [] .table).bind fun _ => .pure _
  refine hrows.bind fun rows => ?_
  cases rows with
  | none => exact .pure _
  | some id => exact .read (reads_context id) fun _ => .pure _

theorem keeps_updateWith (h : rec.Obey L) (m : StatementId) (sequence : ContextId) (setter : Lambda)
    (parent : Option ContextId) : L.Keeps (c.updateWith rec m sequence setter parent) := by
  refine (keeps_updatedRows? h sequence).bind fun rows => ?_
  cases rows with
  | some row =>
    refine (keeps_bindTarget m row.2).bind fun _ => ?_
    exact (keeps_setterItems h setter row.1 (some row.2) sequence parent).bind fun items => keeps_addItems m items
  | none =>
    refine (keeps_setterItems h setter sequence none sequence parent).bind fun items => ?_
    refine (Law.Keeps.forM items fun item => keeps_bindTarget m item.column.table).bind fun _ => ?_
    exact keeps_addItems m items

theorem keeps_assignInto (h : rec.Obey L) (m : StatementId) (sequence into : ContextId) (table : TableId)
    (setter : Lambda) (parent : Option ContextId) :
    L.Keeps (c.assignInto rec m sequence into table setter parent) := by
  refine (keeps_selectItems h sequence [] .all).bind fun _ => ?_
  refine Law.Keeps.bind (.modifyStatement ?_) fun _ => ?_
  · exact fun st => ⟨rfl, .inr rfl⟩
  refine (keeps_setterItems h setter into (some table) sequence parent).bind fun items => ?_
  refine Law.Keeps.bind (.modifyStatement ?_) fun _ => ?_
  · exact fun st => ⟨rfl, .inr rfl⟩
  · exact (keeps_bindTarget m table).bind fun _ => keeps_addItems m items

/-- A target is a table of its own; an update is none. -/
theorem keeps_updateInto (h : rec.Obey L) (m : StatementId) (sequence : ContextId) (target : Node)
    (setter : Lambda) (parent : Option ContextId) :
    L.Keeps (c.updateInto rec m sequence target setter parent) := by
  have htable : ∀ into, (targetTable into).Reads := by
    refine fun into => (reads_context into).bind fun d => ?_
    split
    · exact reads_pure _
    · exact reads_fail _
  refine (h.sequence parent target).bind (fun into s _ => ?_) fun into s d hd hu => ?_
  · exact Law.Keeps.read (htable into) (fun table => keeps_assignInto h m sequence into table setter parent) s
  · cases d with
    | update p n q =>
      refine ⟨.failed (.unsupportedShape (.targetNotTable "update")), nofun, ?_⟩
      simp only [targetTable, run_bind, run_context_of hd]
      rfl
    | _ => cases hu

theorem keeps_assign (h : rec.Obey L) (m : StatementId) (sequence : ContextId) (operands : List Argument)
    (parent : Option ContextId) : L.Keeps (c.assign rec m sequence operands parent) := by
  unfold assign
  split
  · refine (keeps_updatedRows? h sequence).bind fun rows => ?_
    split
    · exact keeps_bindTarget m _
    · exact .pure _
  · exact keeps_updateWith h m sequence _ parent
  · exact (keeps_restrict h sequence _ parent).bind fun _ => keeps_updateWith h m sequence _ parent
  · exact keeps_updateInto h m sequence _ _ parent
  · exact .fail _

/-! Operators over the rows of their source. -/

variable {node : Node} {s : BuildState} {sequence : ContextId}

theorem yields_buildFilter (h : rec.Obey L) (hp : s.Plain sequence) (hk : node.kind ≠ .update)
    (parent : Option ContextId) : L.Yields node s (buildFilter rec node sequence parent) := by
  refine (Law.Keeps.of_reads (reads_ensureComposable sequence _)).yields hp fun _ s hp => ?_
  split
  · exact (keeps_restrict h sequence _ parent).yields hp fun _ s hp => Law.yields_pure hp hk
  · exact Law.yields_throw _

theorem yields_buildSet (h : rec.Obey L) (hp : s.Plain sequence) (hk : node.kind ≠ .update)
    (parent : Option ContextId) : L.Yields node s (c.buildSet rec node sequence parent) := by
  refine (Law.Keeps.of_reads (reads_ensureComposable sequence _)).yields hp fun _ s hp => ?_
  split
  · refine (Law.Keeps.of_reads (reads_ofExcept _)).yields hp fun path s hp => ?_
    refine (Law.Keeps.of_reads (reads_context sequence)).yields hp fun d s hp => ?_
    refine (keeps_setItem h _ path _ sequence parent).yields hp fun item s hp => ?_
    refine (keeps_bindTarget _ _).yields hp fun _ s hp => (keeps_addItems _ _).yields hp fun _ s hp => ?_
    exact Law.yields_pure hp hk
  · exact Law.yields_throw _

/-- A context that is no update and has no rows may be the context of what was compiled. -/
theorem yields_addContext {d : Context} (hr : d.rows? = none) (hu : d.isUpdate = false)
    (hk : node.kind ≠ .update) : L.Yields node s (addContext d) := by
  have hkeeps : s.KeepsContexts (s.enter d) := s.keepsContexts_enter d
  have hrel := L.enter s hr hu
  rw [Law.Yields, run_addContext]
  split
  · exact .stops hkeeps (Law.rel_of_plain hrel)
  · exact .gives hkeeps (.rows ⟨d, s.getElem?_enter_self d, hu⟩ hk hrel)

theorem yields_buildSelect (hp : s.Plain sequence) (hk : node.kind ≠ .update) (parent : Option ContextId) :
    L.Yields node s (buildSelect node sequence parent) := by
  refine (Law.Keeps.of_reads (reads_ensureComposable sequence _)).yields hp fun _ s hp => ?_
  split
  · refine (Law.Keeps.of_reads (reads_context sequence)).yields hp fun d s hp => ?_
    exact yields_addContext rfl rfl hk
  · exact Law.yields_throw _

/-- The statement is an update by now, and can only be refused when the context is not entered. -/
theorem ends_enterUpdate {t : BuildState} {m : StatementId} (ht : s.KeepsContexts t) (hu : L.updated s m t)
    (hk : node.kind = .update) (parent : Option ContextId) :
    L.Ends node s ((addContext (.update parent m sequence)).run t) := by
  have hclose := L.close parent sequence hu
  have hkeeps := ht.trans (t.keepsContexts_enter (.update parent m sequence))
  rw [run_addContext]
  split
  · exact .stops hkeeps (L.refuse hclose nofun)
  · exact .gives hkeeps (.update parent m sequence (t.getElem?_enter_self _) hk hclose)

theorem yields_completeUpdate (hp : s.Plain sequence) (hk : node.kind = .update) (m : StatementId)
    (parent : Option ContextId) :
    L.Yields node s (c.completeUpdate m >>= fun _ => addContext (.update parent m sequence)) := by
  rw [completeUpdate, bind_assoc]
  refine (Law.Keeps.of_reads (reads_statement m)).yields hp fun st s hp => ?_
  dsimp only
  split
  · rw [bind_assoc]
    exact (Law.Keeps.of_reads (reads_orDangling _)).yields hp fun _ s hp => Law.yields_throw _
  · rw [Law.Yields, run_bind, run_modifyStatement]
    cases hst : s.statements[m]? with
    | none => exact .stops (.refl s) (L.refl _ s)
    | some st =>
      have hcomplete := L.complete hst
      dsimp only
      by_cases hstop : Observer.stops (s.alter m fun st => { st with kind := .update })
      · simp only [hstop, if_true]
        exact .stops (.refl s) (L.refuse hcomplete Stop.final_outOfFuel)
      · simp only [hstop]
        exact ends_enterUpdate (t := s.alter m _) (.refl s) hcomplete hk parent

theorem yields_buildUpdate (h : rec.Obey L) (hp : s.Plain sequence) (hk : node.kind = .update)
    (parent : Option ContextId) : L.Yields node s (c.buildUpdate rec node sequence parent) := by
  refine (Law.Keeps.of_reads (reads_ensureComposable sequence _)).yields hp fun _ s hp => ?_
  refine (Law.Keeps.of_reads (reads_context sequence)).yields hp fun d s hp => ?_
  exact (keeps_assign h _ sequence _ parent).yields hp fun _ s hp => yields_completeUpdate hp hk _ parent

/-- A source has its rows in a table context. -/
theorem yields_buildSource (hk : node.kind ≠ .update) (parent : Option ContextId) :
    L.Yields node s (c.buildSource node parent) := by
  have hends := c.ends_buildSource (s := s) node parent
  have hrel := L.source node parent s
  have hkeeps : ∀ e, s.KeepsContexts (s.enterSource parent e) := fun e => BuildState.keepsContexts_enter _ _
  rw [Law.Yields]
  generalize (c.buildSource node parent).run s = r at hends hrel
  cases hends with
  | unchanged stop | counted stop | begun stop e => exact .stops (.refl s) hrel
  | entered stop e => exact .stops (hkeeps e) hrel
  | opened e => exact .gives (hkeeps e) (.rows ⟨_, BuildState.getElem?_enter_self _ _, rfl⟩ hk hrel)

/-! Operators on whatever their source is. -/

omit [Observer] in
theorem kind_eq_update_iff {b : Builder} (hb : c.builderFor node = .ok b) : node.kind = .update ↔ b = .update := by
  rw [kind_of_builderFor hb]
  cases b <;> simp [Builder.kind]

omit [Observer] in
/-- A source applies to no sequence, any other operator to one. -/
theorem primary?_of_builderFor {b : Builder} (hb : c.builderFor node = .ok b) :
    (b = .source ∧ node.primary? = none) ∨ (b ≠ .source ∧ ∃ source, node.primary? = some source) := by
  have hclaims := claims_of_builderFor hb
  cases b with
  | source =>
    refine .inl ⟨rfl, ?_⟩
    cases hk : node.kind <;> simp only [Builder.claims, hk, reduceCtorEq] at hclaims
    split at hclaims
    · next he => simp [Node.primary?, he]
    · cases hclaims
  | filter | select | update | set =>
    refine .inr ⟨nofun, Option.isSome_iff_exists.mp ?_⟩
    cases hk : node.kind <;> simp_all [Builder.claims]

theorem refuses_build {b : Builder} (hb : b ≠ .source) {id : ContextId} {d : Context}
    (hd : s.contexts[id]? = some d) (hu : d.isUpdate = true) (rec : Calls) (node : Node)
    (parent : Option ContextId) : (c.build rec b node (some id) parent).Refuses s := by
  cases b with
  | source => exact absurd rfl hb
  | filter | select | update | set => exact refuses_ensureComposable hd hu

theorem compiles_build {b : Builder} (h : rec.Obey L) (hb : c.builderFor node = .ok b)
    (parent : Option ContextId) :
    L.Compiles node (primarySequence? rec parent node >>= fun source => c.build rec b node source parent) := by
  have hkind := kind_eq_update_iff hb
  rcases primary?_of_builderFor hb with ⟨rfl, hprimary⟩ | ⟨hne, source, hprimary⟩
  · rw [primarySequence?, hprimary]
    exact fun s => yields_buildSource ((not_congr hkind).mpr nofun) parent
  · rw [primarySequence?, hprimary, bind_map_left]
    refine (h.sequence parent source).over (fun id s hp => ?_) fun id s d hd hu => ?_
    · cases b with
      | source => exact absurd rfl hne
      | filter => exact yields_buildFilter h hp ((not_congr hkind).mpr nofun) parent
      | select => exact yields_buildSelect hp ((not_congr hkind).mpr nofun) parent
      | update => exact yields_buildUpdate h hp (hkind.mpr rfl) parent
      | set => exact yields_buildSet h hp ((not_congr hkind).mpr nofun) parent
    · exact refuses_build hne hd hu rec node parent

/-- Every call obeys the law, however deep calls may be nested. -/
theorem calls_obey (L : Law c) (fuel : Nat) : (c.calls fuel).Obey L := by
  induction fuel with
  | zero => exact Calls.obey_exhausted L
  | succ fuel ih =>
    refine ⟨keeps_value ih, keeps_condition ih, keeps_classify ih, keeps_members ih, fun parent node s => ?_⟩
    refine (Law.obeys_of_reads (reads_ofExcept _)).yields fun b t hr _ => ?_
    exact compiles_build ih (of_run_ofExcept hr).1 parent t

/-! Whole queries. -/

theorem run_finish_update (rec : Calls) {id : ContextId} {d : Context} (hd : s.contexts[id]? = some d)
    (hu : d.isUpdate = true) : (finish rec id).run s = (.ok (d.statement, id), s) := by
  simp [finish, run_bind, run_map, run_context_of hd, hu]

theorem yields_finish (h : rec.Obey L) {id : ContextId} (hp : s.Plain id) (hk : node.kind ≠ .update) :
    L.Yields node s (Prod.snd <$> finish rec id) := by
  have hend : ∀ t : BuildState, t.Plain id →
      L.Yields node t (Prod.snd <$> do pure ((← context id).statement, id)) := by
    intro t hp
    rw [map_bind]
    exact (Law.Keeps.of_reads (reads_context id)).yields hp fun d t hp => Law.yields_pure hp hk
  rw [finish, map_bind]
  refine (Law.Keeps.of_reads (reads_context id)).yields hp fun d s hp => ?_
  dsimp only
  split
  · exact hend s hp
  · rw [map_bind]
    exact (keeps_selectItems h id [] .all).yields hp fun _ t hp => hend t hp

/-- A whole query ends as its root operator does. -/
theorem yields_root (L : Law c) (fuel : Nat) (node : Node) (s : BuildState) :
    L.Yields node s (Prod.snd <$> c.root fuel node) := by
  have hcalls := calls_obey L fuel
  have hends := hcalls.sequence none node s
  rw [Law.Yields] at hends ⊢
  rw [root, map_bind, run_bind]
  generalize ((c.calls fuel).sequence none node).run s = r at hends
  cases hends with
  | stops contexts stopped => exact .stops contexts stopped
  | @gives id t contexts made =>
    cases made with
    | rows plain kind made => exact (yields_finish hcalls plain kind).after contexts made
    | update parent m sequence context kind made =>
      have hfinish := run_finish_update (c.calls fuel) context rfl
      simp only [run_map, hfinish]
      exact .gives contexts (.update parent m sequence context kind made)

theorem made_of_root (L : Law c) {fuel : Nat} {m : StatementId} {id : ContextId} {t : BuildState}
    (hr : (c.root fuel node).run s = (.ok (m, id), t)) : L.Made node s t id := by
  have hyields := yields_root L fuel node s
  rw [Law.Yields, run_map, hr] at hyields
  cases hyields with
  | gives contexts made => exact made

theorem rel_of_root (L : Law c) {fuel : Nat} {stop : Stop} {t : BuildState}
    (hr : (c.root fuel node).run s = (.error stop, t)) : L.rel (some stop) s t := by
  have hyields := yields_root L fuel node s
  rw [Law.Yields, run_map, hr] at hyields
  cases hyields with
  | stops contexts stopped => exact stopped

end Compiler
end ObjectQuery
