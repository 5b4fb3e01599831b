import ObjectQuery.Proofs.Mirror.Rows

/-!
Operators are compiled in step, and so is every call, however much fuel there is for both.
-/
namespace ObjectQuery

open Build Compiler

namespace Mirror

variable {c c' : Compiler} {M : Mirror c c'} {m n : M.Moment} {rec rec' : ObjectQuery.Calls} (h : M.Calls rec rec')

include h

theorem steps_restrict {p : Option ContextId} {ρ : Names} {f g : Lambda} (hfg : f.Alike M.lexicon.likeness ρ g)
    (hρ : m.Knows p ρ) (sequence : ContextId) :
    Steps m Equal (restrict rec sequence f p) (restrict rec' sequence g p) := by
  have hcondition : Steps m (fun n => M.reading.condition n.ghost) (lambdaCondition rec sequence f p)
      (lambdaCondition rec' sequence g p) :=
    Steps.under hfg.row hρ fun n _ scope hscope => h.condition hfg.body hscope
  refine hcondition.bind fun n _ c c' hc => .context fun d e _ _ hde => ?_
  rw [hde.statement]
  exact .modifyStatement fun st st' hst =>
    { hst with condition := M.reading.conjunction hst.condition hc }

theorem steps_updatedRows? (sequence : ContextId) :
    Steps m Equal (updatedRows? rec sequence) (updatedRows? rec' sequence) := by
  have hrows : Steps m Equal (rowsOf? rec sequence) (rowsOf? rec' sequence) := by
    refine (steps_ask h sequence [] .association).then fun n _ association => ?_
    split
    · exact .pure rfl
    · exact (steps_ask h sequence [] .table).then fun _ _ table => .pure rfl
  refine hrows.then fun n _ rows => ?_
  cases rows with
  | none => exact .pure rfl
  | some id =>
    refine .context fun d e _ _ hde => ?_
    rw [hde.rows?]
    exact .pure rfl

theorem steps_updateWith {p : Option ContextId} {ρ : Names} {f g : Lambda} (hfg : f.Alike M.lexicon.likeness ρ g)
    (hρ : m.Knows p ρ) (number : StatementId) (sequence : ContextId) :
    Steps m Equal (c.updateWith rec number sequence f p) (c'.updateWith rec' number sequence g p) := by
  refine (steps_updatedRows? h sequence).then fun n hn rows => ?_
  have hρ := hρ.mono hn
  cases rows with
  | some rows =>
    obtain ⟨rows, table⟩ := rows
    refine (steps_bindTarget number table).then fun k hk _ => ?_
    refine (steps_setterItems h hfg (hρ.mono hk) rows (some table) sequence).bind fun _ _ items items' hitems => ?_
    exact steps_addItems number hitems
  | none =>
    refine (steps_setterItems h hfg hρ sequence none sequence).bind fun k _ items items' hitems => ?_
    refine (Steps.forM hitems fun k' _ i j hij => ?_).then fun k' hk' _ => ?_
    · rw [hij.1]
      exact steps_bindTarget number _
    · exact steps_addItems number (hitems.imp fun _ _ => SetItemPair.mono hk')

theorem steps_assignInto {p : Option ContextId} {ρ : Names} {f g : Lambda} (hfg : f.Alike M.lexicon.likeness ρ g)
    (hρ : m.Knows p ρ) (number : StatementId) (sequence into : ContextId) (table : TableId) :
    Steps m Equal (c.assignInto rec number sequence into table f p)
      (c'.assignInto rec' number sequence into table g p) := by
  refine (steps_selectItems h sequence [] .all).bind fun n hn _ _ _ => ?_
  refine (Steps.modifyStatement fun st st' hst => ?_).then fun n' hn' _ => ?_
  · exact { hst with
      select := M.reading.selected .nil
      sources := by simp only [hst.sources]
      joins := hst.joins_settle }
  refine (steps_setterItems h hfg (hρ.mono (hn.trans hn')) into (some table) sequence).bind
    fun k _ items items' hitems => ?_
  refine (Steps.modifyStatement fun st st' hst => ?_).then fun k' hk' _ => ?_
  · refine { hst with
      select := M.reading.selected ?_
      sources := by simp only [hst.sources]
      joins := hst.joins_settle }
    rw [List.forall₂_map_left_iff, List.forall₂_map_right_iff]
    exact hitems.imp fun _ _ => And.right
  · refine (steps_bindTarget number table).then fun k'' hk'' _ => ?_
    exact steps_addItems number (hitems.imp fun _ _ => SetItemPair.mono (hk'.trans hk''))

theorem steps_updateInto {p : Option ContextId} {ρ : Names} {node node' : Node} {f g : Lambda}
    (hnode : node.Alike M.lexicon.likeness ρ node') (hfg : f.Alike M.lexicon.likeness ρ g) (hρ : m.Knows p ρ)
    (number : StatementId) (sequence : ContextId) :
    Steps m Equal (c.updateInto rec number sequence node f p) (c'.updateInto rec' number sequence node' g p) := by
  refine (h.sequence hnode hρ).bind fun n hn into _ hinto => ?_
  obtain ⟨rfl, -⟩ := hinto
  refine (steps_targetTable into).then fun k hk table => ?_
  exact steps_assignInto h hfg (hρ.mono (hn.trans hk)) number sequence into table

theorem steps_computedColumn {path path' : Path} (hpath : path'.steps = path.steps) (sequence : ContextId) :
    Steps m Equal (c.computedColumn rec path sequence) (c'.computedColumn rec' path' sequence) := by
  refine .context fun d e _ _ hde => ?_
  rw [hde.statement]
  refine .statement fun st st' hst => ?_
  rw [hst.target, hpath, show path'.qualifiedName = path.qualifiedName from congrArg Dotted.join hpath]
  split
  · exact steps_targetColumn _ _
  · exact steps_settableColumn h sequence _ none

omit h in
/-- Selectors name the same member, if they name one. -/
theorem selectedPath_alike {p : Option ContextId} {ρ : Names} {f g : Lambda} (hfg : f.Alike M.lexicon.likeness ρ g)
    (hρ : m.Knows p ρ) :
    (∃ path path', selectedPath f = .ok path ∧ selectedPath g = .ok path' ∧ path'.steps = path.steps) ∨
      ∃ e e', selectedPath f = .error e ∧ selectedPath g = .error e' ∧ M.error e e' := by
  rcases M.texts with ⟨hbinder, hagree⟩ | hall
  · obtain rfl := hfg.eq hbinder fun x y hxy => hagree (hρ x y hxy)
    cases hs : selectedPath f with
    | ok path => exact .inl ⟨path, path, rfl, rfl, rfl⟩
    | error e => exact .inr ⟨e, e, rfl, rfl, M.same e⟩
  · have hrow := hfg.row
    have hpath := hfg.body.path?
    unfold selectedPath
    generalize f.row? = a at hrow hpath
    generalize g.row? = b at hrow hpath
    generalize Path.ofExpr? f.body = x at hpath
    generalize Path.ofExpr? g.body = y at hpath
    cases hrow with
    | none => exact .inr ⟨_, _, rfl, rfl, M.same _⟩
    | some =>
      cases hpath with
      | none => exact .inr ⟨_, _, rfl, rfl, hall _ _ rfl⟩
      | @some path path' hpath =>
        simp only [Option.filter_some]
        by_cases hsteps : path.steps = []
        · rw [if_neg (by simp [hsteps]), if_neg (by simp [hpath.steps, hsteps])]
          exact .inr ⟨_, _, rfl, rfl, hall _ _ rfl⟩
        · rcases hpath.root with ⟨ha, hb⟩ | ⟨ha, hb, -⟩
          · cases ha
            cases hb
            rw [if_pos (by simp [hsteps]), if_pos (by simp [hpath.steps, hsteps])]
            exact .inl ⟨_, _, rfl, rfl, hpath.steps⟩
          · rw [if_neg (by simpa using fun h => absurd (congrArg some h.symm) ha),
              if_neg (by simpa using fun h => absurd (congrArg some h.symm) hb)]
            exact .inr ⟨_, _, rfl, rfl, hall _ _ rfl⟩

/-- A value given as a lambda: the sequence is under the scope of that lambda meanwhile. -/
theorem steps_reparented {p : Option ContextId} {ρ : Names} {node node' : Node} {member member' v w : Lambda}
    (hvw : v.Alike M.lexicon.likeness ρ w) (hρ : m.Knows p ρ)
    (hleft : M.lexicon.likeness.Shielded (node.setWith member v))
    (hright : M.lexicon.likeness.Shielded (node'.setWith member' w)) {sequence : ContextId}
    (hseat : Seat m.left.contexts p node sequence) (hseat' : Seat m.right.contexts p node' sequence) :
    Steps m (fun n => M.reading.value n.ghost)
      (do let scope ← lambdaScope v sequence p; withParent sequence (some scope) (rec.value scope v.body))
      (do let scope ← lambdaScope w sequence p; withParent sequence (some scope) (rec'.value scope w.body)) := by
  intro halike
  refine (Steps.lambdaScope hvw.row sequence p).bind (fun n hn scope scope' hscope => ?_) halike
  obtain ⟨rfl, hentered⟩ := hscope
  have hknows := hentered.knows hρ
  have hplain : ∀ d, n.left.contexts[sequence]? = some d → d.isScope = false := by
    intro d hd
    obtain ⟨d', hd', hs, -⟩ := hseat.mono hn.left
    obtain rfl := Option.some.inj (hd'.symm.trans hd)
    exact hs
  have hclosure : ∀ {q k r f g scalar}, n.left.contexts[sequence]? = some (.projection q k r f scalar) →
      n.right.contexts[sequence]? = some (.projection q k r g scalar) →
      M.lexicon.Closure n.left.contexts n.right.contexts sequence (some scope) f g := by
    intro q k r f g scalar hf hg
    obtain ⟨⟨a, b, number, ha, hb, -, hl, hr⟩, rfl, hlength, hlt⟩ := hentered
    rw [hl, List.getElem?_append_left hlt] at hf
    rw [hr, List.getElem?_append_left (hlength ▸ hlt)] at hg
    obtain ⟨d, hd, -, hprojection⟩ := hseat
    obtain ⟨e, he, -, hprojection'⟩ := hseat'
    obtain ⟨rfl, hnode⟩ := hprojection _ _ _ _ _ (Option.some.inj (hd.symm.trans hf))
    obtain ⟨-, hnode'⟩ := hprojection' _ _ _ _ _ (Option.some.inj (he.symm.trans hg))
    rw [hl, hr]
    refine M.lawful.shift hlength ha hb (hleft _ _ _ _ rfl hnode) (hright _ _ _ _ rfl hnode') ?_
    cases halike.contexts.pair hf hg with
    | projection _ closure => exact closure
  have hl := supports_withParent n.left.contexts (some scope) hplain
  have hr : Supports n.right.contexts (n.right.contexts.modify sequence (Context.withParent (some scope))) := by
    refine supports_withParent _ _ fun d hd => ?_
    obtain ⟨d', hd', hs, -⟩ := hseat'.mono hn.right
    obtain rfl := Option.some.inj (hd'.symm.trans hd)
    exact hs
  refine Steps.withParent hplain hclosure (h.value hvw.body fun x y hxy => ?_)
  refine M.lawful.widen ?_ (M.lawful.keep hl hr (hknows x y hxy))
  simp [Moment.reparent, BuildState.adjust]

theorem steps_set {p : Option ContextId} {ρ : Names} {f g : Lambda} {v w : Expr}
    (hfg : f.Alike M.lexicon.likeness ρ g) (hvw : v.Alike M.lexicon.likeness (ρ.under f.row? g.row?) w)
    (hρ : m.Knows p ρ) {path path' : Path} (hpath : path'.steps = path.steps) (sequence : ContextId) :
    Steps m (fun n => SetItemPair M n.ghost) (c.setItem rec f path (.value v) sequence p)
      (c'.setItem rec' g path' (.value w) sequence p) := by
  unfold setItem
  rw [hpath]
  refine (steps_settableColumn h sequence _ none).then fun n hn column => ?_
  refine Steps.under hfg.row (hρ.mono hn) fun k _ scope hscope => ?_
  exact (h.value hvw hscope).bind fun _ _ _ _ hv => .pure ⟨rfl, hv⟩

theorem steps_setWith {p : Option ContextId} {ρ : Names} {node node' : Node} {f g v w : Lambda}
    (hvw : v.Alike M.lexicon.likeness ρ w) (hρ : m.Knows p ρ)
    (hleft : M.lexicon.likeness.Shielded (node.setWith f v))
    (hright : M.lexicon.likeness.Shielded (node'.setWith g w)) {path path' : Path} (hpath : path'.steps = path.steps)
    {sequence : ContextId} (hseat : Seat m.left.contexts p node sequence)
    (hseat' : Seat m.right.contexts p node' sequence) :
    Steps m (fun n => SetItemPair M n.ghost) (c.setItem rec f path (.lambda v) sequence p)
      (c'.setItem rec' g path' (.lambda w) sequence p) := by
  refine (steps_computedColumn h hpath sequence).then fun n hn column => ?_
  have hvalue := steps_reparented h hvw (hρ.mono hn) hleft hright (hseat.mono hn.left) (hseat'.mono hn.right)
  have hitem := hvalue.bind fun n _ v w hv => Steps.pure (P := fun n => SetItemPair M n.ghost)
    (a := ⟨column, v⟩) (b := ⟨column, w⟩) ⟨rfl, hv⟩
  simpa only [bind_assoc] using hitem

/-- What is said of the result of a query under the parent. -/
def Results (p : Option ContextId) (node node' : Node) (n : M.Moment) (a b : ContextId) : Prop :=
  a = b ∧ Seat n.left.contexts p node a ∧ Seat n.right.contexts p node' a

omit h in
theorem steps_buildSource {p : Option ContextId} (name : String) :
    Steps m (Results p (.source name) (.source name)) (c.buildSource (.source name) p)
      (c'.buildSource (.source name) p) := by
  refine (steps_entity name).bind fun n hn e _ he => ?_
  obtain ⟨rfl, -⟩ := he
  refine Steps.nextAlias.then fun n' hn' aliasName => (Steps.addStatement ?_).then fun k hk number => ?_
  · exact ⟨rfl, M.reading.selected .nil, rfl, nofun, M.reading.ofBool true, rfl, .nil⟩
  · refine (Steps.addContext fun _ => .table fun _ h => by cases h).imp fun k' _ a b hab => ?_
    obtain ⟨rfl, hl, hr⟩ := hab
    exact ⟨rfl, ⟨_, hl, rfl, nofun⟩, ⟨_, hr, rfl, nofun⟩⟩

section Sequence

variable {p : Option ContextId} {ρ : Names} {node node' : Node} {id : ContextId} (hρ : m.Knows p ρ)
  (hseat : Seat m.left.contexts p node id) (hseat' : Seat m.right.contexts p node' id)

include hρ hseat hseat'

theorem steps_buildFilter {f g : Lambda} (hfg : f.Alike M.lexicon.likeness ρ g) :
    Steps m (Results p (node.filter f) (node'.filter g)) (buildFilter rec (node.filter f) id p)
      (buildFilter rec' (node'.filter g) id p) := by
  refine (Steps.ensureComposable id _).then fun n hn _ => ?_
  refine (steps_restrict h hfg (hρ.mono hn) id).then fun k hk _ => .pure ?_
  exact ⟨rfl, hseat.mono (hn.trans hk).left, hseat'.mono (hn.trans hk).right⟩

omit h hseat hseat' in
theorem steps_buildSelect {f g : Lambda} (hfg : f.Alike M.lexicon.likeness ρ g) :
    Steps m (Results p (node.select f) (node'.select g)) (buildSelect (node.select f) id p)
      (buildSelect (node'.select g) id p) := by
  refine (Steps.ensureComposable id _).then fun n hn _ => .context fun d e hd _ hde => ?_
  have hlt := (List.getElem?_eq_some_iff.mp hd).1
  have hclosure : M.lexicon.Closure n.left.contexts n.right.contexts n.left.contexts.length p f g :=
    ⟨ρ, hfg, hρ.mono hn⟩
  dsimp only
  rw [hde.statement, hfg.body.isNone_bindings?]
  refine (Steps.addContext fun _ => .projection hlt ?_).imp fun k _ a b hab => ?_
  · exact hclosure.keep M.lawful (sustains_concat _ _).supports (sustains_concat _ _).supports
  · obtain ⟨rfl, hl, hr⟩ := hab
    exact ⟨rfl, seat_select hl node, seat_select hr node'⟩

omit h hρ hseat hseat' in
/-- The statement of the sequence is assigned to, and becomes an update. -/
theorem steps_completed {result result' : Node}
    (hassign : ∀ n, m.Later n → ∀ number, Steps n Equal (c.assign rec number id result.operands p)
      (c'.assign rec' number id result'.operands p)) :
    Steps m (Results p result result') (c.buildUpdate rec result id p) (c'.buildUpdate rec' result' id p) := by
  refine (Steps.ensureComposable id _).then fun n hn _ => .context fun d e _ _ hde => ?_
  dsimp only
  rw [hde.statement]
  refine (hassign n hn d.statement).then fun k hk _ => (steps_completeUpdate d.statement).then fun k' hk' _ => ?_
  refine (Steps.addContext fun _ => .update).imp fun o _ a b hab => ?_
  obtain ⟨rfl, hl, hr⟩ := hab
  exact ⟨rfl, ⟨_, hl, rfl, nofun⟩, ⟨_, hr, rfl, nofun⟩⟩

omit h in
theorem steps_buildSet {f g : Lambda} {operand operand' : Argument} (hfg : f.Alike M.lexicon.likeness ρ g)
    (hitem : ∀ n, m.Later n → ∀ path path' : Path, path'.steps = path.steps →
      Steps n (fun n => SetItemPair M n.ghost) (c.setItem rec f path operand id p)
        (c'.setItem rec' g path' operand' id p)) :
    Steps m (Results p (node.chain .set [.lambda f, operand]) (node'.chain .set [.lambda g, operand']))
      (c.buildSet rec (node.chain .set [.lambda f, operand]) id p)
      (c'.buildSet rec' (node'.chain .set [.lambda g, operand']) id p) := by
  refine (Steps.ensureComposable id _).then fun n hn _ => ?_
  have hpath : Steps n (fun _ path path' => path'.steps = path.steps) (ofExcept (selectedPath f))
      (ofExcept (selectedPath g)) := by
    rcases selectedPath_alike hfg hρ with ⟨path, path', hf, hg, hsteps⟩ | ⟨e, e', hf, hg, he⟩
    · rw [hf, hg]
      exact .pure hsteps
    · rw [hf, hg]
      exact .fail he
  refine hpath.bind fun k hk path path' hsteps => .context fun d e _ _ hde => ?_
  dsimp only
  rw [hde.statement]
  have hk := hn.trans hk
  refine (hitem k hk path path' hsteps).bind fun k' hk' i j hij => ?_
  rw [hij.1]
  refine (steps_bindTarget d.statement _).then fun o ho _ => ?_
  refine (steps_addItems d.statement (.cons (hij.mono ho) .nil)).then fun o' ho' _ => .pure ?_
  have hend := hk.trans (hk'.trans (ho.trans ho'))
  exact ⟨rfl, hseat.mono hend.left, hseat'.mono hend.right⟩

end Sequence

theorem steps_assign {p : Option ContextId} {ρ : Names} {node node' : Node} (hρ : m.Knows p ρ)
    (hshape : Builder.update.Shapes M.lexicon.likeness ρ node node') (number : StatementId) (sequence : ContextId) :
    Steps m Equal (c.assign rec number sequence node.operands p) (c'.assign rec' number sequence node'.operands p) := by
  cases hshape with
  | update hsource =>
    refine (steps_updatedRows? h sequence).then fun n _ rows => ?_
    cases rows with
    | none => exact .pure rfl
    | some rows => exact steps_bindTarget number rows.2
  | updateWith hsource hsetter => exact steps_updateWith h hsetter hρ number sequence
  | updateWhere hsource hcondition hsetter =>
    refine (steps_restrict h hcondition hρ sequence).then fun n hn _ => ?_
    exact steps_updateWith h hsetter (hρ.mono hn) number sequence
  | updateInto hsource htarget hsetter => exact steps_updateInto h htarget hsetter hρ number sequence

/-- The operator is compiled over its source sequence. -/
theorem steps_build {p : Option ContextId} {ρ : Names} {node node' : Node} {b : Builder} (hρ : m.Knows p ρ)
    (hshape : b.Shapes M.lexicon.likeness ρ node node') :
    Steps m (Results p node node')
      (primarySequence? rec p node >>= fun source => c.build rec b node source p)
      (primarySequence? rec' p node' >>= fun source => c'.build rec' b node' source p) := by
  -- every operator but a source has a sequence, and what it does with it is one of the functions above
  have hover : ∀ {source source' : Node} {kind : OperatorKind} {as bs : List Argument},
      source.Alike M.lexicon.likeness ρ source' →
      (∀ n, m.Later n → ∀ id, Seat n.left.contexts p source id → Seat n.right.contexts p source' id →
        Steps n (Results p (source.chain kind as) (source'.chain kind bs))
          (c.build rec b (source.chain kind as) (some id) p) (c'.build rec' b (source'.chain kind bs) (some id) p)) →
      Steps m (Results p (source.chain kind as) (source'.chain kind bs))
        (primarySequence? rec p (source.chain kind as) >>= fun id => c.build rec b (source.chain kind as) id p)
        (primarySequence? rec' p (source'.chain kind bs) >>= fun id =>
          c'.build rec' b (source'.chain kind bs) id p) := by
    intro source source' kind as bs hsource hn
    simp only [primarySequence?, Node.primary?_chain, bind_map_left]
    refine (h.sequence hsource hρ).bind fun n hle id _ hid => ?_
    obtain ⟨rfl, hseat, hseat'⟩ := hid
    exact hn n hle id hseat hseat'
  cases hshape with
  | source name => exact steps_buildSource name
  | filter hsource hf => exact hover hsource fun n hn id hl hr => steps_buildFilter h (hρ.mono hn) hl hr hf
  | select hsource hf => exact hover hsource fun n hn id _ _ => steps_buildSelect (hρ.mono hn) hf
  | update hsource =>
    exact hover hsource fun n hn id _ _ => steps_completed fun k hk number =>
      steps_assign h (hρ.mono (hn.trans hk)) (.update hsource) number id
  | updateWith hsource hsetter =>
    exact hover hsource fun n hn id _ _ => steps_completed fun k hk number =>
      steps_assign h (hρ.mono (hn.trans hk)) (.updateWith hsource hsetter) number id
  | updateWhere hsource hcondition hsetter =>
    exact hover hsource fun n hn id _ _ => steps_completed fun k hk number =>
      steps_assign h (hρ.mono (hn.trans hk)) (.updateWhere hsource hcondition hsetter) number id
  | updateInto hsource htarget hsetter =>
    exact hover hsource fun n hn id _ _ => steps_completed fun k hk number =>
      steps_assign h (hρ.mono (hn.trans hk)) (.updateInto hsource htarget hsetter) number id
  | set hsource hmember hvalue =>
    refine hover hsource fun n hn id hl hr => steps_buildSet (hρ.mono hn) hl hr hmember fun k hk path path' hpath => ?_
    exact steps_set h hmember hvalue (hρ.mono (hn.trans hk)) hpath id
  | setWith hsource hmember hvalue left right =>
    refine hover hsource fun n hn id hl hr => steps_buildSet (hρ.mono hn) hl hr hmember fun k hk path path' hpath => ?_
    exact steps_setWith h hvalue (hρ.mono (hn.trans hk)) left right hpath (hl.mono hk.left) (hr.mono hk.right)

theorem steps_sequence {p : Option ContextId} {ρ : Names} {node node' : Node}
    (hnode : node.Alike M.lexicon.likeness ρ node') (hρ : m.Knows p ρ) :
    Steps m (Results p node node') (c.sequence rec p node) (c'.sequence rec' p node') := by
  rw [Compiler.sequence, Compiler.sequence]
  rcases M.builder hnode with ⟨b, hb, hb'⟩ | ⟨e, e', hb, hb', he⟩
  · rw [hb, hb']
    exact steps_build h hρ ((Builder.shape_of_claims (claims_of_builderFor hb)).alike hnode)
  · rw [hb, hb']
    exact Steps.fail he

omit h

/-- Every call is made in step. -/
theorem steps_calls (M : Mirror c c') (n : Nat) : M.Calls (c.calls n) (c'.calls n) := by
  induction n with
  | zero => exact M.calls_exhausted
  | succ n h =>
    exact ⟨steps_value h, steps_condition h, steps_classify h, steps_members h, steps_sequence h⟩

/-! Whole queries. -/

theorem steps_finish {rec rec' : ObjectQuery.Calls} (h : M.Calls rec rec') (id : ContextId) :
    Steps m Equal (finish rec id) (finish rec' id) := by
  have hend : ∀ n : M.Moment, Steps n Equal (do pure ((← context id).statement, id))
      (do pure ((← context id).statement, id)) := fun n =>
    .context fun d e _ _ hde => .pure (by rw [Equal, hde.statement])
  refine .context fun d e _ _ hde => ?_
  rw [hde.isUpdate]
  dsimp only
  split
  · exact hend m
  · exact (steps_selectItems h id [] .all).bind fun n _ _ _ _ => hend n

theorem steps_root (fuel : Nat) {ρ : Names} {node node' : Node} (hnode : node.Alike M.lexicon.likeness ρ node')
    (hρ : m.Knows none ρ) : Steps m Equal (c.root fuel node) (c'.root fuel node') := by
  have h := M.steps_calls fuel
  refine (h.sequence hnode hρ).bind fun n _ id _ hid => ?_
  obtain ⟨rfl, -⟩ := hid
  exact steps_finish h id

/-- How the compilations of whole queries end. -/
inductive Outcomes (M : Mirror c c') : Except Stop CompiledQuery → Except Stop CompiledQuery → Prop
  | compiles {g : M.reading.Ghost} {q q' : CompiledQuery} (root : q'.root = q.root)
    (rootContext : q'.rootContext = q.rootContext) (contexts : M.lexicon.Pairs q.contexts q'.contexts)
    (statements : List.Forall₂ (M.Matches g) q.statements q'.statements) : Outcomes M (.ok q) (.ok q')
  | fails {e e'} (h : M.error e e') : Outcomes M (.error (.failed e)) (.error (.failed e'))
  | halts {stop} (h : ∀ e, stop ≠ .failed e) : Outcomes M (.error stop) (.error stop)

/-- Queries that are alike are compiled in step, if the compilations start so. -/
theorem outcomes (M : Mirror c c') {g : M.reading.Ghost} (hg : M.reading.counts g 0 0) {ρ : Names} {node node' : Node}
    (hnode : node.Alike M.lexicon.likeness ρ node') (hρ : M.lexicon.Knows [] [] 0 none ρ) (fuel : Nat) :
    M.Outcomes (c.compile fuel node) (c'.compile fuel node') := by
  have hstart : M.Alike ⟨g, {}, {}⟩ := ⟨rfl, hg, .nil, rfl, nofun⟩
  have hroot := steps_root (m := ⟨g, {}, {}⟩) fuel hnode hρ hstart
  unfold compile
  generalize (c.root fuel node).run _ = x at hroot
  generalize (c'.root fuel node').run _ = y at hroot
  cases hroot with
  | gives later alike hab =>
    obtain rfl := hab
    exact .compiles rfl rfl alike.contexts alike.statements
  | fails later alike he => exact .fails he
  | halts hstop => exact .halts hstop

end Mirror
end ObjectQuery
