import ObjectQuery.Proofs.Calls.Resolve
import ObjectQuery.Proofs.Mirror.Rules

/-!
Paths, values and conditions are compiled in step as seen from the same scope, provided that the calls they make are.
-/
namespace ObjectQuery

open Build Compiler

namespace Mirror

variable {c c' : Compiler} {M : Mirror c c'} {m n : M.Moment}

/-- The same rows, columns and objects, and values that correspond to each other. -/
inductive Denotes (M : Mirror c c') (g : M.reading.Ghost) : Denotation → Denotation → Prop
  | table (rows : ContextId) : Denotes M g (.table rows) (.table rows)
  | association (rows : ContextId) : Denotes M g (.association rows) (.association rows)
  | field (column : ColumnId) (aliasName : String) : Denotes M g (.field column aliasName) (.field column aliasName)
  | computed {v w} (value : M.reading.value g v w) : Denotes M g (.computed v) (.computed w)
  | object (context : ContextId) (steps : List String) : Denotes M g (.object context steps) (.object context steps)

/-- Members of the same name, with values that correspond to each other. -/
def Labelled (M : Mirror c c') (g : M.reading.Ghost) (a b : Option String × SqlExpr) : Prop :=
  b.1 = a.1 ∧ M.reading.value g a.2 b.2

/-- The sequence is no lambda scope, and if it is a projection, it is that of the query under the parent. -/
def Seat (l : List Context) (p : Option ContextId) (node : Node) (id : ContextId) : Prop :=
  ∃ d, l[id]? = some d ∧ d.isScope = false ∧
    ∀ q k r f scalar, d = .projection q k r f scalar → q = p ∧ node.projection? = some f

theorem Seat.mono {l l' : List Context} {p : Option ContextId} {node : Node} {id : ContextId} (h : Seat l p node id)
    (hl : Sustains l l') : Seat l' p node id := by
  obtain ⟨d, hd, hs, hprojection⟩ := h
  obtain ⟨e, he, hbare⟩ := hl id d hd
  refine ⟨e, he, (Context.isScope_of_bare hbare).trans hs, fun q k r f scalar h => hprojection q k r f scalar ?_⟩
  subst h
  cases d <;> cases hbare
  rfl

theorem seat_select {l : List Context} {p : Option ContextId} {m : StatementId} {q id : ContextId} {f : Lambda}
    {scalar : Bool} (h : l[id]? = some (.projection p m q f scalar)) (source : Node) : Seat l p (source.select f) id :=
  ⟨_, h, rfl, by
    rintro _ _ _ _ _ ⟨⟩
    exact ⟨rfl, rfl⟩⟩

/-- Calls that are made in step. -/
structure Calls (M : Mirror c c') (rec rec' : ObjectQuery.Calls) : Prop where
  value : ∀ {m : M.Moment} {scope ρ} {e e' : Expr}, e.Alike M.lexicon.likeness ρ e' → m.Knows (some scope) ρ →
    Steps m (fun n => M.reading.value n.ghost) (rec.value scope e) (rec'.value scope e')
  condition : ∀ {m : M.Moment} {scope ρ} {e e' : Expr}, e.Alike M.lexicon.likeness ρ e' → m.Knows (some scope) ρ →
    Steps m (fun n => M.reading.condition n.ghost) (rec.condition scope e) (rec'.condition scope e')
  classify : ∀ {m : M.Moment} (id steps),
    Steps m (fun n => Denotes M n.ghost) (rec.classify id steps) (rec'.classify id steps)
  members : ∀ {m : M.Moment} (id steps extent),
    Steps m (fun n => List.Forall₂ (Labelled M n.ghost)) (rec.members id steps extent) (rec'.members id steps extent)
  sequence : ∀ {m : M.Moment} {p ρ} {node node' : Node}, node.Alike M.lexicon.likeness ρ node' → m.Knows p ρ →
    Steps m (fun n a b => a = b ∧ Seat n.left.contexts p node a ∧ Seat n.right.contexts p node' a)
      (rec.sequence p node) (rec'.sequence p node')

theorem calls_exhausted (M : Mirror c c') : M.Calls .exhausted .exhausted :=
  ⟨fun _ _ => .throw nofun, fun _ _ => .throw nofun, fun _ _ => .throw nofun, fun _ _ _ => .throw nofun,
    fun _ _ => .throw nofun⟩

/-! What paths denote. -/

theorem steps_entity (name : String) :
    Steps m (fun _ a b => a = b ∧ c.schema.mapping.entity? name = some a) (c.entity name) (c'.entity name) := by
  unfold Compiler.entity
  rw [M.schema]
  cases c.schema.mapping.entity? name with
  | none => exact .same _
  | some e => exact .pure ⟨rfl, rfl⟩

theorem steps_followAssociation (owner : ContextId) (name : String) (a : Association) :
    Steps m (fun n a b => a = b ∧ Associated n.left.contexts a) (c.followAssociation owner name a)
      (c'.followAssociation owner name a) := by
  refine .context fun d e hd _ hde => ?_
  rw [hde.statement, hde.rows?]
  split
  · next rows hlookup => exact .pure ⟨rfl, hde.associated hlookup⟩
  · refine (steps_entity a.target).bind fun n hn target _ htarget => ?_
    obtain ⟨rfl, -⟩ := htarget
    refine Steps.nextAlias.then fun n' hn' targetAlias => ?_
    refine (Steps.modifyStatement ?_).then fun k hk _ => ?_
    · intro st st' h
      refine { h with sources := by simp only [h.sources], joins := fun j hj => ?_ }
      rcases List.mem_append.mp hj with hj | hj
      · exact h.joins j hj
      · rw [List.mem_singleton.mp hj]
        exact M.reading.comparison .equal (M.reading.column _ _) (M.reading.column _ _)
    refine (Steps.addContext fun _ => .association fun _ h => by cases h).bind fun k' hk' rows rows' hrows => ?_
    obtain ⟨rfl, hl, -⟩ := hrows
    have hassociated : Associated k'.left.contexts rows := ⟨_, _, _, _, hl⟩
    refine (Steps.follow hassociated).then fun k'' hk'' _ => .pure ⟨rfl, ?_⟩
    exact hk''.left.supports.associated _ hassociated

variable {rec rec' : ObjectQuery.Calls} (h : M.Calls rec rec')

include h

theorem steps_classifyMember (id : ContextId) (steps : List String) :
    Steps m (fun n => Denotes M n.ghost) (c.classifyMember rec id steps) (c'.classifyMember rec' id steps) := by
  refine .context fun d e hd _ hde => ?_
  cases steps with
  | nil =>
    cases hde with
    | association => exact .pure (.association id)
    | _ => exact .pure (.table id)
  | cons step steps =>
    dsimp only
    rw [hde.kindName, hde.rows?]
    refine (Steps.orFailSame _ _).then fun n hn rows => (steps_entity rows.entity).bind fun n' hn' entity _ h' => ?_
    obtain ⟨rfl, hentity⟩ := h'
    split
    · exact .pure (.field _ _)
    · next l hlongest =>
      obtain ⟨ρ, hl, hρ⟩ := M.lawful.computed n'.left.contexts n'.right.contexts n'.left.contexts.length (some id)
        hentity (member?_of_longestMember? hlongest)
      refine Steps.under hl.row hρ fun k _ scope hscope => ?_
      exact (h.value hl.body hscope).map fun _ _ _ => .computed
    · exact (steps_followAssociation _ _ _).bind fun _ _ rows rows' hrows => by
        obtain ⟨rfl, -⟩ := hrows
        exact h.classify rows _
    · exact .same _
    · split
      · exact .pure (.object id _)
      · exact .same _

/-- A value in the body of a projection is seen from a scope of the projection's own. -/
theorem steps_classifyValue {id q : ContextId} {f g : Lambda} {ρ : Names} {e e' : Expr}
    (hfg : f.Alike M.lexicon.likeness ρ g) (he : e.Alike M.lexicon.likeness (ρ.under f.row? g.row?) e')
    (hρ : ∀ d, m.left.contexts[id]? = some d → m.Knows d.parent ρ) (steps : List String) :
    Steps m (fun n => Denotes M n.ghost) (classifyValue rec id q f e steps) (classifyValue rec' id q g e' steps) := by
  unfold classifyValue
  have hfilter : Option.Rel (fun path path' => path'.steps = path.steps)
      ((Path.ofExpr? e).filter fun path => f.row? = some path.root)
      ((Path.ofExpr? e').filter fun path => g.row? = some path.root) := by
    have hpath := he.path?
    generalize Path.ofExpr? e = x at hpath
    generalize Path.ofExpr? e' = y at hpath
    cases hpath with
    | none => exact .none
    | @some path path' hpath =>
      rcases hpath.root with ⟨hf, hg⟩ | ⟨hf, hg, -⟩
      · rw [Option.filter_some, Option.filter_some, if_pos (decide_eq_true hf), if_pos (decide_eq_true hg)]
        exact .some hpath.steps
      · rw [Option.filter_some, Option.filter_some, if_neg (by simpa using hf), if_neg (by simpa using hg)]
        exact .none
  generalize Option.filter _ (Path.ofExpr? e) = x at hfilter
  generalize Option.filter _ (Path.ofExpr? e') = y at hfilter
  cases hfilter with
  | some hsteps =>
    dsimp only
    rw [hsteps]
    exact h.classify q _
  | none =>
    cases steps with
    | nil =>
      refine .context fun d d' hd _ hdd => ?_
      rw [hdd.parent]
      refine Steps.under hfg.row (hρ d hd) fun n _ scope hscope => ?_
      exact (h.value he hscope).map fun _ _ _ => .computed
    | cons => exact .same _

theorem steps_classifyProjected {id q : ContextId} {f g : Lambda} {ρ : Names} {e e' : Expr}
    (hfg : f.Alike M.lexicon.likeness ρ g) (he : e.Alike M.lexicon.likeness (ρ.under f.row? g.row?) e')
    (hρ : ∀ d, m.left.contexts[id]? = some d → m.Knows d.parent ρ) (steps : List String) :
    Steps m (fun n => Denotes M n.ghost) (classifyProjected rec id q f e steps)
      (classifyProjected rec' id q g e' steps) := by
  induction steps generalizing e e' with
  | nil =>
    have hbindings := he.bindings?
    unfold classifyProjected
    generalize e.bindings? = bs at hbindings
    generalize e'.bindings? = bs' at hbindings
    cases hbindings with
    | some => exact .pure (.object id [])
    | none => exact steps_classifyValue h hfg he.strip hρ []
  | cons name rest ih =>
    have hbindings := he.bindings?
    unfold classifyProjected
    generalize e.bindings? = bs at hbindings
    generalize e'.bindings? = bs' at hbindings
    cases hbindings with
    | none => exact steps_classifyValue h hfg he.strip hρ (name :: rest)
    | some hbindings =>
      have hlookup := hbindings.lookup name
      dsimp only
      generalize List.lookup name _ = x at hlookup
      generalize List.lookup name _ = y at hlookup
      cases hlookup with
      | none => exact .same _
      | some hvalue =>
        refine (ih hvalue).bind fun n _ d d' hdd => ?_
        cases hdd with
        | object owner steps =>
          dsimp only
          split
          · exact .pure (.object id _)
          · exact .pure (.object owner _)
        | table rows => exact .pure (.table rows)
        | association rows => exact .pure (.association rows)
        | field column aliasName => exact .pure (.field column aliasName)
        | computed hv => exact .pure (.computed hv)

theorem steps_classify (id : ContextId) (steps : List String) :
    Steps m (fun n => Denotes M n.ghost) (c.classify rec id steps) (c'.classify rec' id steps) := by
  refine .context fun d e hd he hde => ?_
  cases hde with
  | table | association => exact steps_classifyMember h id steps
  | @projection p number q f g scalar hsequence hclosure =>
    obtain ⟨ρ, hfg, hρ⟩ := hclosure
    have hle : id ≤ m.left.contexts.length := Nat.le_of_lt (List.getElem?_eq_some_iff.mp hd).1
    have hparent : ∀ d, m.left.contexts[id]? = some d → m.Knows d.parent ρ := by
      intro d' hd'
      obtain rfl := Option.some.inj (hd.symm.trans hd')
      exact fun x y hxy => M.lawful.widen hle (hρ x y hxy)
    dsimp only
    split
    · exact steps_classifyValue h hfg hfg.body.strip hparent steps
    · exact steps_classifyProjected h hfg hfg.body.strip hparent steps
  | lambda => exact .same _
  | update => exact .same _

/-- Errors on the way keep their kind. -/
theorem steps_resolve {scope : ContextId} {ρ : Names} {path path' : Path} (hρ : m.Knows (some scope) ρ)
    (hpath : path.Alike ρ path') :
    Steps m (fun n => Denotes M n.ghost) (resolve rec scope path) (resolve rec' scope path') := by
  refine (Steps.rootOf hρ hpath).then fun n hn sequence => ?_
  rw [hpath.steps]
  refine (h.classify sequence path.steps).recover (fun _ _ _ _ hd => .pure hd) fun n' hn' e e' he => ?_
  have hkind := M.resolution he
  cases e with
  | memberResolution text fault =>
    cases e' with
    | memberResolution text' fault' =>
      rcases path_eq_or_error hρ hpath with rfl | hall
      · exact .fail (M.restate _ he)
      · exact .fail (hall _ _ rfl)
    | _ => cases hkind
  | _ =>
    cases e' with
    | memberResolution => cases hkind
    | _ => exact .fail he

/-! Values and conditions. -/

theorem steps_pathValue {scope : ContextId} {ρ : Names} {e e' : Expr} (he : e.Alike M.lexicon.likeness ρ e')
    (hρ : m.Knows (some scope) ρ) :
    Steps m (fun n => M.reading.value n.ghost) (pathValue rec scope e) (pathValue rec' scope e') := by
  have herror : M.error (.unsupportedShape (.memberOfNonParameter e.describe))
      (.unsupportedShape (.memberOfNonParameter e'.describe)) := by
    rcases eq_or_error hρ he with rfl | hall
    · exact M.same _
    · exact hall _ _ rfl
  refine (Steps.orFail he.path? herror).bind fun n hn path path' hpath => ?_
  refine (steps_resolve h (hρ.mono hn) hpath).bind fun k hk d d' hd => ?_
  have hnotValue := error_unresolved (hρ.mono hn) hpath fun _ => .notAValue
  cases hd with
  | field column aliasName => exact .pure (M.reading.column column (some aliasName))
  | computed hv => exact .pure hv
  | table | association | object => exact .fail hnotValue

omit h in
/-- A value that is no condition is compared with the truth. -/
theorem steps_test (v w : SqlExpr) : M.reading.value m.ghost v w →
    Steps m (fun n => M.reading.condition n.ghost)
      (match v with
      | .condition p => pure p
      | sql => pure (.equal sql (.literal (.bool true))))
      (match w with
      | .condition p => pure p
      | sql => pure (.equal sql (.literal (.bool true)))) := by
  intro hv
  have htest := M.reading.test hv
  cases v <;> cases w <;> exact .pure htest

theorem steps_condition {scope : ContextId} {ρ : Names} {e e' : Expr} (he : e.Alike M.lexicon.likeness ρ e')
    (hρ : m.Knows (some scope) ρ) :
    Steps m (fun n => M.reading.condition n.ghost) (condition rec scope e) (condition rec' scope e') := by
  have hboth : ∀ {f : Predicate → Predicate → Predicate} {a b a' b' : Expr},
      (∀ {g p p' q q'}, M.reading.condition g p p' → M.reading.condition g q q' →
        M.reading.condition g (f p q) (f p' q')) →
      a.Alike M.lexicon.likeness ρ a' → b.Alike M.lexicon.likeness ρ b' →
      Steps m (fun n => M.reading.condition n.ghost)
        (do let p ← rec.condition scope a; let q ← rec.condition scope b; pure (f p q))
        (do let p ← rec'.condition scope a'; let q ← rec'.condition scope b'; pure (f p q)) := fun hf ha hb =>
    (h.condition ha hρ).bind fun n hn p p' hp => (h.condition hb (hρ.mono hn)).bind fun k hk q q' hq =>
      .pure (hf (M.reading.condition_mono hk.ghost hp) hq)
  have hstrip := he.strip
  unfold condition
  generalize e.strip = d at hstrip
  generalize e'.strip = d' at hstrip
  have hvalue := h.value hstrip hρ
  cases hstrip with
  | binary op hl hr =>
    cases op with
    | and => exact hboth M.reading.conjunction hl hr
    | or => exact hboth M.reading.disjunction hl hr
    | comparison op =>
      refine (h.value hl hρ).bind fun n hn v v' hv => (h.value hr (hρ.mono hn)).bind fun k hk w w' hw => ?_
      exact .pure (M.reading.comparison op (M.reading.value_mono hk.ghost hv) hw)
    | arithmetic op => exact .same _
  | not hinner => exact (h.condition hinner hρ).map fun _ _ _ => M.reading.negate
  | literal v =>
    cases v with
    | bool b => exact .pure (M.reading.ofBool b)
    | _ => exact hvalue.bind fun n hn v w => steps_test v w
  | _ => exact hvalue.bind fun n hn v w => steps_test v w

theorem steps_aggregateArgument {scope sequence : ContextId} {ρ : Names} {f g : Option Lambda} (function : Aggregate)
    (hfg : Lambda.AlikeOption M.lexicon.likeness ρ f g) (hρ : m.Knows (some scope) ρ) :
    Steps m (fun n => M.reading.value n.ghost) (aggregateArgument rec scope function f sequence)
      (aggregateArgument rec' scope function g sequence) := by
  cases hfg with
  | some hfg => exact Steps.under hfg.row hρ fun n _ inner hinner => h.value hfg.body hinner
  | none =>
    cases function with
    | count => exact .pure M.reading.star
    | _ =>
      refine (h.members sequence [] .field).bind fun n _ items items' hitems => ?_
      cases hitems with
      | nil => exact .same _
      | cons hitem hitems =>
        cases hitems with
        | nil => exact .pure hitem.2
        | cons => exact .same _

theorem steps_aggregate {scope : ContextId} {ρ : Names} {node node' : Node} {f g : Option Lambda}
    (function : Aggregate) (hnode : node.Alike M.lexicon.likeness ρ node')
    (hfg : Lambda.AlikeOption M.lexicon.likeness ρ f g) (hρ : m.Knows (some scope) ρ) :
    Steps m (fun n => M.reading.value n.ghost) (aggregate rec scope function node f)
      (aggregate rec' scope function node' g) := by
  refine (h.sequence hnode hρ).bind fun n hn sequence sequence' hsequence => ?_
  obtain ⟨rfl, -⟩ := hsequence
  refine (Steps.ensureComposable sequence _).then fun n' hn' _ => ?_
  refine (steps_aggregateArgument h function hfg (hρ.mono (hn.trans hn'))).bind fun k hk v w hv => ?_
  refine .context fun d e _ _ hde => ?_
  rw [hde.statement]
  refine (Steps.modifyStatement ?_).then fun _ _ _ => .pure (M.reading.subquery _)
  intro st st' hst
  have hselect := M.reading.selected (.cons (M.reading.function function.name (.cons hv .nil)) .nil)
  exact { hst with select := hselect }

theorem steps_value {scope : ContextId} {ρ : Names} {e e' : Expr} (he : e.Alike M.lexicon.likeness ρ e')
    (hρ : m.Knows (some scope) ρ) :
    Steps m (fun n => M.reading.value n.ghost) (c.value rec scope e) (c'.value rec' scope e') := by
  have hcondition : ∀ {d d' : Expr}, d.Alike M.lexicon.likeness ρ d' →
      Steps m (fun n => M.reading.value n.ghost) (SqlExpr.condition <$> rec.condition scope d)
        (SqlExpr.condition <$> rec'.condition scope d') := fun hd =>
    (h.condition hd hρ).map fun _ _ _ => M.reading.ofCondition
  cases he with
  | literal v => exact Steps.constant v rec rec' scope
  | «external» name hname => exact .pure (M.external hname)
  | null => exact .pure M.reading.null
  | convert hinner => exact h.value hinner hρ
  | parameter hx => exact steps_pathValue h (.parameter hx) hρ
  | member hobject name => exact steps_pathValue h (.member hobject name) hρ
  | binary op hl hr =>
    cases op with
    | arithmetic op =>
      refine (h.value hl hρ).bind fun n hn v v' hv => (h.value hr (hρ.mono hn)).bind fun k hk w w' hw => ?_
      exact .pure (M.reading.arithmetic op (M.reading.value_mono hk.ghost hv) hw)
    | and | or | comparison => exact hcondition (.binary _ hl hr)
  | not hinner => exact hcondition (.not hinner)
  | call function hargs =>
    refine (Steps.mapM hargs.forall₂ (fun n hn e e' he => h.value he (hρ.mono hn)) ?_).map ?_
    · exact fun n k hk v w => M.reading.value_mono hk.ghost
    · exact fun n vs ws => M.reading.function function
  | construct => exact .same _
  | aggregate function hnode hfg => exact (steps_aggregate h function hnode hfg hρ).inContext

end Mirror
end ObjectQuery
