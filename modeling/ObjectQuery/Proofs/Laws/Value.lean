import ObjectQuery.Proofs.Calls.Resolve
import ObjectQuery.Proofs.Laws.Follow

/-!
Paths, values, conditions and rows obey every law, provided that the calls they make do. A query in a query is
followed at once by the question whether it is an update.
-/
namespace ObjectQuery

open Build

variable [Observer] {c : Compiler} {L : Law c} {rec : Calls}

/-- What compiling the node has made of the state, and the context of its rows. -/
inductive Law.Made (L : Law c) (node : Node) (s t : BuildState) (id : ContextId) : Prop
  | rows (plain : t.Plain id) (kind : node.kind ≠ .update) (made : L.rel none s t)
  | update (parent : Option ContextId) (m : StatementId) (sequence : ContextId)
    (context : t.contexts[id]? = some (.update parent m sequence)) (kind : node.kind = .update)
    (made : L.updated s m t)

/-- How compiling the node ends. -/
inductive Law.Ends (L : Law c) (node : Node) (s : BuildState) : Except Stop ContextId × BuildState → Prop
  | gives {id : ContextId} {t : BuildState} (contexts : s.KeepsContexts t) (made : L.Made node s t id) :
      Ends L node s (.ok id, t)
  | stops {stop : Stop} {t : BuildState} (contexts : s.KeepsContexts t) (stopped : L.rel (some stop) s t) :
      Ends L node s (.error stop, t)

/-- From that state, the action compiles the node. -/
def Law.Yields (L : Law c) (node : Node) (s : BuildState) (act : Build ContextId) : Prop :=
  L.Ends node s (act.run s)

def Law.Compiles (L : Law c) (node : Node) (act : Build ContextId) : Prop :=
  ∀ s, L.Yields node s act

/-- The action does not go on from this state, and leaves it as it is. -/
def Build.Refuses {α : Type} (act : Build α) (s : BuildState) : Prop :=
  ∃ stop : Stop, stop.Final ∧ act.run s = (.error stop, s)

namespace Law

variable {node : Node} {s t : BuildState}

theorem Made.after {id : ContextId} {u : BuildState} (h : L.rel none s t) (hm : L.Made node t u id) :
    L.Made node s u id := by
  cases hm with
  | rows plain kind made => exact .rows plain kind (L.trans h made)
  | update parent m sequence context kind made => exact .update parent m sequence context kind (L.after h made)

theorem Ends.after {r : Except Stop ContextId × BuildState} (hk : s.KeepsContexts t) (h : L.rel none s t)
    (he : L.Ends node t r) : L.Ends node s r := by
  cases he with
  | gives contexts made => exact .gives (hk.trans contexts) (made.after h)
  | stops contexts stopped => exact .stops (hk.trans contexts) (L.trans h stopped)

theorem yields_pure {id : ContextId} (hp : s.Plain id) (hk : node.kind ≠ .update) : L.Yields node s (pure id) :=
  .gives (.refl s) (.rows hp hk (L.refl none s))

theorem yields_throw (stop : Stop) : L.Yields node s (throw stop) :=
  .stops (.refl s) (L.refl _ s)

theorem Obeys.yields {α : Type} {act : Build α} {next : α → Build ContextId} (h : L.Obeys s act)
    (hn : ∀ a t, act.run s = (.ok a, t) → s.KeepsContexts t → L.Yields node t (next a)) :
    L.Yields node s (act >>= next) := by
  unfold Obeys at h
  rw [Yields, run_bind]
  cases hr : act.run s with
  | mk result t =>
    rw [hr] at h
    cases result with
    | error stop => exact .stops h.1 h.2
    | ok a => exact (hn a t hr h.1).after h.1 h.2

/-- The rows that an operator applies to stay in the course of it. -/
theorem Keeps.yields {α : Type} {act : Build α} {next : α → Build ContextId} {id : ContextId} (h : L.Keeps act)
    (hp : s.Plain id) (hn : ∀ a t, t.Plain id → L.Yields node t (next a)) : L.Yields node s (act >>= next) :=
  (h s).yields fun a t _ hk => hn a t (hp.mono hk)

section Followed

variable {source : Node} {β : Type} {act : Build ContextId} {next : ContextId → Build β}

/-- What refuses an update is not gone on with after one is compiled, so it runs over rows or not at all. -/
theorem Compiles.followed {P : Except Stop β × BuildState → Prop} (h : L.Compiles source act)
    (hu : ∀ id s d, s.contexts[id]? = some d → d.isUpdate = true → (next id).Refuses s)
    (stops : ∀ stop t, s.KeepsContexts t → L.rel (some stop) s t → P (.error stop, t))
    (rows : ∀ id t, s.KeepsContexts t → t.Plain id → L.rel none s t → P ((next id).run t)) :
    P ((act >>= next).run s) := by
  have hends := h s
  rw [Yields] at hends
  rw [run_bind]
  generalize act.run s = r at hends
  cases hends with
  | stops contexts stopped => exact stops _ _ contexts stopped
  | @gives id t contexts made =>
    cases made with
    | rows plain kind made => exact rows id t contexts plain made
    | update parent m sequence context kind made =>
      obtain ⟨stop, hfinal, hrefuses⟩ := hu id t _ context rfl
      simp only [hrefuses]
      exact stops stop t contexts (L.refuse made hfinal)

/-- A node may be compiled where an update would be refused. -/
theorem Compiles.bind (h : L.Compiles source act) (hn : ∀ id s, s.Plain id → L.Obeys s (next id))
    (hu : ∀ id s d, s.contexts[id]? = some d → d.isUpdate = true → (next id).Refuses s) :
    L.Keeps (act >>= next) := by
  intro s
  refine h.followed (P := fun r => s.KeepsContexts r.2 ∧ L.rel (outcome r.1) s r.2) hu ?_ ?_
  · intro stop t hk hrel
    exact ⟨hk, hrel⟩
  · intro id t hk hp hrel
    have hobeys := hn id t hp
    exact ⟨hk.trans hobeys.1, L.trans hrel hobeys.2⟩

end Followed

/-- An operator compiles over the rows of its source, and refuses an update. -/
theorem Compiles.over {source : Node} {act : Build ContextId} {next : ContextId → Build ContextId}
    (h : L.Compiles source act) (hn : ∀ id s, s.Plain id → L.Yields node s (next id))
    (hu : ∀ id s d, s.contexts[id]? = some d → d.isUpdate = true → (next id).Refuses s) :
    L.Compiles node (act >>= next) := by
  intro s
  refine h.followed (P := L.Ends node s) hu ?_ ?_
  · intro stop t hk hrel
    exact .stops hk hrel
  · intro id t hk hp hrel
    exact (hn id t hp).after hk hrel

end Law

/-- All calls obey the law. -/
structure Calls.Obey (rec : Calls) (L : Law c) : Prop where
  value : ∀ scope e, L.Keeps (rec.value scope e)
  condition : ∀ scope e, L.Keeps (rec.condition scope e)
  classify : ∀ id steps, L.Keeps (rec.classify id steps)
  members : ∀ id steps extent, L.Keeps (rec.members id steps extent)
  sequence : ∀ parent node, L.Compiles node (rec.sequence parent node)

theorem Calls.obey_exhausted (L : Law c) : Calls.exhausted.Obey L :=
  ⟨fun _ _ => .throw _, fun _ _ => .throw _, fun _ _ => .throw _, fun _ _ _ => .throw _,
    fun _ _ _ => Law.yields_throw _⟩

omit [Observer] in
/-- Read operators refuse an update. -/
theorem Build.refuses_ensureComposable {β : Type} {id : ContextId} {operation : String} {s : BuildState}
    {d : Context} {next : Unit → Build β} (hd : s.contexts[id]? = some d) (hu : d.isUpdate = true) :
    (ensureComposable id operation >>= next).Refuses s := by
  have hrun : (ensureComposable id operation).run s =
      (.error (.failed (.unsupportedShape (.notComposable operation))), s) := by
    rw [ensureComposable, run_bind, run_context, hd]
    simp only [Option.elim_some, hu, if_true]
    rfl
  refine ⟨.failed (.unsupportedShape (.notComposable operation)), by rintro _ _ ⟨⟩, ?_⟩
  rw [run_bind, hrun]

namespace Compiler

theorem keeps_lambdaScope (l : Lambda) (sequence : ContextId) (parent : Option ContextId) :
    L.Keeps (lambdaScope l sequence parent) :=
  .read (reads_orFail _ _) fun _ => .read (reads_context _) fun _ => .addContext rfl rfl

theorem keeps_classifyMember (h : rec.Obey L) (id : ContextId) (steps : List String) :
    L.Keeps (c.classifyMember rec id steps) := by
  refine fun s => .context fun d hd => ?_
  cases steps with
  | nil => cases d <;> exact Law.Keeps.pure _ s
  | cons step steps =>
    refine .read (reads_orFail _ _) fun r hr => .read (reads_orFail _ _) fun e he => ?_
    have hr : d.rows? = some r := (of_run_orFail hr).1
    have he : c.schema.mapping.entity? r.entity = some e := (of_run_orFail he).1
    split
    · exact Law.Keeps.pure _ s
    · next l _ => exact ((keeps_lambdaScope l id (some id)).bind fun scope => .map (h.value scope l.body)) s
    · next name a rest hl =>
      have hm := member?_of_longestMember? hl
      have hkeeps := (ends_followAssociation hd hr he hm).keepsContexts
      exact Law.Obeys.then ⟨hkeeps, L.follow hd hr he hm⟩ fun target => h.classify target rest
    · exact Law.Keeps.fail _ s
    · split
      · exact Law.Keeps.pure _ s
      · exact Law.Keeps.fail _ s

theorem keeps_classifyValue (h : rec.Obey L) (projection sequence : ContextId) (l : Lambda) (e : Expr)
    (steps : List String) : L.Keeps (classifyValue rec projection sequence l e steps) := by
  unfold classifyValue
  split
  · exact h.classify _ _
  · cases steps with
    | nil =>
      refine .read (reads_context projection) fun d => (keeps_lambdaScope l sequence d.parent).bind fun scope => ?_
      exact .map (h.value scope e)
    | cons step steps => exact .fail _

theorem keeps_classifyProjected (h : rec.Obey L) (projection sequence : ContextId) (l : Lambda) (e : Expr)
    (steps : List String) : L.Keeps (classifyProjected rec projection sequence l e steps) := by
  induction steps generalizing e with
  | nil =>
    unfold classifyProjected
    split
    · exact .pure _
    · exact keeps_classifyValue h _ _ l _ _
  | cons name rest ih =>
    unfold classifyProjected
    split
    · exact keeps_classifyValue h _ _ l _ _
    · split
      · exact .fail _
      · next value _ =>
        refine (ih value).bind fun d => ?_
        cases d with
        | object context steps =>
          dsimp only
          split <;> exact .pure _
        | table | association | field | computed => exact .pure _

theorem keeps_classify (h : rec.Obey L) (id : ContextId) (steps : List String) :
    L.Keeps (c.classify rec id steps) := by
  refine .read (reads_context id) fun d => ?_
  cases d with
  | table | association => exact keeps_classifyMember h id steps
  | projection parent number sequence l scalar =>
    dsimp only
    split
    · exact keeps_classifyValue h id sequence l _ steps
    · exact keeps_classifyProjected h id sequence l _ steps
  | lambda | update => exact .fail _

theorem keeps_resolve (h : rec.Obey L) (scope : ContextId) (path : Path) : L.Keeps (resolve rec scope path) := by
  refine .read (reads_rootOf scope path) fun sequence => (h.classify sequence path.steps).recover ?_ ?_ ?_
  · exact fun d => .pure d
  · exact fun _ fault => .fail _
  · intro e he
    cases e with
    | memberResolution p fault => exact absurd rfl (he p fault)
    | _ => rfl

theorem keeps_pathValue (h : rec.Obey L) (scope : ContextId) (e : Expr) : L.Keeps (pathValue rec scope e) := by
  refine .read (reads_orFail _ _) fun path => (keeps_resolve h scope path).bind fun d => ?_
  cases d with
  | field | computed => exact .pure _
  | table | association | object => exact .fail _

theorem keeps_aggregateArgument (h : rec.Obey L) (scope : ContextId) (function : Aggregate)
    (selector : Option Lambda) (sequence : ContextId) :
    L.Keeps (aggregateArgument rec scope function selector sequence) := by
  cases selector with
  | some l => exact (keeps_lambdaScope l sequence (some scope)).bind fun inner => h.value inner l.body
  | none =>
    cases function with
    | count => exact .pure _
    | _ =>
      refine (h.members sequence [] .field).bind fun items => ?_
      split
      · exact .pure _
      · exact .fail _

/-- A query in a value gives rows: an update is refused before anything is made of it. -/
theorem keeps_aggregate (h : rec.Obey L) (scope : ContextId) (function : Aggregate) (source : Node)
    (selector : Option Lambda) : L.Keeps (aggregate rec scope function source selector) := by
  refine (h.sequence (some scope) source).bind (fun id s _ => ?_) fun id s d hd hu => ?_
  · refine Law.Keeps.read (reads_ensureComposable id _) (fun _ => ?_) s
    refine (keeps_aggregateArgument h scope function selector id).bind fun argument => ?_
    refine .read (reads_context id) fun d => Law.Keeps.bind ?_ fun _ => .pure _
    exact .modifyStatement fun st => ⟨rfl, .inl rfl⟩
  · exact refuses_ensureComposable hd hu

theorem keeps_value (h : rec.Obey L) (scope : ContextId) (e : Expr) : L.Keeps (c.value rec scope e) := by
  cases e with
  | literal v =>
    simp only [Compiler.value]
    split
    · exact Law.Keeps.nextParameter.bind fun _ => .pure _
    · exact .pure _
  | «external» | null => exact .pure _
  | convert inner => exact h.value scope inner
  | parameter | member => exact keeps_pathValue h scope _
  | binary op lhs rhs =>
    cases op with
    | arithmetic op => exact (h.value scope lhs).bind fun _ => (h.value scope rhs).bind fun _ => .pure _
    | and | or | comparison => exact .map (h.condition scope _)
  | not inner => exact .map (h.condition scope _)
  | call function args => exact .map (.mapM args (h.value scope))
  | construct bindings => exact .fail _
  | aggregate function source selector => exact .inContext (keeps_aggregate h scope function source selector)

theorem keeps_condition (h : rec.Obey L) (scope : ContextId) (e : Expr) : L.Keeps (condition rec scope e) := by
  unfold condition
  split
  · exact (h.condition scope _).bind fun _ => (h.condition scope _).bind fun _ => .pure _
  · exact (h.condition scope _).bind fun _ => (h.condition scope _).bind fun _ => .pure _
  · exact (h.value scope _).bind fun _ => (h.value scope _).bind fun _ => .pure _
  · exact .fail _
  · exact .map (h.condition scope _)
  · exact .pure _
  · refine (h.value scope _).bind fun v => ?_
    cases v <;> exact .pure _

/-! Rows and objects. -/

theorem keeps_ask (h : rec.Obey L) (id : ContextId) (steps : List String) (request : Request) :
    L.Keeps (ask rec id steps request) := by
  refine .read (reads_context id) fun d => ?_
  split
  · exact .fail _
  · refine (h.classify id steps).recover (fun d => .pure _) (fun _ _ => .pure _) fun e he => ?_
    cases e with
    | memberResolution p fault => exact absurd rfl (he p fault)
    | _ => rfl

theorem keeps_rowColumns (id : ContextId) (outer : Option String) (extent : Extent) :
    L.Keeps (c.rowColumns id outer extent) := by
  refine .read (reads_context id) fun d => .read (reads_orFail _ _) fun r => .read (reads_orFail _ _) fun e => ?_
  cases extent with
  | key => exact .read (reads_orDangling _) fun _ => .pure _
  | field | all => exact .bind (.pure _) fun _ => .pure _

theorem keeps_members (h : rec.Obey L) (id : ContextId) (steps : List String) (extent : Extent) :
    L.Keeps (c.members rec id steps extent) := by
  refine (h.classify id steps).bind fun d => ?_
  cases d with
  | field | computed => exact .pure _
  | table rows | association rows => exact keeps_rowColumns rows none extent
  | object owner objectSteps =>
    refine .read (reads_context owner) fun d => ?_
    split
    · refine .bind (.mapM _ fun name => ?_) fun _ => .pure _
      exact (h.members owner _ extent).bind fun _ => .pure _
    · exact keeps_rowColumns owner _ extent

theorem keeps_itemsOf (h : rec.Obey L) (id : ContextId) (steps : List String) (extent : Extent) :
    L.Keeps (itemsOf rec id steps extent) :=
  (h.members id steps extent).bind fun _ => .pure _

theorem keeps_itemsOfExpr (h : rec.Obey L) (scope : ContextId) (e : Expr) (extent : Extent) :
    L.Keeps (itemsOfExpr rec scope e extent) := by
  unfold itemsOfExpr
  split
  · exact .read (reads_rootOf scope _) fun sequence => keeps_itemsOf h sequence _ extent
  · exact (h.value scope e).bind fun _ => .pure _

theorem keeps_selectItems (h : rec.Obey L) (id : ContextId) (steps : List String) (extent : Extent) :
    L.Keeps (selectItems rec id steps extent) := by
  refine (keeps_itemsOf h id steps extent).bind fun items => ?_
  refine .read (reads_context id) fun d => .read (reads_statement _) fun st => Law.Keeps.bind ?_ fun _ => .pure _
  exact .modifyStatement fun st => ⟨rfl, .inl rfl⟩

end Compiler
end ObjectQuery
