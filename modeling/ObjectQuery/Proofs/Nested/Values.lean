import ObjectQuery.Proofs.Laws.Value
import ObjectQuery.Proofs.Nested.Derives

/-!
Paths, values, conditions, rows and setters derive their results, provided that the calls they make do. A query in a
value is compiled into a statement of its own, which selects a single value from then on.
-/
namespace ObjectQuery

open Build

def Denotation.leaves : Denotation → List SqlExpr
  | .computed value => value.leaves
  | _ => []

/-- What the members of a row or an object refer to. -/
def memberLeaves : List (Option String × SqlExpr) → List SqlExpr :=
  List.flatMap fun member => member.2.leaves

def itemLeaves : List Item → List SqlExpr :=
  List.flatMap fun item => item.value.leaves

def assignedLeaves : List SetItem → List SqlExpr :=
  List.flatMap fun item => item.value.leaves

/-- The context is that of a sequence made since: of rows, or of an update that is complete. -/
inductive BuildState.Made (b t : BuildState) (id : ContextId) : Prop
  | rows (m : StatementId) (builds : b.Builds t id m)
  | update (parent : Option ContextId) (m : StatementId) (sequence : ContextId)
      (context : t.contexts[id]? = some (.update parent m sequence)) (owns : b.Owns t m)

/-- From that state, the action compiles a sequence of its own, and leaves what was there in `b` alone. -/
def Build.MakesAt (b s : BuildState) (act : Build ContextId) : Prop :=
  Adds b s (fun id t => b.Made t id) act

def Build.Makes (act : Build ContextId) : Prop :=
  ∀ s, MakesAt s s act

variable {known : List SqlExpr}

/-- A sequence that is compiled on the way leaves what was there as it was. -/
theorem Build.Makes.derives {act : Build ContextId} (h : Makes act) : Derives known silent act :=
  fun s => ⟨(h s).1, fun _ _ _ _ => nofun⟩

/-- All calls derive what they give. -/
structure Calls.Derive (rec : Calls) : Prop where
  value : ∀ known scope e, Derives known SqlExpr.leaves (rec.value scope e)
  condition : ∀ known scope e, Derives known Predicate.leaves (rec.condition scope e)
  classify : ∀ known id steps, Derives known Denotation.leaves (rec.classify id steps)
  members : ∀ known id steps extent, Derives known memberLeaves (rec.members id steps extent)
  sequence : ∀ parent node, Makes (rec.sequence parent node)

theorem Calls.derive_exhausted : Calls.exhausted.Derive :=
  ⟨fun _ _ _ => .throw _, fun _ _ _ => .throw _, fun _ _ _ => .throw _, fun _ _ _ _ => .throw _,
    fun _ _ s => ⟨.refl s, nofun⟩⟩

namespace Compiler

variable {c : Compiler} {rec : Calls}

theorem derives_resolve (h : rec.Derive) (scope : ContextId) (path : Path) :
    Derives known Denotation.leaves (resolve rec scope path) := by
  refine .read (reads_rootOf scope path) fun sequence => (h.classify _ sequence path.steps).recover ?_ fun e => ?_
  · exact fun d => .ofSubset (List.subset_append_right ..)
  · cases e <;> exact .fail _

theorem derives_pathValue (h : rec.Derive) (scope : ContextId) (e : Expr) :
    Derives known SqlExpr.leaves (pathValue rec scope e) := by
  refine .read (reads_orFail _ _) fun path => (derives_resolve h scope path).bind fun d => ?_
  cases d with
  | field column aliasName => exact .pure fun n hn => by simp [SqlExpr.leaves] at hn
  | computed value => exact .ofSubset (List.subset_append_right ..)
  | table | association | object => exact .fail _

theorem leaves_comparison_subset (op : Comparison) (lhs rhs : SqlExpr) :
    (comparison op lhs rhs).leaves ⊆ lhs.leaves ++ rhs.leaves := by
  unfold comparison
  split
  · exact List.subset_append_left ..
  · exact List.subset_append_right ..
  · exact List.Subset.trans (Predicate.leaves_negate_subset _) (List.subset_append_left ..)
  · exact List.Subset.trans (Predicate.leaves_negate_subset _) (List.subset_append_right ..)
  · exact Predicate.leaves_equal_subset lhs rhs
  · exact List.Subset.trans (Predicate.leaves_negate_subset _) (Predicate.leaves_equal_subset lhs rhs)
  · exact List.Subset.refl _

theorem derives_condition (h : rec.Derive) (scope : ContextId) (e : Expr) :
    Derives known Predicate.leaves (condition rec scope e) := by
  -- whatever is built from two values or conditions refers to what either of them refers to
  have hboth : ∀ {xs ys : List SqlExpr} {p : Predicate}, p.leaves ⊆ xs ++ ys →
      Derives ((known ++ xs) ++ ys) Predicate.leaves (pure p) := fun hp => .ofSubset fun v hv => by
    have hv := hp hv
    simp only [List.mem_append] at hv ⊢
    exact hv.imp_left .inr
  unfold condition
  split
  · refine (h.condition _ scope _).bind fun p => (h.condition _ scope _).bind fun q => ?_
    exact hboth (Predicate.leaves_conjunction_subset p q)
  · refine (h.condition _ scope _).bind fun p => (h.condition _ scope _).bind fun q => ?_
    exact hboth (Predicate.leaves_disjunction_subset p q)
  · refine (h.value _ scope _).bind fun v => (h.value _ scope _).bind fun w => ?_
    exact hboth (leaves_comparison_subset _ v w)
  · exact .fail _
  · exact (h.condition _ scope _).map fun p => Predicate.leaves_negate_subset p
  · exact .quiet (Predicate.leaves_ofBool _)
  · refine (h.value _ scope _).bind fun v => ?_
    have hequal : Derives (known ++ v.leaves) Predicate.leaves (pure (Predicate.equal v (.literal (.bool true)))) := by
      refine .pure fun n hn => List.mem_append_right _ ?_
      simpa [SqlExpr.leaves] using Predicate.leaves_equal_subset _ _ hn
    cases v with
    | condition p => exact .ofSubset fun w hw => List.mem_append_right _ (by simpa [SqlExpr.leaves] using hw)
    | _ => exact hequal

theorem derives_ask (h : rec.Derive) (id : ContextId) (steps : List String) (request : Request) :
    Derives known silent (ask rec id steps request) := by
  refine .read (reads_context id) fun d => ?_
  split
  · exact .fail _
  · refine (h.classify _ id steps).recover (fun d => .quiet rfl) fun e => ?_
    cases e with
    | memberResolution => exact .quiet rfl
    | _ => exact .fail _

theorem derives_rowColumns (id : ContextId) (outer : Option String) (extent : Extent) :
    Derives known memberLeaves (c.rowColumns id outer extent) := by
  have hcolumns : ∀ (columns : List (String × ColumnId)) (r : Rows), Derives known memberLeaves
      (pure (columns.map fun column => (some column.1, .column column.2 (some r.aliasName)))) := by
    refine fun columns r => .pure fun n hn => ?_
    obtain ⟨member, hmember, hn⟩ := List.mem_flatMap.mp hn
    obtain ⟨column, -, rfl⟩ := List.mem_map.mp hmember
    simp [SqlExpr.leaves] at hn
  refine .read (reads_context id) fun d => .read (reads_orFail _ _) fun r => .read (reads_orFail _ _) fun e => ?_
  cases extent with
  | key => exact .read (reads_orDangling _) fun _ => .read (reads_pure _) fun _ => hcolumns _ r
  | field | all => exact .read (reads_pure _) fun _ => hcolumns _ r

theorem derives_members (h : rec.Derive) (id : ContextId) (steps : List String) (extent : Extent) :
    Derives known memberLeaves (c.members rec id steps extent) := by
  refine (h.classify _ id steps).bind fun d => ?_
  cases d with
  | field => exact .pure fun n hn => by simp [memberLeaves, SqlExpr.leaves] at hn
  | computed value =>
    refine .ofSubset fun v hv => List.mem_append_right _ ?_
    simpa [memberLeaves, Denotation.leaves] using hv
  | table rows | association rows => exact derives_rowColumns rows none extent
  | object owner objectSteps =>
    refine .read (reads_context owner) fun d => ?_
    split
    · refine Derives.gather _ fun name _ known _ => ?_
      refine (h.members _ owner _ extent).bind fun items => .ofSubset fun v hv => ?_
      exact List.mem_append_right _ (by simpa [memberLeaves, List.flatMap_map] using hv)
    · exact derives_rowColumns owner _ extent

theorem derives_itemsOf (h : rec.Derive) (id : ContextId) (steps : List String) (extent : Extent) :
    Derives known itemLeaves (itemsOf rec id steps extent) := by
  refine (h.members _ id steps extent).bind fun converted => .ofSubset fun v hv => ?_
  exact List.mem_append_right _ (by simpa [itemLeaves, memberLeaves, List.flatMap_map] using hv)

theorem derives_itemsOfExpr (h : rec.Derive) (scope : ContextId) (e : Expr) (extent : Extent) :
    Derives known itemLeaves (itemsOfExpr rec scope e extent) := by
  unfold itemsOfExpr
  split
  · exact .read (reads_rootOf scope _) fun sequence => derives_itemsOf h sequence _ extent
  · refine (h.value _ scope e).bind fun v => .ofSubset fun w hw => ?_
    exact List.mem_append_right _ (by simpa [itemLeaves] using hw)

theorem derives_settableColumn (h : rec.Derive) (id : ContextId) (steps : List String) (table : Option TableId) :
    Derives known silent (settableColumn rec id steps table) := by
  refine (h.classify _ id steps).recover (fun d => ?_) fun e => ?_
  · cases d with
    | field column aliasName =>
      dsimp only
      split
      · exact .fail _
      · exact .quiet rfl
    | table | association | computed | object => exact .fail _
  · cases e <;> exact .fail _

theorem derives_entered? (h : rec.Derive) (into : ContextId) (steps : List String) (value : Expr) :
    Derives known silent (entered? rec into steps value) := by
  unfold entered?
  split
  · exact .quiet rfl
  · exact (derives_ask h into steps .field).bind fun _ => .quiet rfl

/-- The items of one binding: those of the construction that is entered, or one of its own. -/
def flattenBinding (c : Compiler) (rec : Calls) (into : ContextId) (table : Option TableId) (scope : ContextId)
    (depth : Nat) (outer : List String) (binding : String × Expr) : Build (List SetItem) := do
  let steps := outer ++ [binding.1]
  match ← entered? rec into steps binding.2 with
  | some nested => flatten c rec into table scope depth steps nested
  | none =>
    let column ← settableColumn rec into steps table
    let value ← rec.value scope binding.2.strip
    pure [⟨column, value⟩]

theorem flatten_succ (into : ContextId) (table : Option TableId) (scope : ContextId) (depth : Nat)
    (outer : List String) (bindings : List (String × Expr)) :
    flatten c rec into table scope (depth + 1) outer bindings = (do
      let groups ← bindings.mapM (flattenBinding c rec into table scope depth outer)
      pure groups.flatten) :=
  rfl

theorem derives_flattenBinding (h : rec.Derive) {into : ContextId} {table : Option TableId} {scope : ContextId}
    {depth : Nat} {outer : List String} {binding : String × Expr}
    (hnested : ∀ known nested, Derives known assignedLeaves
      (flatten c rec into table scope depth (outer ++ [binding.1]) nested)) :
    Derives known assignedLeaves (flattenBinding c rec into table scope depth outer binding) := by
  refine (derives_entered? h into _ binding.2).bind fun nested => ?_
  cases nested with
  | some nested => exact hnested _ nested
  | none =>
    refine (derives_settableColumn h into _ table).bind fun column => ?_
    refine (h.value _ scope _).bind fun v => .ofSubset fun w hw => ?_
    exact List.mem_append_right _ (by simpa [assignedLeaves] using hw)

theorem derives_flatten (h : rec.Derive) (into : ContextId) (table : Option TableId) (scope : ContextId)
    (depth : Nat) (outer : List String) (bindings : List (String × Expr)) :
    Derives known assignedLeaves (flatten c rec into table scope depth outer bindings) := by
  induction depth generalizing known outer bindings with
  | zero => exact .fail _
  | succ depth ih =>
    rw [flatten_succ]
    exact Derives.gather _ fun binding _ known _ => derives_flattenBinding h fun _ nested => ih _ nested

variable [Observer]

theorem derives_setterItems (h : rec.Derive) (setter : Lambda) (into : ContextId) (table : Option TableId)
    (sequence : ContextId) (parent : Option ContextId) :
    Derives known assignedLeaves (c.setterItems rec setter into table sequence parent) := by
  refine (Derives.lambdaScope setter sequence parent).bind fun scope => ?_
  split
  · exact derives_flatten h into table scope _ [] _
  · refine (derives_itemsOfExpr h scope _ .all).bind fun items => ?_
    refine Derives.mapM items fun item hitem known hsub => ?_
    refine .read (reads_orFail _ _) fun member => (derives_settableColumn h into _ table).bind fun column => ?_
    refine .ofSubset fun v hv => List.mem_append_left _ (hsub (List.mem_append_right _ ?_))
    exact List.mem_flatMap_of_mem hitem hv

theorem derives_classifyMember (h : rec.Derive) (id : ContextId) (steps : List String) :
    Derives known Denotation.leaves (c.classifyMember rec id steps) := by
  refine fun s => .read (reads_context id) fun d hd => ?_
  have hd : s.contexts[id]? = some d := (of_run_context hd).1
  cases steps with
  | nil => cases d <;> exact Derives.quiet rfl s
  | cons step steps =>
    refine .read (reads_orFail _ _) fun r hr => .read (reads_orFail _ _) fun e he => ?_
    have hr : d.rows? = some r := (of_run_orFail hr).1
    have he : c.schema.mapping.entity? r.entity = some e := (of_run_orFail he).1
    split
    · exact Derives.quiet rfl s
    · next l _ =>
      refine Derives.bind (Derives.lambdaScope l id (some id)) (fun scope => ?_) s
      exact (h.value _ scope l.body).map fun _ => List.Subset.refl _
    · next name a rest hl =>
      have hext := (ends_followAssociation hd hr he (member?_of_longestMember? hl)).extends
      have hfollow : DerivesAt s known silent (c.followAssociation id name a) := ⟨hext, fun _ _ _ _ => nofun⟩
      exact hfollow.bind fun target t _ => h.classify _ target rest t
    · exact Derives.fail _ s
    · split
      · exact Derives.quiet rfl s
      · exact Derives.fail _ s

theorem derives_classifyValue (h : rec.Derive) (projection sequence : ContextId) (l : Lambda) (e : Expr)
    (steps : List String) : Derives known Denotation.leaves (classifyValue rec projection sequence l e steps) := by
  unfold classifyValue
  split
  · exact h.classify _ _ _
  · cases steps with
    | nil =>
      refine .read (reads_context projection) fun d => (Derives.lambdaScope l sequence d.parent).bind fun scope => ?_
      exact (h.value _ scope e).map fun _ => List.Subset.refl _
    | cons step steps => exact .fail _

theorem derives_classifyProjected (h : rec.Derive) (projection sequence : ContextId) (l : Lambda) (e : Expr)
    (steps : List String) : Derives known Denotation.leaves (classifyProjected rec projection sequence l e steps) := by
  induction steps generalizing e with
  | nil =>
    unfold classifyProjected
    split
    · exact .quiet rfl
    · exact derives_classifyValue h _ _ l _ _
  | cons name rest ih =>
    unfold classifyProjected
    split
    · exact derives_classifyValue h _ _ l _ _
    · split
      · exact .fail _
      · next value _ =>
        refine (ih value).bind fun d => ?_
        cases d with
        | object context steps =>
          dsimp only
          split <;> exact .quiet rfl
        | table | association | field | computed => exact .ofSubset (List.subset_append_right ..)

theorem derives_classify (h : rec.Derive) (id : ContextId) (steps : List String) :
    Derives known Denotation.leaves (c.classify rec id steps) := by
  refine .read (reads_context id) fun d => ?_
  cases d with
  | table | association => exact derives_classifyMember h id steps
  | projection parent number sequence l scalar =>
    dsimp only
    split
    · exact derives_classifyValue h id sequence l _ steps
    · exact derives_classifyProjected h id sequence l _ steps
  | lambda | update => exact .fail _

theorem derives_aggregateArgument (h : rec.Derive) (scope : ContextId) (function : Aggregate)
    (selector : Option Lambda) (sequence : ContextId) :
    Derives known SqlExpr.leaves (aggregateArgument rec scope function selector sequence) := by
  cases selector with
  | some l =>
    refine (Derives.lambdaScope l sequence (some scope)).bind fun inner => ?_
    exact (h.value known inner l.body).ofKnown fun n hn => List.mem_append_left _ hn
  | none =>
    cases function with
    | count => exact .pure fun n hn => by simp [SqlExpr.leaves] at hn
    | _ =>
      refine (h.members _ sequence [] .field).bind fun items => ?_
      split
      · exact .ofSubset fun v hv => List.mem_append_right _ (by simpa [memberLeaves] using hv)
      · exact .fail _

/-- The statement of one's own selects a single value in the end, and may be referred to. -/
theorem adds_subquery {b s : BuildState} {id : ContextId} {m : StatementId} (hb : b.Builds s id m) {name : String}
    {argument : SqlExpr} (ha : s.Above m argument.leaves) :
    Adds b s (fun (v : SqlExpr) t => b.Derived t [] v.leaves) (do
      let statement := (← context id).statement
      modifyStatement statement fun m => { m with select := [.function name [argument]] }
      pure (SqlExpr.subquery statement)) := by
  obtain ⟨d, hd, hm, -⟩ := hb.context
  obtain ⟨st, hst, hk⟩ := hb.selects
  subst hm
  have hfeeds : s.Feeds d.statement fun m => { m with select := [.function name [argument]] } := by
    intro st _ n hn
    simp only [Statement.leaves, List.flatMap_cons, List.flatMap_nil, List.append_nil, SqlExpr.leaves,
      SqlExpr.leavesAll, List.mem_append] at hn ⊢
    obtain ((hn | hn) | hn) | hn := hn
    · exact .inr (ha n hn)
    all_goals simp [hn]
  have hext := hb.grown.alter hb.owns hfeeds
  rw [Adds, run_bind, run_context_of hd]
  dsimp only
  rw [run_bind, run_modifyStatement, hst]
  by_cases hstop : Observer.stops (s.alter d.statement fun m => { m with select := [.function name [argument]] })
  · simp only [hstop, if_true]
    exact ⟨hext, by rintro _ _ ⟨⟩⟩
  · simp only [hstop]
    refine ⟨hext, fun v t hr n hn => .inr ?_⟩
    cases hr
    rw [SqlExpr.leaves, List.mem_singleton, SqlExpr.subquery.injEq] at hn
    subst hn
    refine ⟨hb.owns.later, { st with select := [.function name [argument]] }, ?_, hk, name, argument, rfl⟩
    rw [BuildState.getElem?_alter, if_pos rfl, hst, Option.map_some]

/-- A query in a value becomes a statement that nothing but this value refers to. -/
theorem derives_aggregate (h : rec.Derive) (scope : ContextId) (function : Aggregate) (source : Node)
    (selector : Option Lambda) : Derives known SqlExpr.leaves (aggregate rec scope function source selector) := by
  suffices hnone : Derives [] SqlExpr.leaves (aggregate rec scope function source selector) from
    hnone.ofKnown (by rintro _ ⟨⟩)
  intro s
  refine Adds.bind (h.sequence (some scope) source s) fun id t _ hst hmade => ?_
  cases hmade with
  | rows m hb =>
    have hargument : WorksOn s id m [] SqlExpr.leaves (do
        ensureComposable id function.name
        aggregateArgument rec scope function selector id) :=
      .read (reads_ensureComposable id _) fun _ => (derives_aggregateArgument h scope function selector id).worksOn
    rw [← bind_assoc]
    exact (hargument t hb (by rintro _ ⟨⟩)).bind fun argument u _ _ hu => adds_subquery hu.1 hu.2
  | update parent m sequence hd _ =>
    obtain ⟨stop, -, hrefuses⟩ := refuses_ensureComposable hd rfl
    exact .stops hst hrefuses

theorem derives_value (h : rec.Derive) (scope : ContextId) (e : Expr) :
    Derives known SqlExpr.leaves (c.value rec scope e) := by
  have hcondition : ∀ e, Derives known SqlExpr.leaves (.condition <$> rec.condition scope e) := fun e =>
    (h.condition _ scope e).map fun p v hv => by simpa [SqlExpr.leaves] using hv
  cases e with
  | literal v =>
    simp only [Compiler.value]
    split
    · exact Derives.nextParameter.bind fun _ => .pure fun n hn => by simp [SqlExpr.leaves] at hn
    · exact .pure fun n hn => by simp [SqlExpr.leaves] at hn
  | «external» | null => exact .pure fun n hn => by simp [SqlExpr.leaves] at hn
  | convert inner => exact h.value _ scope inner
  | parameter | member => exact derives_pathValue h scope _
  | binary op lhs rhs =>
    cases op with
    | arithmetic op =>
      refine (h.value _ scope lhs).bind fun v => (h.value _ scope rhs).bind fun w => .ofSubset fun x hx => ?_
      simp only [SqlExpr.leaves, List.mem_append] at hx ⊢
      exact hx.imp_left .inr
    | and | or | comparison => exact hcondition _
  | not inner => exact hcondition _
  | call function args =>
    refine (Derives.mapM args fun e _ known _ => h.value known scope e).map fun vs v hv => ?_
    rwa [SqlExpr.leaves, SqlExpr.leavesAll_eq] at hv
  | construct bindings => exact .fail _
  | aggregate function source selector => exact .inContext (derives_aggregate h scope function source selector)

end Compiler
end ObjectQuery
