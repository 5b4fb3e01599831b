import ObjectQuery.Compile.Operator
import ObjectQuery.Proofs.Twins.Rules

/-!
Paths, values, conditions, rows and setters are compiled alike as seen from paired scopes, provided that the calls they
make are.
-/
namespace ObjectQuery

open Build

/-- The same columns and values, paired rows, and objects of twins. -/
inductive Denotation.Alike (w : Pairing) : Denotation → Denotation → Prop
  | table {i j} (rows : w.same i j) : Alike w (.table i) (.table j)
  | association {i j} (rows : w.same i j) : Alike w (.association i) (.association j)
  | field (k : ColumnId) (a : String) : Alike w (.field k a) (.field k a)
  | computed (v : SqlExpr) : Alike w (.computed v) (.computed v)
  | object {i j} (owner : w.twin i j) (steps : List String) : Alike w (.object i steps) (.object j steps)

/-- Calls from paired contexts end alike, and sequences are compiled to paired ones. -/
structure Calls.Twins (side : Side) (free : StatementId → Prop) (rec rec' : Calls) : Prop where
  value : ∀ {w : Pairing} {i j} (e), w.same i j → Build.Twins side free w Equal (rec.value i e) (rec'.value j e)
  condition : ∀ {w : Pairing} {i j} (e), w.same i j →
    Build.Twins side free w Equal (rec.condition i e) (rec'.condition j e)
  classify : ∀ {w : Pairing} {i j} (steps), w.same i j →
    Build.Twins side free w Denotation.Alike (rec.classify i steps) (rec'.classify j steps)
  members : ∀ {w : Pairing} {i j} (steps extent), w.same i j →
    Build.Twins side free w Equal (rec.members i steps extent) (rec'.members j steps extent)
  sequence : ∀ {w : Pairing} {p q} (node), Option.Rel w.same p q →
    Build.Twins side free w Pairing.own (rec.sequence p node) (rec'.sequence q node)

theorem Calls.twins_exhausted_left {free : StatementId → Prop} (rec' : Calls) :
    Calls.exhausted.Twins .left free rec' :=
  ⟨fun _ _ _ _ _ => .left rfl, fun _ _ _ _ _ => .left rfl, fun _ _ _ _ _ => .left rfl, fun _ _ _ _ _ _ => .left rfl,
    fun _ _ _ _ _ => .left rfl⟩

theorem Calls.twins_exhausted_right {free : StatementId → Prop} (rec : Calls) :
    rec.Twins .right free Calls.exhausted :=
  ⟨fun _ _ _ _ _ => .right rfl, fun _ _ _ _ _ => .right rfl, fun _ _ _ _ _ => .right rfl,
    fun _ _ _ _ _ _ => .right rfl, fun _ _ _ _ _ => .right rfl⟩

namespace Compiler

variable {c : Compiler} {side : Side} {free : StatementId → Prop} {rec rec' : Calls} {w : Pairing} {i j k l : ContextId}

/-! What paths denote. -/

theorem twins_entity (name : String) : Twins side free w Equal (c.entity name) (c.entity name) :=
  .orFail _ _

/-- Joins the table of the association's target to rows under the alias, and notes that it was followed. -/
def joinAssociation (c : Compiler) (owner : ContextId) (m : StatementId) (name : String) (a : Association)
    (aliasName : Option String) : Build ContextId := do
  let target ← c.entity a.target
  let targetAlias ← nextAlias
  let on := Predicate.equal (.column a.own aliasName) (.column a.foreign targetAlias)
  modifyStatement m fun st =>
    { st with sources :=
        st.sources.addWeakJoin ⟨target.table, targetAlias⟩ (if a.optional then .left else .inner) on }
  let rows ← addContext (.association owner m name ⟨target.name, target.table, targetAlias, []⟩)
  modifyContext owner (Context.follow name rows)
  pure rows

theorem twins_joinAssociation (hij : w.same i j) (m : StatementId) (name : String) (a : Association)
    (aliasName : Option String) :
    Twins side free w Pairing.same (c.joinAssociation i m name a aliasName)
      (c.joinAssociation j m name a aliasName) := by
  refine (twins_entity a.target).then fun v hv target => Twins.nextAlias.then fun v' hv' targetAlias => ?_
  refine (Twins.modifyStatement fun st u => ⟨u, rfl⟩).then fun x hx _ => ?_
  have hij := hx.same (hv'.same (hv.same hij))
  refine (Twins.addContext (.association hij ⟨.nil⟩)).bind fun y hy rows rows' hrows => ?_
  exact (Twins.follow (hy.same hij) hrows name).then fun z hz _ => .pure (hz.same hrows)

/-- The table is joined in for both, or for neither. -/
theorem twins_followAssociation (hij : w.same i j) (name : String) (a : Association) :
    Twins side free w Pairing.same (c.followAssociation i name a) (c.followAssociation j name a) := by
  refine .context hij fun d e hde => ?_
  rw [hde.statement]
  have hrows := hde.rows?
  generalize d.rows? = r at hrows
  generalize e.rows? = r' at hrows
  cases hrows with
  | none => exact twins_joinAssociation hij _ name a none
  | some hrr =>
    obtain ⟨hfollowed⟩ := hrr
    have hlookup := Entry.lookup hfollowed name
    simp only [Option.elim_some, Option.map_some]
    generalize List.lookup name _ = x at hlookup
    generalize List.lookup name _ = y at hlookup
    cases hlookup with
    | none => exact twins_joinAssociation hij _ name a _
    | some hxy => exact .pure hxy

variable (h : rec.Twins side free rec')

include h

theorem twins_classifyMember (hij : w.same i j) (steps : List String) :
    Twins side free w Denotation.Alike (c.classifyMember rec i steps) (c.classifyMember rec' j steps) := by
  refine .contextTwin hij fun d e hde htwin => ?_
  cases steps with
  | nil =>
    cases hde with
    | association => exact .pure (.association hij)
    | _ => exact .pure (.table hij)
  | cons step steps =>
    have hkind := hde.kindName
    have hrows := hde.rows?
    have hscope : ∀ r, d.rows? = some r → d.isScope = false := fun r hr => by cases d <;> first | rfl | cases hr
    dsimp only
    rw [hkind]
    generalize d.rows? = r at hrows hscope
    generalize e.rows? = r' at hrows
    cases hrows with
    | none => exact .fail _
    | some hrr =>
      have htwin := htwin (hscope _ rfl)
      obtain ⟨-⟩ := hrr
      refine (twins_entity _).then fun v hv entity => ?_
      split
      · exact .pure (.field _ _)
      · next l _ =>
        have hself := hv.same hij
        refine (Twins.lambdaScope l hself (.some hself)).bind fun x _ scope scope' hs => ?_
        exact (h.value l.body hs).map fun _ v v' hvv => by
          obtain rfl : v = v' := hvv
          exact .computed v
      · exact (twins_followAssociation (hv.same hij) _ _).bind fun _ _ _ _ ht => h.classify _ ht
      · exact .fail _
      · split
        · exact .pure (.object (hv.twin htwin) _)
        · exact .fail _

theorem twins_classifyValue (hij : w.same i j) (hkl : w.same k l) (f : Lambda) (e : Expr) (steps : List String) :
    Twins side free w Denotation.Alike (classifyValue rec i k f e steps) (classifyValue rec' j l f e steps) := by
  unfold classifyValue
  split
  · exact h.classify _ hkl
  · cases steps with
    | nil =>
      refine .context hij fun d d' hdd => (Twins.lambdaScope f hkl hdd.parent).bind fun _ _ scope scope' hs => ?_
      exact (h.value e hs).map fun _ v v' hvv => by
        obtain rfl : v = v' := hvv
        exact .computed v
    | cons => exact .fail _

theorem twins_classifyProjected (hij : w.twin i j) (hkl : w.same k l) (f : Lambda) (e : Expr) (steps : List String) :
    Twins side free w Denotation.Alike (classifyProjected rec i k f e steps)
      (classifyProjected rec' j l f e steps) := by
  induction steps generalizing e with
  | nil =>
    unfold classifyProjected
    split
    · exact .pure (.object hij [])
    · exact twins_classifyValue h (w.same_of_twin hij) hkl f _ _
  | cons name rest ih =>
    unfold classifyProjected
    split
    · exact twins_classifyValue h (w.same_of_twin hij) hkl f _ _
    · split
      · exact .fail _
      · next value _ =>
        refine (ih value).bind fun v hv x y hxy => ?_
        cases hxy with
        | @object a b owner steps =>
          -- an object found on the one side is one of the projection there, and so it is on the other
          have hsame := v.unique owner (hv.same (w.same_of_twin hij))
          dsimp only
          by_cases ha : a = i
          · rw [if_pos ha, if_pos (hsame.mp ha)]
            exact .pure (.object (hv.twin hij) _)
          · rw [if_neg ha, if_neg (mt hsame.mpr ha)]
            exact .pure (.object owner _)
        | table rows => exact .pure (.table rows)
        | association rows => exact .pure (.association rows)
        | field => exact .pure (.field _ _)
        | computed => exact .pure (.computed _)

theorem twins_classify (hij : w.same i j) (steps : List String) :
    Twins side free w Denotation.Alike (c.classify rec i steps) (c.classify rec' j steps) := by
  refine .contextTwin hij fun d e hde htwin => ?_
  cases hde with
  | table | association => exact twins_classifyMember h hij steps
  | @projection _ _ _ _ _ l scalar _ hsequence =>
    cases scalar with
    | true => exact twins_classifyValue h hij hsequence l _ steps
    | false => exact twins_classifyProjected h (htwin rfl) hsequence l _ steps
  | lambda | update => exact .fail _

theorem twins_resolve (hij : w.same i j) (path : Path) :
    Twins side free w Denotation.Alike (resolve rec i path) (resolve rec' j path) := by
  refine (Twins.rootOf hij path).bind fun v _ sequence sequence' hs => ?_
  refine (h.classify path.steps hs).recover (fun _ _ _ _ hd => .pure hd) fun _ _ e => ?_
  cases e <;> exact .fail _

/-! Values and conditions. -/

theorem twins_pathValue (hij : w.same i j) (e : Expr) :
    Twins side free w Equal (pathValue rec i e) (pathValue rec' j e) := by
  refine (Twins.orFail _ _).then fun v hv path => (twins_resolve h (hv.same hij) path).bind fun _ _ d d' hd => ?_
  cases hd with
  | field | computed => exact .pure rfl
  | table | association | object => exact .fail _

theorem twins_condition (hij : w.same i j) (e : Expr) :
    Twins side free w Equal (condition rec i e) (condition rec' j e) := by
  unfold condition
  split
  · refine (h.condition _ hij).then fun v hv p => (h.condition _ (hv.same hij)).then fun _ _ q => .pure rfl
  · refine (h.condition _ hij).then fun v hv p => (h.condition _ (hv.same hij)).then fun _ _ q => .pure rfl
  · refine (h.value _ hij).then fun v hv p => (h.value _ (hv.same hij)).then fun _ _ q => .pure rfl
  · exact .fail _
  · exact (h.condition _ hij).map fun _ _ _ => congrArg Predicate.negate
  · exact .pure rfl
  · refine (h.value _ hij).then fun _ _ v => ?_
    cases v <;> exact .pure rfl

theorem twins_aggregateArgument (hij : w.same i j) (hkl : w.same k l) (function : Aggregate)
    (selector : Option Lambda) :
    Twins side free w Equal (aggregateArgument rec i function selector k)
      (aggregateArgument rec' j function selector l) := by
  cases selector with
  | some f => exact (Twins.lambdaScope f hkl (.some hij)).bind fun _ _ _ _ hs => h.value f.body hs
  | none =>
    cases function with
    | count => exact .pure rfl
    | _ =>
      refine (h.members [] .field hkl).then fun _ _ items => ?_
      split
      · exact .pure rfl
      · exact .fail _

theorem twins_aggregate (hij : w.same i j) (function : Aggregate) (source : Node) (selector : Option Lambda) :
    Twins side free w Equal (aggregate rec i function source selector)
      (aggregate rec' j function source selector) := by
  refine (h.sequence source (.some hij)).bind fun v hv sequence sequence' hs => ?_
  have hs := v.same_of_own hs
  refine (Twins.ensureComposable hs _).then fun v' hv' _ => ?_
  have hs := hv'.same hs
  refine (twins_aggregateArgument h (hv'.same (hv.same hij)) hs function selector).then fun x hx argument => ?_
  refine .context (hx.same hs) fun d e hde => ?_
  rw [hde.statement]
  exact (Twins.modifyStatement fun st u => ⟨u, rfl⟩).then fun _ _ _ => .pure rfl

theorem twins_value (hij : w.same i j) (e : Expr) : Twins side free w Equal (c.value rec i e) (c.value rec' j e) := by
  have hcondition : ∀ e, Twins side free w Equal (SqlExpr.condition <$> rec.condition i e)
      (SqlExpr.condition <$> rec'.condition j e) := fun e =>
    (h.condition e hij).map fun _ _ _ => congrArg SqlExpr.condition
  cases e with
  | literal v =>
    simp only [Compiler.value]
    split
    · exact Twins.nextParameter.then fun _ _ _ => .pure rfl
    · exact .pure rfl
  | «external» | null => exact .pure rfl
  | convert inner => exact h.value inner hij
  | parameter | member => exact twins_pathValue h hij _
  | binary op lhs rhs =>
    cases op with
    | arithmetic op =>
      exact (h.value lhs hij).then fun v hv _ => (h.value rhs (hv.same hij)).then fun _ _ _ => .pure rfl
    | and | or | comparison => exact hcondition _
  | not inner => exact hcondition _
  | call function args =>
    have hargs := Twins.mapM args fun v hv e _ => h.value e (hv.same hij)
    exact hargs.map fun _ _ _ => congrArg (SqlExpr.function function)
  | construct bindings => exact .fail _
  | aggregate function source selector => exact .inContext (twins_aggregate h hij function source selector)

end Compiler
end ObjectQuery
