import ObjectQuery.Compile.Query
import ObjectQuery.Proofs.Fuel.Rules

/-!
A compilation with more fuel comes to what it came to with less, the contexts included: every function of the compiler
approximates itself with better calls.
-/
namespace ObjectQuery.Compiler

open Build

section Steps

variable [Observer] {c : Compiler} {rec rec' : Calls} (h : rec.Approximate rec')

include h

/-! Member paths. -/

theorem approximates_classifyMember (id : ContextId) (steps : List String) :
    (c.classifyMember rec id steps).Approximates (c.classifyMember rec' id steps) := by
  refine .next _ fun d => ?_
  cases steps with
  | nil => exact .refl _
  | cons step steps =>
    refine .next _ fun r => .next _ fun e => ?_
    cases longestMember? e (step :: steps) with
    | none => exact .refl _
    | some found =>
      obtain ⟨name, member, rest⟩ := found
      cases member with
      | column => cases rest <;> exact .refl _
      | computed l =>
        cases rest with
        | nil => exact .next _ fun scope => .map _ (h.value scope l.body)
        | cons => exact .refl _
      | association a => exact .next _ fun target => h.classify target rest

theorem approximates_classifyValue (projection sequence : ContextId) (l : Lambda) (e : Expr) (steps : List String) :
    (classifyValue rec projection sequence l e steps).Approximates
      (classifyValue rec' projection sequence l e steps) := by
  unfold classifyValue
  cases (Path.ofExpr? e).filter fun path => l.row? = some path.root with
  | some path => exact h.classify sequence _
  | none =>
    cases steps with
    | nil => exact .next _ fun d => .next _ fun scope => .map _ (h.value scope e)
    | cons => exact .refl _

theorem approximates_classifyProjected (projection sequence : ContextId) (l : Lambda) (e : Expr)
    (steps : List String) :
    (classifyProjected rec projection sequence l e steps).Approximates
      (classifyProjected rec' projection sequence l e steps) := by
  induction steps generalizing e with
  | nil =>
    unfold classifyProjected
    cases e.bindings? with
    | none => exact approximates_classifyValue h projection sequence l e.strip []
    | some => exact .refl _
  | cons name rest ih =>
    unfold classifyProjected
    cases e.bindings? with
    | none => exact approximates_classifyValue h projection sequence l e.strip (name :: rest)
    | some bindings =>
      dsimp only
      cases bindings.lookup name with
      | none => exact .refl _
      | some value => exact (ih value).first _

theorem approximates_classify (id : ContextId) (steps : List String) :
    (c.classify rec id steps).Approximates (c.classify rec' id steps) := by
  refine .next _ fun d => ?_
  cases d with
  | table | association => exact approximates_classifyMember h id steps
  | projection parent number sequence l scalar =>
    cases scalar with
    | true => exact approximates_classifyValue h id sequence l _ steps
    | false => exact approximates_classifyProjected h id sequence l _ steps
  | lambda | update => exact .refl _

omit [Observer] in
theorem approximates_resolve (scope : ContextId) (path : Path) :
    (resolve rec scope path).Approximates (resolve rec' scope path) :=
  .next _ fun sequence => (h.classify sequence path.steps).attempt.first _

/-! Values and conditions. -/

omit [Observer] in
theorem approximates_pathValue (scope : ContextId) (e : Expr) :
    (pathValue rec scope e).Approximates (pathValue rec' scope e) :=
  .next _ fun path => (approximates_resolve h scope path).first _

theorem approximates_aggregateArgument (scope : ContextId) (function : Aggregate) (selector : Option Lambda)
    (sequence : ContextId) :
    (aggregateArgument rec scope function selector sequence).Approximates
      (aggregateArgument rec' scope function selector sequence) := by
  cases selector with
  | some l => exact .next _ fun inner => h.value inner l.body
  | none =>
    cases function with
    | count => exact .refl _
    | _ => exact (h.members sequence [] .field).first _

theorem approximates_aggregate (scope : ContextId) (function : Aggregate) (source : Node) (selector : Option Lambda) :
    (aggregate rec scope function source selector).Approximates (aggregate rec' scope function source selector) :=
  (h.sequence (some scope) source).bind fun sequence => .next _ fun _ =>
    (approximates_aggregateArgument h scope function selector sequence).first _

theorem approximates_value (scope : ContextId) (e : Expr) :
    (c.value rec scope e).Approximates (c.value rec' scope e) := by
  cases e with
  | literal | «external» | null | construct => exact .refl _
  | convert inner => exact h.value scope inner
  | parameter | member => exact approximates_pathValue h scope _
  | binary op lhs rhs =>
    cases op with
    | arithmetic op => exact (h.value scope lhs).bind fun _ => (h.value scope rhs).first _
    | and | or | comparison => exact .map _ (h.condition scope _)
  | not inner => exact .map _ (h.condition scope _)
  | call function args => exact .map _ (.mapM args (h.value scope))
  | aggregate function source selector =>
    exact .inContext _ (approximates_aggregate h scope function source selector)

omit [Observer] in
theorem approximates_condition (scope : ContextId) (e : Expr) :
    (condition rec scope e).Approximates (condition rec' scope e) := by
  unfold condition
  cases e.strip with
  | binary op lhs rhs =>
    cases op with
    | and | or => exact (h.condition scope lhs).bind fun _ => (h.condition scope rhs).first _
    | comparison => exact (h.value scope lhs).bind fun _ => (h.value scope rhs).first _
    | arithmetic => exact .refl _
  | not inner => exact .map _ (h.condition scope inner)
  | literal v =>
    cases v with
    | bool => exact .refl _
    | _ => exact (h.value scope _).first _
  | _ => exact (h.value scope _).first _

/-! Rows and objects. -/

omit [Observer] in
theorem approximates_ask (id : ContextId) (steps : List String) (request : Request) :
    (ask rec id steps request).Approximates (ask rec' id steps request) := by
  refine .next _ fun d => ?_
  cases d.isUpdate with
  | true => exact .refl _
  | false => exact (h.classify id steps).attempt.first _

omit [Observer] in
theorem approximates_members (id : ContextId) (steps : List String) (extent : Extent) :
    (c.members rec id steps extent).Approximates (c.members rec' id steps extent) := by
  refine (h.classify id steps).bind fun d => ?_
  cases d with
  | field | computed | table | association => exact .refl _
  | object owner objectSteps =>
    refine .next _ fun d => ?_
    cases d with
    | projection => exact (Approximates.mapM _ fun name => (h.members owner _ extent).first _).first _
    | _ => exact .refl _

omit [Observer] in
theorem approximates_itemsOf (id : ContextId) (steps : List String) (extent : Extent) :
    (itemsOf rec id steps extent).Approximates (itemsOf rec' id steps extent) :=
  (h.members id steps extent).first _

omit [Observer] in
theorem approximates_itemsOfExpr (scope : ContextId) (e : Expr) (extent : Extent) :
    (itemsOfExpr rec scope e extent).Approximates (itemsOfExpr rec' scope e extent) := by
  unfold itemsOfExpr
  cases Path.ofExpr? e with
  | some path => exact .next _ fun sequence => approximates_itemsOf h sequence path.steps extent
  | none => exact (h.value scope e).first _

theorem approximates_selectItems (id : ContextId) (steps : List String) (extent : Extent) :
    (selectItems rec id steps extent).Approximates (selectItems rec' id steps extent) :=
  (approximates_itemsOf h id steps extent).first _

/-! Assignments. -/

omit [Observer] in
theorem approximates_settableColumn (id : ContextId) (steps : List String) (table : Option TableId) :
    (settableColumn rec id steps table).Approximates (settableColumn rec' id steps table) :=
  (h.classify id steps).attempt.first _

omit [Observer] in
theorem approximates_entered? (into : ContextId) (steps : List String) (value : Expr) :
    (entered? rec into steps value).Approximates (entered? rec' into steps value) := by
  unfold entered?
  cases value.bindings? with
  | none => exact .refl _
  | some nested => exact (approximates_ask h into steps .field).first _

omit [Observer] in
theorem approximates_flatten (into : ContextId) (table : Option TableId) (scope : ContextId) (depth : Nat)
    (outer : List String) (bindings : List (String × Expr)) :
    (c.flatten rec into table scope depth outer bindings).Approximates
      (c.flatten rec' into table scope depth outer bindings) := by
  induction depth generalizing outer bindings with
  | zero => exact .refl _
  | succ depth ih =>
    refine .first (.mapM bindings fun (name, value) => ?_) _
    refine (approximates_entered? h into _ value).bind fun nested => ?_
    cases nested with
    | some nested => exact ih _ nested
    | none =>
      exact (approximates_settableColumn h into _ table).bind fun column => (h.value scope value.strip).first _

theorem approximates_setterItems (setter : Lambda) (into : ContextId) (table : Option TableId)
    (sequence : ContextId) (parent : Option ContextId) :
    (c.setterItems rec setter into table sequence parent).Approximates
      (c.setterItems rec' setter into table sequence parent) := by
  refine .next _ fun scope => ?_
  cases setter.body.bindings? with
  | some bindings => exact approximates_flatten h into table scope _ [] bindings
  | none =>
    refine (approximates_itemsOfExpr h scope setter.body.strip .all).bind fun items => .mapM items fun item => ?_
    exact .next _ fun member => (approximates_settableColumn h into (Dotted.split member) table).first _

/-! Operators. -/

theorem approximates_lambdaCondition (sequence : ContextId) (l : Lambda) (parent : Option ContextId) :
    (lambdaCondition rec sequence l parent).Approximates (lambdaCondition rec' sequence l parent) :=
  .next _ fun scope => h.condition scope l.body

theorem approximates_restrict (sequence : ContextId) (l : Lambda) (parent : Option ContextId) :
    (restrict rec sequence l parent).Approximates (restrict rec' sequence l parent) :=
  (approximates_lambdaCondition h sequence l parent).first _

theorem approximates_buildFilter (node : Node) (sequence : ContextId) (parent : Option ContextId) :
    (buildFilter rec node sequence parent).Approximates (buildFilter rec' node sequence parent) := by
  refine .next _ fun _ => ?_
  split
  · exact (approximates_restrict h sequence _ parent).first _
  · exact .refl _

omit [Observer] in
theorem approximates_rowsOf? (sequence : ContextId) : (rowsOf? rec sequence).Approximates (rowsOf? rec' sequence) := by
  refine (approximates_ask h sequence [] .association).bind fun answer => ?_
  cases answer.holds with
  | true => exact .refl _
  | false => exact (approximates_ask h sequence [] .table).first _

omit [Observer] in
theorem approximates_updatedRows? (sequence : ContextId) :
    (updatedRows? rec sequence).Approximates (updatedRows? rec' sequence) :=
  (approximates_rowsOf? h sequence).first _

theorem approximates_updateWith (number : StatementId) (sequence : ContextId) (setter : Lambda)
    (parent : Option ContextId) :
    (c.updateWith rec number sequence setter parent).Approximates
      (c.updateWith rec' number sequence setter parent) := by
  refine (approximates_updatedRows? h sequence).bind fun updated => ?_
  cases updated with
  | some updated => exact .next _ fun _ => (approximates_setterItems h setter _ _ sequence parent).first _
  | none => exact (approximates_setterItems h setter sequence none sequence parent).first _

theorem approximates_assignInto (number : StatementId) (sequence into : ContextId) (table : TableId)
    (setter : Lambda) (parent : Option ContextId) :
    (c.assignInto rec number sequence into table setter parent).Approximates
      (c.assignInto rec' number sequence into table setter parent) :=
  (approximates_selectItems h sequence [] .all).bind fun _ => .next _ fun _ =>
    (approximates_setterItems h setter into (some table) sequence parent).first _

theorem approximates_updateInto (number : StatementId) (sequence : ContextId) (target : Node) (setter : Lambda)
    (parent : Option ContextId) :
    (c.updateInto rec number sequence target setter parent).Approximates
      (c.updateInto rec' number sequence target setter parent) :=
  (h.sequence parent target).bind fun into => .next _ fun table =>
    approximates_assignInto h number sequence into table setter parent

theorem approximates_assign (number : StatementId) (sequence : ContextId) (operands : List Argument)
    (parent : Option ContextId) :
    (c.assign rec number sequence operands parent).Approximates
      (c.assign rec' number sequence operands parent) := by
  unfold assign
  split
  · exact (approximates_updatedRows? h sequence).first _
  · exact approximates_updateWith h number sequence _ parent
  · exact (approximates_restrict h sequence _ parent).bind fun _ =>
      approximates_updateWith h number sequence _ parent
  · exact approximates_updateInto h number sequence _ _ parent
  · exact .refl _

theorem approximates_buildUpdate (node : Node) (sequence : ContextId) (parent : Option ContextId) :
    (c.buildUpdate rec node sequence parent).Approximates (c.buildUpdate rec' node sequence parent) :=
  .next _ fun _ => .next _ fun d => (approximates_assign h d.statement sequence node.operands parent).first _

omit [Observer] in
theorem approximates_computedColumn (path : Path) (sequence : ContextId) :
    (c.computedColumn rec path sequence).Approximates (c.computedColumn rec' path sequence) := by
  refine .next _ fun d => .next _ fun st => ?_
  cases st.update.target with
  | some => exact .refl _
  | none => exact approximates_settableColumn h sequence path.steps none

theorem approximates_setItem (member : Lambda) (path : Path) (operand : Argument) (sequence : ContextId)
    (parent : Option ContextId) :
    (c.setItem rec member path operand sequence parent).Approximates
      (c.setItem rec' member path operand sequence parent) := by
  cases operand with
  | lambda l =>
    exact (approximates_computedColumn h path sequence).bind fun column => .next _ fun scope =>
      ((h.value scope l.body).withParent sequence (some scope)).first _
  | value e =>
    exact (approximates_settableColumn h sequence path.steps none).bind fun column => .next _ fun scope =>
      (h.value scope e).first _
  | sequence | «entity» => exact .refl _

theorem approximates_buildSet (node : Node) (sequence : ContextId) (parent : Option ContextId) :
    (c.buildSet rec node sequence parent).Approximates (c.buildSet rec' node sequence parent) := by
  refine .next _ fun _ => ?_
  split
  · exact .next _ fun path => .next _ fun d => (approximates_setItem h _ path _ sequence parent).first _
  · exact .refl _

theorem approximates_build (b : Builder) (node : Node) (sequence : Option ContextId) (parent : Option ContextId) :
    (c.build rec b node sequence parent).Approximates (c.build rec' b node sequence parent) := by
  cases b with
  | source => exact .refl _
  | filter => exact .next _ fun sequence => approximates_buildFilter h node sequence parent
  | select => exact .refl _
  | update => exact .next _ fun sequence => approximates_buildUpdate h node sequence parent
  | set => exact .next _ fun sequence => approximates_buildSet h node sequence parent

theorem approximates_sequence (parent : Option ContextId) (node : Node) :
    (c.sequence rec parent node).Approximates (c.sequence rec' parent node) := by
  refine .next _ fun b => .bind ?_ fun source => approximates_build h b node source parent
  unfold primarySequence?
  cases node.primary? with
  | some source => exact .map _ (h.sequence parent source)
  | none => exact .refl _

theorem approximates_finish (id : ContextId) : (finish rec id).Approximates (finish rec' id) := by
  refine .next _ fun d => ?_
  cases d.isUpdate with
  | true => exact .refl _
  | false => exact (approximates_selectItems h id [] .all).first _

end Steps

variable {c : Compiler} {node : Node} {n n' : Nat}

theorem calls_approximate [Observer] (hn : n ≤ n') : (c.calls n).Approximate (c.calls n') := by
  induction n generalizing n' with
  | zero => exact Calls.approximate_exhausted _
  | succ n ih =>
    obtain ⟨n', rfl⟩ := Nat.exists_eq_succ_of_ne_zero (Nat.ne_zero_of_lt hn)
    have h := ih (Nat.le_of_succ_le_succ hn)
    exact ⟨fun scope e => approximates_value h scope e, fun scope e => approximates_condition h scope e,
      fun id steps => approximates_classify h id steps, fun id steps extent => approximates_members h id steps extent,
      fun parent node => approximates_sequence h parent node⟩

theorem approximates_root [Observer] (hn : n ≤ n') (node : Node) : (c.root n node).Approximates (c.root n' node) :=
  ((calls_approximate hn).sequence none node).bind fun id => approximates_finish (calls_approximate hn) id

/-- Of two queries, the second comes to what the first comes to. -/
theorem compile_of_approximates {node' : Node} (happrox : (c.root n node).Approximates (c.root n' node'))
    (h : c.compile n node ≠ .error .outOfFuel) : c.compile n' node' = c.compile n node := by
  obtain ⟨t, hout⟩ | heq := happrox {}
  · exact absurd (by rw [compile, hout]) h
  · rw [compile, compile, heq]

/-- What a query comes to with some fuel it comes to with more. -/
theorem compile_of_le (h : c.compile n node ≠ .error .outOfFuel) (hn : n ≤ n') :
    c.compile n' node = c.compile n node :=
  compile_of_approximates (approximates_root hn node) h

end ObjectQuery.Compiler
