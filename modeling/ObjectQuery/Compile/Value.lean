import ObjectQuery.Compile.Resolve

/-!
Values and conditions. An expression compiles to an SQL value as seen from a scope; a boolean one also to
a condition, with the same meaning.
-/
namespace ObjectQuery.Compiler

open Build

variable [Observer]

/-- A comparison with null asks whether the other side is null. -/
def comparison : Comparison → SqlExpr → SqlExpr → Predicate
  | .equal, lhs, .null => .isNull lhs
  | .equal, .null, rhs => .isNull rhs
  | .unequal, lhs, .null => (Predicate.isNull lhs).negate
  | .unequal, .null, rhs => (Predicate.isNull rhs).negate
  | .equal, lhs, rhs => .equal lhs rhs
  | .unequal, lhs, rhs => .unequal lhs rhs
  | op, lhs, rhs => .compare op lhs rhs

def pathValue (rec : Calls) (scope : ContextId) (e : Expr) : Build SqlExpr := do
  let path ← orFail (.unsupportedShape (.memberOfNonParameter e.describe)) (Path.ofExpr? e)
  match ← resolve rec scope path with
  | .field column aliasName => pure (.column column aliasName)
  | .computed value => pure value
  | _ => fail (.memberResolution path.text .notAValue)

/-- What an aggregate over a sequence takes: the selector's value, all rows for a count, otherwise the
single value that the sequence consists of. -/
def aggregateArgument (rec : Calls) (scope : ContextId) (function : Aggregate)
    (selector : Option Lambda) (sequence : ContextId) : Build SqlExpr := do
  match selector, function with
  | some l, _ =>
    let inner ← lambdaScope l sequence (some scope)
    rec.value inner l.body
  | none, .count => pure .star
  | none, _ =>
    match ← rec.members sequence [] .field with
    | [(_, value)] => pure value
    | _ => fail (.unsupportedShape (.aggregateOverRows function))

def aggregate (rec : Calls) (scope : ContextId) (function : Aggregate) (source : Node)
    (selector : Option Lambda) : Build SqlExpr := do
  let sequence ← rec.sequence (some scope) source
  ensureComposable sequence function.name
  let argument ← aggregateArgument rec scope function selector sequence
  let statement := (← context sequence).statement
  modifyStatement statement fun m => { m with select := [.function function.name [argument]] }
  pure (.subquery statement)

def value (c : Compiler) (rec : Calls) (scope : ContextId) (e : Expr) : Build SqlExpr := do
  match e with
  | .literal v =>
    if c.settings.parameterizeConstants then pure (.parameter (← nextParameter) (some v))
    else pure (.literal v)
  | .external name => pure (.parameter name none)
  | .null => pure .null
  | .convert inner => rec.value scope inner
  | .parameter _ | .member .. => pathValue rec scope e
  | .binary (.arithmetic op) lhs rhs =>
    let lhs ← rec.value scope lhs
    let rhs ← rec.value scope rhs
    pure (.arithmetic op lhs rhs)
  | .binary .. | .not _ => .condition <$> rec.condition scope e
  | .call function args => .function function <$> args.mapM (rec.value scope)
  | .construct _ => fail (.unsupportedShape .constructionAsValue)
  | .aggregate function source selector =>
    inContext ("While compiling the " ++ function.name ++ " sub-query")
      (aggregate rec scope function source selector)

def condition (rec : Calls) (scope : ContextId) (e : Expr) : Build Predicate := do
  match e.strip with
  | .binary .and lhs rhs =>
    let lhs ← rec.condition scope lhs
    let rhs ← rec.condition scope rhs
    pure (lhs.conjunction rhs)
  | .binary .or lhs rhs =>
    let lhs ← rec.condition scope lhs
    let rhs ← rec.condition scope rhs
    pure (lhs.disjunction rhs)
  | .binary (.comparison op) lhs rhs =>
    let lhs ← rec.value scope lhs
    let rhs ← rec.value scope rhs
    pure (comparison op lhs rhs)
  | .binary (.arithmetic op) _ _ => fail (.unsupportedShape (.notACondition op))
  | .not inner => Predicate.negate <$> rec.condition scope inner
  | .literal (.bool b) => pure (.ofBool b)
  | e =>
    match ← rec.value scope e with
    | .condition p => pure p
    | sql => pure (.equal sql (.literal (.bool true)))

end ObjectQuery.Compiler
