import ObjectQuery.Compile.Setter

/-!
The operators. Each compiles over the context of its source sequence; `parent` is the scope that the query
is nested in, if it is.
-/
namespace ObjectQuery.Compiler

open Build

variable [Observer]

def buildSource (c : Compiler) (node : Node) (parent : Option ContextId) : Build ContextId := do
  match node.arguments with
  | .entity name :: _ =>
    let e ← c.entity name
    let aliasName ← nextAlias
    let number ← addStatement { Statement.empty with sources := ⟨some ⟨e.table, aliasName⟩, []⟩ }
    addContext (.table parent number ⟨e.name, e.table, aliasName, []⟩)
  | _ => fail (.unsupportedShape .sourceArguments)

def lambdaCondition (rec : Calls) (sequence : ContextId) (l : Lambda) (parent : Option ContextId) :
    Build Predicate := do
  let scope ← lambdaScope l sequence parent
  rec.condition scope l.body

def restrict (rec : Calls) (sequence : ContextId) (l : Lambda) (parent : Option ContextId) :
    Build Unit := do
  let p ← lambdaCondition rec sequence l parent
  modifyStatement (← context sequence).statement (Statement.restrict · p)

def buildFilter (rec : Calls) (node : Node) (sequence : ContextId) (parent : Option ContextId) :
    Build ContextId := do
  ensureComposable sequence "a filter"
  match node.operands with
  | [.lambda l] =>
    restrict rec sequence l parent
    pure sequence
  | _ => fail (.unsupportedShape .filterArguments)

/-- The select list stays as it is until the projection is read. -/
def buildSelect (node : Node) (sequence : ContextId) (parent : Option ContextId) :
    Build ContextId := do
  ensureComposable sequence "a projection"
  match node.operands with
  | [.lambda l] =>
    let number := (← context sequence).statement
    addContext (.projection parent number sequence l l.body.bindings?.isNone)
  | _ => fail (.unsupportedShape .projectionArguments)

def rowsOf? (rec : Calls) (sequence : ContextId) : Build (Option ContextId) := do
  let association ← ask rec sequence [] .association
  if association.holds then pure association.context
  else
    let table ← ask rec sequence [] .table
    pure (if table.holds then table.context else none)

def updatedRows? (rec : Calls) (sequence : ContextId) : Build (Option (ContextId × TableId)) := do
  match ← rowsOf? rec sequence with
  | none => pure none
  | some id => pure ((← context id).rows?.map fun rows => (id, rows.table))

/-- Without rows to update, members are assigned through the sequence and the items name the target. -/
def updateWith (c : Compiler) (rec : Calls) (number : StatementId) (sequence : ContextId)
    (setter : Lambda) (parent : Option ContextId) : Build Unit := do
  match ← updatedRows? rec sequence with
  | some (rows, table) =>
    c.bindTarget number table
    addItems number (← c.setterItems rec setter rows (some table) sequence parent)
  | none =>
    let items ← c.setterItems rec setter sequence none sequence parent
    items.forM fun item => c.bindTarget number item.column.table
    addItems number items

def targetTable (into : ContextId) : Build TableId := do
  match ← context into with
  | .table _ _ rows => pure rows.table
  | other => fail (.unsupportedShape (.targetNotTable other.kindName))

/-- The rows of the sequence drive assignments to the rows of another table. Its joins become lasting,
those that the setter's values bring in included, and it selects the assigned values. -/
def assignInto (c : Compiler) (rec : Calls) (number : StatementId) (sequence into : ContextId)
    (table : TableId) (setter : Lambda) (parent : Option ContextId) : Build Unit := do
  let _ ← selectItems rec sequence [] .all
  modifyStatement number fun m => { m with sources := m.sources.settle, select := [] }
  let items ← c.setterItems rec setter into (some table) sequence parent
  modifyStatement number fun m =>
    { m with sources := m.sources.settle, select := items.map SetItem.value }
  c.bindTarget number table
  addItems number items

def updateInto (c : Compiler) (rec : Calls) (number : StatementId) (sequence : ContextId)
    (target : Node) (setter : Lambda) (parent : Option ContextId) : Build Unit := do
  let into ← rec.sequence parent target
  let table ← targetTable into
  c.assignInto rec number sequence into table setter parent

/-- Makes the statement an update; all its items must belong to the target. -/
def completeUpdate (c : Compiler) (number : StatementId) : Build Unit := do
  let update := (← statement number).update
  match update.target.bind fun target => update.items.find? fun item => item.column.table ≠ target with
  | some item =>
    fail (.notSettable (← orDangling (c.schema.database.qualifiedName? item.column)))
  | none => modifyStatement number fun m => { m with kind := .update }

def assign (c : Compiler) (rec : Calls) (number : StatementId) (sequence : ContextId)
    (operands : List Argument) (parent : Option ContextId) : Build Unit := do
  match operands with
  | [] =>
    match ← updatedRows? rec sequence with
    | some (_, table) => c.bindTarget number table
    | none => pure ()
  | [.lambda setter] => c.updateWith rec number sequence setter parent
  | [.lambda l, .lambda setter] =>
    restrict rec sequence l parent
    c.updateWith rec number sequence setter parent
  | [.sequence target, .lambda setter] => c.updateInto rec number sequence target setter parent
  | _ => fail (.unsupportedShape .updateArguments)

def buildUpdate (c : Compiler) (rec : Calls) (node : Node) (sequence : ContextId)
    (parent : Option ContextId) : Build ContextId := do
  ensureComposable sequence "an update"
  let number := (← context sequence).statement
  c.assign rec number sequence node.operands parent
  c.completeUpdate number
  addContext (.update parent number sequence)

def selectedPath (member : Lambda) : Except CompileError Path :=
  match member.row? with
  | none => .error (.malformedSelector .noParameter)
  | some row =>
    match (Path.ofExpr? member.body).filter fun path => path.root = row ∧ path.steps ≠ [] with
    | some path => .ok path
    | none => .error (.malformedSelector (.notAMember row member.body.describe))

/-- The column that a set with a computed value assigns: of the target, if there is one already. -/
def computedColumn (c : Compiler) (rec : Calls) (path : Path) (sequence : ContextId) : Build ColumnId := do
  match (← statement (← context sequence).statement).update.target with
  | some target => c.targetColumn target path.qualifiedName
  | none => settableColumn rec sequence path.steps none

/-- The item of a set. A value given as a lambda sees its parameter range over the sequence, which is under
the lambda's scope meanwhile. -/
def setItem (c : Compiler) (rec : Calls) (member : Lambda) (path : Path) (operand : Argument)
    (sequence : ContextId) (parent : Option ContextId) : Build SetItem := do
  match operand with
  | .lambda l =>
    let column ← c.computedColumn rec path sequence
    let scope ← lambdaScope l sequence parent
    let value ← withParent sequence (some scope) (rec.value scope l.body)
    pure ⟨column, value⟩
  | .value e =>
    let column ← settableColumn rec sequence path.steps none
    let scope ← lambdaScope member sequence parent
    let value ← rec.value scope e
    pure ⟨column, value⟩
  | _ => fail (.unsupportedShape .setValue)

def buildSet (c : Compiler) (rec : Calls) (node : Node) (sequence : ContextId)
    (parent : Option ContextId) : Build ContextId := do
  ensureComposable sequence "a set"
  match node.operands with
  | [.lambda member, operand] =>
    let path ← ofExcept (selectedPath member)
    let number := (← context sequence).statement
    let item ← c.setItem rec member path operand sequence parent
    c.bindTarget number item.column.table
    addItems number [item]
    pure sequence
  | _ => fail (.unsupportedShape .setArguments)

def build (c : Compiler) (rec : Calls) (b : Builder) (node : Node) (sequence : Option ContextId)
    (parent : Option ContextId) : Build ContextId := do
  if b = .source then c.buildSource node parent
  else
    let sequence ← orFail (.unsupportedShape (.missingSequence node.kind)) sequence
    match b with
    | .source => c.buildSource node parent
    | .filter => buildFilter rec node sequence parent
    | .select => buildSelect node sequence parent
    | .update => c.buildUpdate rec node sequence parent
    | .set => c.buildSet rec node sequence parent

def primarySequence? (rec : Calls) (parent : Option ContextId) (node : Node) : Build (Option ContextId) :=
  match node.primary? with
  | some source => some <$> rec.sequence parent source
  | none => pure none

def sequence (c : Compiler) (rec : Calls) (parent : Option ContextId) (node : Node) :
    Build ContextId := do
  let b ← ofExcept (c.builderFor node)
  let source ← primarySequence? rec parent node
  c.build rec b node source parent

/-- Compilation with calls nested at most `fuel` deep. -/
def calls (c : Compiler) : Nat → Calls
  | 0 => .exhausted
  | fuel + 1 =>
    { value := fun scope e => c.value (c.calls fuel) scope e
      condition := fun scope e => condition (c.calls fuel) scope e
      classify := fun id steps => c.classify (c.calls fuel) id steps
      members := fun id steps extent => c.members (c.calls fuel) id steps extent
      sequence := fun parent node => c.sequence (c.calls fuel) parent node }

end ObjectQuery.Compiler
