import ObjectQuery.Compile.Rows

/-!
Assignments. The left side of each must denote a plain column of the target; a setter's nested
constructions assign the members of embedded objects.
-/
namespace ObjectQuery.Compiler

open Build

variable [Observer]

def settableColumn (rec : Calls) (id : ContextId) (steps : List String) (table : Option TableId) :
    Build ColumnId := do
  let notSettable := CompileError.notSettable (Dotted.join steps)
  match ← attempt (rec.classify id steps) with
  | .ok (.field column _) =>
    if table.any (· ≠ column.table) then fail notSettable else pure column
  | .ok _ => fail notSettable
  | .error (.memberResolution ..) => fail notSettable
  | .error e => fail e

def targetColumn (c : Compiler) (target : TableId) (name : String) : Build ColumnId := do
  match (← c.entityOver target).member? name with
  | some (.column column) => pure column
  | _ => fail (.notSettable name)

/-- An update has one target; binding it again is no change, another one is an error. -/
def bindTarget (c : Compiler) (number : StatementId) (table : TableId) : Build Unit := do
  match (← statement number).update.conflict? table with
  | some existing =>
    let first ← orDangling (c.schema.database.table? existing)
    let second ← orDangling (c.schema.database.table? table)
    fail (.ambiguousTarget first.name second.name)
  | none => modifyStatement number fun m => { m with update := m.update.bind table }

def addItems (number : StatementId) (items : List SetItem) : Build Unit :=
  modifyStatement number fun m => { m with update := m.update.append items }

def entered? (rec : Calls) (into : ContextId) (steps : List String) (value : Expr) :
    Build (Option (List (String × Expr))) :=
  match value.bindings? with
  | none => pure none
  | some nested => do
    let answer ← ask rec into steps .field
    pure (if answer.holds then none else some nested)

/-- One item for every binding that is not a construction, in order. Constructions are entered at most
`depth` levels deep. -/
def flatten (c : Compiler) (rec : Calls) (into : ContextId) (table : Option TableId)
    (scope : ContextId) : Nat → List String → List (String × Expr) → Build (List SetItem)
  | 0, _, _ => fail (.setterTooDeep c.settings.maxSetterDepth)
  | depth + 1, outer, bindings => do
    let groups ← bindings.mapM fun (name, value) => do
      let steps := outer ++ [name]
      match ← entered? rec into steps value with
      | some nested => flatten c rec into table scope depth steps nested
      | none =>
        let column ← settableColumn rec into steps table
        let value ← rec.value scope value.strip
        pure [⟨column, value⟩]
    pure groups.flatten

/-- The items of a setter. Left sides belong to `into`, and values see the setter's parameter range over
the sequence. A setter that is no construction assigns the members of the object it refers to, by name. -/
def setterItems (c : Compiler) (rec : Calls) (setter : Lambda) (into : ContextId)
    (table : Option TableId) (sequence : ContextId) (parent : Option ContextId) :
    Build (List SetItem) := do
  let scope ← lambdaScope setter sequence parent
  match setter.body.bindings? with
  | some bindings => flatten c rec into table scope c.settings.maxSetterDepth [] bindings
  | none =>
    let items ← itemsOfExpr rec scope setter.body.strip .all
    items.mapM fun item => do
      let member ← orFail (.unsupportedShape .setterNotObject) item.member
      let column ← settableColumn rec into (Dotted.split member) table
      pure ⟨column, item.value⟩

end ObjectQuery.Compiler
