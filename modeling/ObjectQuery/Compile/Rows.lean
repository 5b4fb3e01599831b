import ObjectQuery.Compile.Value

/-!
Rows and objects as lists of SQL values, and the questions that operators ask of a path. Conversion gives
one item for each column or constructed member, named relative to what is converted.
-/
namespace ObjectQuery

/-- A converted value. The ordinal is its place in the select list, once it has one. -/
structure Item where
  member : Option String
  value : SqlExpr
  ordinal : Option Nat
deriving Inhabited

inductive Request where
  | field | association | table | expression | object
deriving DecidableEq, Inhabited

structure Answer where
  holds : Bool
  context : Option ContextId
deriving DecidableEq, Inhabited

def Answer.no : Answer := ⟨false, none⟩

def Request.answer : Request → Denotation → Answer
  | .table, .table rows => ⟨true, some rows⟩
  | .table, .association rows => ⟨true, some rows⟩
  | .association, .association rows => ⟨true, some rows⟩
  | .field, .field .. => ⟨true, none⟩
  | .expression, .field .. => ⟨true, none⟩
  | .expression, .computed _ => ⟨true, none⟩
  | .object, .object context _ => ⟨true, some context⟩
  | _, _ => .no

def Expr.constructedAt (body : Expr) : List String → List String
  | [] => (body.bindings?.getD []).map Prod.fst
  | step :: steps =>
    match (body.bindings?.getD []).lookup step with
    | some value => value.constructedAt steps
    | none => []

namespace Compiler

open Build

variable [Observer]

/-- A path that cannot be resolved is not what was asked for. -/
def ask (rec : Calls) (id : ContextId) (steps : List String) (request : Request) : Build Answer := do
  if (← context id).isUpdate then fail (.unsupportedShape .updateNotQueryable)
  match ← attempt (rec.classify id steps) with
  | .ok d => pure (request.answer d)
  | .error (.memberResolution ..) => pure .no
  | .error e => fail e

def rowColumns (c : Compiler) (id : ContextId) (outer : Option String) (extent : Extent) :
    Build (List (Option String × SqlExpr)) := do
  let ctx ← context id
  let rows ← orFail (.unsupportedShape (.noColumns ctx.kindName)) ctx.rows?
  let e ← c.entity rows.entity
  let columns ←
    match extent with
    | .key => do
      let keys ← orDangling (c.schema.database.keyColumns? rows.table)
      pure ((e.columnsWithin outer).filter fun (_, column) => column ∈ keys)
    | .field | .all => pure (e.columnsWithin outer)
  pure (columns.map fun (name, column) => (some name, .column column (some rows.aliasName)))

/-- What the steps stand for, with names relative to the steps; a single value has none. -/
def members (c : Compiler) (rec : Calls) (id : ContextId) (steps : List String) (extent : Extent) :
    Build (List (Option String × SqlExpr)) := do
  match ← rec.classify id steps with
  | .field column aliasName => pure [(none, .column column (some aliasName))]
  | .computed value => pure [(none, value)]
  | .table rows | .association rows => c.rowColumns rows none extent
  | .object owner objectSteps =>
    match ← context owner with
    | .projection _ _ _ l _ =>
      let groups ← (l.body.constructedAt objectSteps).mapM fun name => do
        let items ← rec.members owner (objectSteps ++ [name]) extent
        pure (items.map fun (member, value) =>
          (some (member.elim name fun m => name ++ "." ++ m), value))
      pure groups.flatten
    | _ => c.rowColumns owner (some (Dotted.join objectSteps)) extent

def itemsOf (rec : Calls) (id : ContextId) (steps : List String) (extent : Extent) :
    Build (List Item) := do
  let pathName := if steps.isEmpty then none else some (Dotted.join steps)
  let converted ← rec.members id steps extent
  pure (converted.map fun (member, value) => ⟨member <|> pathName, value, none⟩)

/-- Paths expand to their members; any other expression is a single value without a name. -/
def itemsOfExpr (rec : Calls) (scope : ContextId) (e : Expr) (extent : Extent) :
    Build (List Item) := do
  match Path.ofExpr? e with
  | some path =>
    let sequence ← rootOf scope path
    itemsOf rec sequence path.steps extent
  | none => pure [⟨none, ← rec.value scope e, none⟩]

def register (select : List SqlExpr) : List Item → List SqlExpr × List Item
  | [] => (select, [])
  | item :: rest =>
    let (select, ordinal) := SelectList.add select item.value
    let (select, rest) := register select rest
    (select, { item with ordinal := some ordinal } :: rest)

def enterItems (id : ContextId) (items : List Item) : Build (List Item) := do
  let number := (← context id).statement
  let (select, items) := register (← statement number).select items
  modifyStatement number fun m => { m with select }
  pure items

def selectItems (rec : Calls) (id : ContextId) (steps : List String) (extent : Extent) :
    Build (List Item) := do
  let items ← itemsOf rec id steps extent
  enterItems id items

end Compiler
end ObjectQuery
