import ObjectQuery.Schema.Mapping

/-!
Declarative specifications of a schema. `Spec.resolve` gives every table and column name its position;
it fails exactly on a name that is not declared or on two entities of one name.
-/
namespace ObjectQuery

inductive MemberSpec where
  | column (name : String)
  | computed (value : Lambda)
  | association (target own foreign : String) (optional : Bool)
deriving Inhabited

/-- A member that is declared twice keeps its first place and its last meaning. -/
structure EntitySpec where
  name : String
  table : String
  members : List (String × MemberSpec)
deriving Inhabited

inductive SchemaError where
  | unknownTable (name : String)
  | unknownColumn (table column : String)
  | unknownEntity (name : String)
  | duplicateEntity (name : String)
deriving DecidableEq, Inhabited

def SchemaError.message : SchemaError → String
  | .unknownTable name => "Unknown table '" ++ name ++ "'"
  | .unknownColumn table column => "Unknown column '" ++ column ++ "' in table '" ++ table ++ "'"
  | .unknownEntity name => "Unknown entity '" ++ name ++ "'"
  | .duplicateEntity name => "Duplicate entity '" ++ name ++ "'"

structure Spec where
  tables : List Table
  entities : List EntitySpec
deriving Inhabited

namespace Spec

/-- The table of every entity, in order; later entities do not see earlier ones of their name. -/
def bindTables (d : Database) :
    List EntitySpec → List (String × TableId) → Except SchemaError (List (String × TableId))
  | [], bound => .ok bound
  | e :: rest, bound =>
    match d.tableNamed? e.table with
    | none => .error (.unknownTable e.table)
    | some table =>
      if (bound.lookup e.name).isSome then .error (.duplicateEntity e.name)
      else bindTables d rest (bound ++ [(e.name, table)])

def resolveColumn (d : Database) (table : TableId) (name : String) : Except SchemaError ColumnId :=
  match d.columnNamed? table name with
  | some id => .ok id
  | none => .error (.unknownColumn ((d.table? table).elim "" Table.name) name)

def resolveMember (d : Database) (bound : List (String × TableId)) (table : TableId) :
    MemberSpec → Except SchemaError Member
  | .column name => .column <$> resolveColumn d table name
  | .computed value => .ok (.computed value)
  | .association target own foreign optional => do
    let some targetTable := bound.lookup target | .error (.unknownEntity target)
    let own ← resolveColumn d table own
    let foreign ← resolveColumn d targetTable foreign
    .ok (.association ⟨target, own, foreign, optional⟩)

def resolveEntity (d : Database) (bound : List (String × TableId)) (e : EntitySpec) :
    Except SchemaError Entity := do
  let some table := bound.lookup e.name | .error (.unknownEntity e.name)
  let members ← e.members.mapM fun (name, spec) => do
    .ok (name, ← resolveMember d bound table spec)
  .ok ⟨e.name, table, Keyed.ofList members⟩

def resolve (spec : Spec) : Except SchemaError Schema := do
  let d : Database := ⟨spec.tables⟩
  let bound ← bindTables d spec.entities []
  let entities ← spec.entities.mapM (resolveEntity d bound)
  .ok ⟨d, Keyed.ofList entities⟩

end Spec
end ObjectQuery
