/-!
The physical side of a schema: tables and their columns, known by their positions.
-/
namespace ObjectQuery

inductive IntWidth where
  | bits16 | bits32 | bits64
deriving DecidableEq, Inhabited

/-- Width of the significand. -/
inductive FloatWidth where
  | bits24 | bits53
deriving DecidableEq, Inhabited

inductive ColumnType where
  | int (width : IntWidth)
  | string (maxLength : Option Nat)
  | boolean
  | float (width : FloatWidth)
  | timestamp (timezone : Bool)
  | uuid
deriving DecidableEq, Inhabited

structure Column where
  name : String
  type : ColumnType
  isKey : Bool
  isNullable : Bool
deriving DecidableEq, Inhabited

structure Table where
  name : String
  columns : List Column
deriving DecidableEq, Inhabited

abbrev TableId := Nat

structure ColumnId where
  table : TableId
  index : Nat
deriving DecidableEq, Inhabited

/-- The first column of that name. -/
def Table.columnIndex? (t : Table) (name : String) : Option Nat :=
  t.columns.findIdx? fun c => c.name == name

def Table.keyIndices (t : Table) : List Nat :=
  (t.columns.zipIdx.filter fun (c, _) => c.isKey).map Prod.snd

def Table.describe (t : Table) : String :=
  "Table: " ++ t.name

structure Database where
  tables : List Table
deriving DecidableEq, Inhabited

namespace Database

def table? (d : Database) (id : TableId) : Option Table :=
  d.tables[id]?

def column? (d : Database) (id : ColumnId) : Option Column :=
  (d.table? id.table).bind fun t => t.columns[id.index]?

/-- The first table of that name. -/
def tableNamed? (d : Database) (name : String) : Option TableId :=
  d.tables.findIdx? fun t => t.name == name

def columnNamed? (d : Database) (table : TableId) (name : String) : Option ColumnId :=
  (d.table? table).bind fun t => (t.columnIndex? name).map fun i => ⟨table, i⟩

def keyColumns? (d : Database) (table : TableId) : Option (List ColumnId) :=
  (d.table? table).map fun t => t.keyIndices.map fun i => ⟨table, i⟩

def qualifiedName? (d : Database) (id : ColumnId) : Option String :=
  (d.table? id.table).bind fun t => t.columns[id.index]?.map fun c => t.name ++ "." ++ c.name

def describe (d : Database) : String :=
  String.join <| d.tables.zipIdx.map fun (t, i) =>
    toString i ++ ": " ++ t.name ++ "\n  columns: \n" ++
      String.join (t.columns.zipIdx.map fun (c, j) =>
        "    " ++ toString j ++ ": Column: " ++ toString i ++ "." ++ c.name ++ "\n")

end Database
end ObjectQuery
