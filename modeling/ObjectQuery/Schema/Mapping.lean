import ObjectQuery.Keyed
import ObjectQuery.Query.Expr
import ObjectQuery.Schema.Database
import ObjectQuery.Text.Dotted

/-!
Entities over tables. A member is a column, a value computed from other members, or an association with
another entity. Members of an embedded object are declared one by one under dotted names.
-/
namespace ObjectQuery

/-- A row of the target belongs to a row of the owner when the two columns agree. -/
structure Association where
  target : String
  own : ColumnId
  foreign : ColumnId
  optional : Bool
deriving DecidableEq, Inhabited

inductive Member where
  | column (id : ColumnId)
  | computed (value : Lambda)
  | association (association : Association)
deriving Inhabited

abbrev Members := Keyed (Prod.fst (α := String) (β := Member))

structure Entity where
  name : String
  table : TableId
  members : Members

namespace Entity

def member? (e : Entity) (name : String) : Option Member :=
  (e.members.find? name).map Prod.snd

theorem mem_of_member? {e : Entity} {name : String} {m : Member} (h : e.member? name = some m) :
    (name, m) ∈ e.members.items := by
  obtain ⟨⟨k, _⟩, hf, rfl⟩ := Option.map_eq_some_iff.mp h
  obtain rfl := Keyed.key_of_find? hf
  exact Keyed.mem_of_find? hf

theorem member?_of_mem {e : Entity} {name : String} {m : Member} (h : (name, m) ∈ e.members.items) :
    e.member? name = some m := by
  rw [member?, Keyed.find?, Keyed.find?_eq_some_of_mem e.members.distinct h]
  rfl

/-- Is the name that of an embedded object? -/
def isComplex (e : Entity) (name : String) : Bool :=
  e.members.items.any fun (m, _) => Dotted.isWithin m name

/-- The members stored in columns, in order of declaration. -/
def stored (e : Entity) : List (String × ColumnId) :=
  e.members.items.filterMap fun
    | (name, .column id) => some (name, id)
    | _ => none

/-- The columns of an embedded object; without one, all columns. -/
def columns (e : Entity) : Option String → List (String × ColumnId)
  | none => e.stored
  | some outer => e.stored.filter fun (name, _) => Dotted.isWithin name outer

/-- The columns of an embedded object, named relative to it. -/
def columnsWithin (e : Entity) : Option String → List (String × ColumnId)
  | none => e.stored
  | some outer => (e.columns (some outer)).map fun (name, id) => (Dotted.relativeTo name outer, id)

end Entity

abbrev Mapping := Keyed Entity.name

def Mapping.entity? (m : Mapping) (name : String) : Option Entity :=
  m.find? name

theorem Mapping.name_of_entity? {m : Mapping} {name : String} {e : Entity}
    (h : m.entity? name = some e) : e.name = name :=
  Keyed.key_of_find? h

/-- The first entity over the table. -/
def Mapping.entityOver? (m : Mapping) (table : TableId) : Option Entity :=
  m.items.find? fun e => e.table == table

structure Schema where
  database : Database
  mapping : Mapping

end ObjectQuery
