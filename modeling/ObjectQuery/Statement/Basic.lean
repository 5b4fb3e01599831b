import ObjectQuery.Statement.Predicate
import ObjectQuery.Error

/-!
The model of one statement: select list, table sources with their joins, condition, and the assignments
of an update.
-/
namespace ObjectQuery

inductive JoinKind where
  | inner | left
deriving DecidableEq, Inhabited

/-- A table and the alias that its columns are read under. -/
structure TableSource where
  table : TableId
  aliasName : String
deriving DecidableEq, Inhabited

/-- A weak join comes from following an association and is provisional. -/
structure Join where
  source : TableSource
  kind : JoinKind
  on : Predicate
  weak : Bool
deriving Inhabited

structure Sources where
  root : Option TableSource
  joins : List Join
deriving Inhabited

namespace Sources

def empty : Sources := ⟨none, []⟩

def addWeakJoin (s : Sources) (source : TableSource) (kind : JoinKind) (on : Predicate) : Sources :=
  { s with joins := s.joins ++ [⟨source, kind, on, true⟩] }

/-- Makes every provisional join a lasting one. -/
def settle (s : Sources) : Sources :=
  { s with joins := s.joins.map fun j => { j with weak := false } }

def hasWeakJoins (s : Sources) : Bool :=
  s.joins.any Join.weak

end Sources

namespace SelectList

/-- The ordinal of the first expression that is the same. -/
def ordinal? (list : List SqlExpr) (e : SqlExpr) : Option Nat :=
  list.findIdx? fun c => c.same e

/-- The list with the expression in it, and its ordinal; an expression already there is reused. -/
def add (list : List SqlExpr) (e : SqlExpr) : List SqlExpr × Nat :=
  match ordinal? list e with
  | some i => (list, i)
  | none => (list ++ [e], list.length)

end SelectList

structure SetItem where
  column : ColumnId
  value : SqlExpr
deriving Inhabited

structure Assignments where
  target : Option TableId
  items : List SetItem
deriving Inhabited

namespace Assignments

def empty : Assignments := ⟨none, []⟩

/-- A different target is a conflict: the items would be applied to the wrong table. -/
def conflict? (a : Assignments) (table : TableId) : Option TableId :=
  a.target.filter fun existing => existing ≠ table

def bind (a : Assignments) (table : TableId) : Assignments :=
  { a with target := some (a.target.getD table) }

def append (a : Assignments) (items : List SetItem) : Assignments :=
  { a with items := a.items ++ items }

def validate (a : Assignments) : Except CompileError Unit :=
  if a.target.isNone then .error (.incompleteStatement .noTarget)
  else if a.items.isEmpty then .error (.incompleteStatement .noItems)
  else .ok ()

end Assignments

inductive StatementKind where
  | select | update
deriving DecidableEq, Inhabited

structure Statement where
  kind : StatementKind
  select : List SqlExpr
  sources : Sources
  condition : Predicate
  update : Assignments
deriving Inhabited

namespace Statement

def empty : Statement :=
  ⟨.select, [], .empty, .always, .empty⟩

def restrict (s : Statement) (p : Predicate) : Statement :=
  { s with condition := s.condition.conjunction p }

/-- Is the statement complete enough to be written out? -/
def validate (s : Statement) : Except CompileError Unit :=
  match s.kind with
  | .select =>
    if s.update.items.isEmpty then .ok () else .error (.incompleteStatement .itemsWithoutUpdate)
  | .update => s.update.validate

end Statement
end ObjectQuery
