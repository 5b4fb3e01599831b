import ObjectQuery.Query.Same
import ObjectQuery.Statement.Same

/-!
The scopes that operators compile against. Contexts and statements are known by their numbers, in order
of creation, and a context names the statement that it works on.
-/
namespace ObjectQuery

abbrev ContextId := Nat

/-- The rows of a table source. `followed` has the associations taken from them so far, in order. -/
structure Rows where
  entity : String
  table : TableId
  aliasName : String
  followed : List (String × ContextId)
deriving DecidableEq, Inhabited

/-- An association has its owner for a parent. A scalar projection selects a value or a row; any other
constructs an object. A lambda scope binds parameters to the sequences that they range over. -/
inductive Context where
  | table (parent : Option ContextId) (statement : StatementId) (rows : Rows)
  | association (owner : ContextId) (statement : StatementId) (name : String) (rows : Rows)
  | projection (parent : Option ContextId) (statement : StatementId) (sequence : ContextId)
      (lambda : Lambda) (scalar : Bool)
  | lambda (parent : Option ContextId) (statement : StatementId)
      (bindings : List (String × ContextId))
  | update (parent : Option ContextId) (statement : StatementId) (sequence : ContextId)
deriving Inhabited

namespace Context

def parent : Context → Option ContextId
  | .table p _ _ => p
  | .association owner _ _ _ => some owner
  | .projection p _ _ _ _ => p
  | .lambda p _ _ => p
  | .update p _ _ => p

def withParent (p : Option ContextId) : Context → Context
  | .table _ s rows => .table p s rows
  | .association owner s name rows => .association owner s name rows
  | .projection _ s sequence l scalar => .projection p s sequence l scalar
  | .lambda _ s bindings => .lambda p s bindings
  | .update _ s sequence => .update p s sequence

def statement : Context → StatementId
  | .table _ s _ => s
  | .association _ s _ _ => s
  | .projection _ s _ _ _ => s
  | .lambda _ s _ => s
  | .update _ s _ => s

def rows? : Context → Option Rows
  | .table _ _ rows => some rows
  | .association _ _ _ rows => some rows
  | _ => none

def isUpdate : Context → Bool
  | .update .. => true
  | _ => false

def binding? (name : String) : Context → Option ContextId
  | .lambda _ _ bindings => bindings.lookup name
  | _ => none

/-- Notes that the association was followed and which context its rows have. -/
def follow (name : String) (rows : ContextId) : Context → Context
  | .table p s r => .table p s { r with followed := r.followed ++ [(name, rows)] }
  | .association o s n r => .association o s n { r with followed := r.followed ++ [(name, rows)] }
  | c => c

def kindName : Context → String
  | .table .. => "table"
  | .association .. => "association"
  | .projection .. => "projection"
  | .lambda .. => "lambda"
  | .update .. => "update"

def same : Context → Context → Bool
  | .table p s r, .table q t u => p == q && s == t && r == u
  | .association o s n r, .association p t m u => o == p && s == t && n == m && r == u
  | .projection p s c l b, .projection q t d m a =>
    p == q && s == t && c == d && l.same m && b == a
  | .lambda p s bs, .lambda q t cs => p == q && s == t && bs == cs
  | .update p s c, .update q t d => p == q && s == t && c == d
  | _, _ => false

end Context
end ObjectQuery
