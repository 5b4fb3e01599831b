import ObjectQuery.Compile.Build
import ObjectQuery.Query.Node
import ObjectQuery.Query.Path
import ObjectQuery.Schema.Mapping
import ObjectQuery.Settings

/-!
What a compilation reads and never changes: the schema, the builders that it may use, the settings. The
functions that call each other in circles take those calls as an argument, so each is one step without
recursion of its own.
-/
namespace ObjectQuery

inductive Builder where
  | source | filter | select | update | set
deriving DecidableEq, Inhabited

namespace Builder

def name : Builder → String
  | .source => "source"
  | .filter => "where"
  | .select => "select"
  | .update => "update"
  | .set => "set"

def all : List Builder :=
  [.source, .filter, .select, .update, .set]

def claims (b : Builder) (node : Node) : Bool :=
  match b, node.kind with
  | .source, .source =>
    match node.arguments with
    | [.entity _] => true
    | _ => false
  | .filter, .filter | .select, .select =>
    node.primary?.isSome &&
      match node.operands with
      | [.lambda _] => true
      | _ => false
  | .update, .update =>
    node.primary?.isSome &&
      match node.operands with
      | [] | [.lambda _] | [.lambda _, .lambda _] | [.sequence _, .lambda _] => true
      | _ => false
  | .set, .set =>
    node.primary?.isSome &&
      match node.operands with
      | [.lambda _, .value _] | [.lambda _, .lambda _] => true
      | _ => false
  | _, _ => false

def kind : Builder → OperatorKind
  | .source => .source
  | .filter => .filter
  | .select => .select
  | .update => .update
  | .set => .set

theorem kind_of_claims {node : Node} {b : Builder} (h : b.claims node) : node.kind = b.kind := by
  obtain ⟨kind, arguments⟩ := node
  cases b <;> cases kind <;> first | rfl | cases h

theorem eq_of_claims {node : Node} {b b' : Builder} (h : b.claims node) (h' : b'.claims node) : b = b' := by
  have hkind : b.kind = b'.kind := (kind_of_claims h).symm.trans (kind_of_claims h')
  cases b <;> cases b' <;> first | rfl | cases hkind

end Builder

structure Compiler where
  schema : Schema
  builders : List Builder := Builder.all
  settings : Settings := {}

/-- What a member path stands for. The steps of an object are relative to its context. -/
inductive Denotation where
  | table (rows : ContextId)
  | association (rows : ContextId)
  | field (column : ColumnId) (aliasName : String)
  | computed (value : SqlExpr)
  | object (context : ContextId) (steps : List String)
deriving Inhabited

inductive Extent where
  | field | key | all
deriving DecidableEq, Inhabited

/-- Calls from one step of a compilation to others. -/
structure Calls where
  value : ContextId → Expr → Build SqlExpr
  condition : ContextId → Expr → Build Predicate
  classify : ContextId → List String → Build Denotation
  members : ContextId → List String → Extent → Build (List (Option String × SqlExpr))
  sequence : Option ContextId → Node → Build ContextId

def Calls.exhausted : Calls where
  value _ _ := throw .outOfFuel
  condition _ _ := throw .outOfFuel
  classify _ _ := throw .outOfFuel
  members _ _ _ := throw .outOfFuel
  sequence _ _ := throw .outOfFuel

namespace Compiler

def entity (c : Compiler) (name : String) : Build Entity :=
  Build.orFail (.unknownEntity name) (c.schema.mapping.entity? name)

def entityOver (c : Compiler) (table : TableId) : Build Entity := do
  let t ← Build.orDangling (c.schema.database.table? table)
  Build.orFail (.unknownEntity ("<entity for table " ++ t.name ++ ">"))
    (c.schema.mapping.entityOver? table)

/-- Exactly one builder must claim the operator; the order of the builders never decides. -/
def builderFor (c : Compiler) (node : Node) : Except CompileError Builder :=
  match c.builders.filter (Builder.claims · node) with
  | [b] => .ok b
  | candidates => .error (.ambiguousBuilder node.kind.describe (candidates.map Builder.name))

theorem claims_of_builderFor {c : Compiler} {node : Node} {b : Builder} (h : c.builderFor node = .ok b) :
    b.claims node := by
  unfold builderFor at h
  split at h
  · next b' hf =>
    cases h
    have hmem : b ∈ c.builders.filter (Builder.claims · node) := by simp [hf]
    exact (List.mem_filter.mp hmem).2
  · cases h

theorem kind_of_builderFor {c : Compiler} {node : Node} {b : Builder} (h : c.builderFor node = .ok b) :
    node.kind = b.kind :=
  Builder.kind_of_claims (claims_of_builderFor h)

end Compiler
end ObjectQuery
