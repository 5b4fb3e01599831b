import ObjectQuery.Query.Expr

/-!
The fluent form of operator trees, and the two parts of an operator's arguments: the sequence that it
applies to, if it comes first, and the operands after it.
-/
namespace ObjectQuery.Node

def primary? (node : Node) : Option Node :=
  match node.arguments with
  | .sequence source :: _ => some source
  | _ => none

def operands (node : Node) : List Argument :=
  match node.arguments with
  | .sequence _ :: rest => rest
  | arguments => arguments

def source (entity : String) : Node :=
  ⟨.source, [.entity entity]⟩

def chain (node : Node) (kind : OperatorKind) (operands : List Argument) : Node :=
  ⟨kind, .sequence node :: operands⟩

def filter (node : Node) (condition : Lambda) : Node :=
  node.chain .filter [.lambda condition]

def select (node : Node) (projection : Lambda) : Node :=
  node.chain .select [.lambda projection]

/-- Update with the items set so far. -/
def update (node : Node) : Node :=
  node.chain .update []

def updateWith (node : Node) (setter : Lambda) : Node :=
  node.chain .update [.lambda setter]

def updateWhere (node : Node) (condition setter : Lambda) : Node :=
  node.chain .update [.lambda condition, .lambda setter]

/-- The rows of this sequence drive assignments to the rows of another one. -/
def updateInto (node target : Node) (setter : Lambda) : Node :=
  node.chain .update [.sequence target, .lambda setter]

def set (node : Node) (member : Lambda) (value : Expr) : Node :=
  node.chain .set [.lambda member, .value value]

def setWith (node : Node) (member value : Lambda) : Node :=
  node.chain .set [.lambda member, .lambda value]

@[simp] theorem primary?_chain (node : Node) (kind : OperatorKind) (operands : List Argument) :
    (node.chain kind operands).primary? = some node := rfl

@[simp] theorem operands_chain (node : Node) (kind : OperatorKind) (operands : List Argument) :
    (node.chain kind operands).operands = operands := rfl

end ObjectQuery.Node
