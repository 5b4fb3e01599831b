import ObjectQuery.Query.Expr
import ObjectQuery.Binary64.Shortest
import ObjectQuery.Text.Quoted

/-!
The text of an expression in a message: constructors by name, fields in braces, strings quoted.
-/
namespace ObjectQuery

/-- Zeros pad the digits of `digits * 10 ^ exponent` around the point; a whole number keeps one decimal. -/
def Binary64.positional (digits : Nat) (exponent : Int) : String :=
  let ds := Nat.toDigits 10 digits
  if 0 ≤ exponent then String.ofList (ds ++ List.replicate exponent.toNat '0') ++ ".0"
  else
    let places := (-exponent).toNat
    let padded := List.replicate (places + 1 - ds.length) '0' ++ ds
    let whole := padded.length - places
    String.ofList (padded.take whole) ++ "." ++ String.ofList (padded.drop whole)

def Binary64.scientific (digits : Nat) (exponent : Int) : String :=
  let ds := Nat.toDigits 10 digits
  let power := exponent + (ds.length - 1 : Nat)
  let fraction := if ds.length ≤ 1 then "" else "." ++ String.ofList ds.tail
  String.ofList (ds.take 1) ++ fraction ++ "e" ++ toString power

/-- Shortest digits, positional from `1e-4` up to, but not including, `1e16`. -/
def Binary64.describe (x : Binary64) : String :=
  if x.isNaN then "NaN"
  else
    let sign := if x.negative then "-" else ""
    if x.isInfinite then sign ++ "inf"
    else if x.isZero then sign ++ "0.0"
    else
      let (digits, exponent) := x.shortest
      let power := exponent + ((Nat.toDigits 10 digits).length - 1 : Nat)
      if -4 ≤ power ∧ power < 16 then sign ++ positional digits exponent
      else sign ++ scientific digits exponent

def Literal.describe : Literal → String
  | .bool b => "Bool(" ++ toString b ++ ")"
  | .int i => "Int(" ++ toString i ++ ")"
  | .float x => "Float(" ++ x.describe ++ ")"
  | .text s => "String(" ++ Text.quoted s ++ ")"

def Arithmetic.describe : Arithmetic → String
  | .add => "Add"
  | .subtract => "Subtract"
  | .multiply => "Multiply"
  | .divide => "Divide"
  | .concat => "Concat"

def Comparison.describe : Comparison → String
  | .equal => "Equal"
  | .unequal => "NotEqual"
  | .less => "LessThan"
  | .lessOrEqual => "LessThanOrEqual"
  | .greater => "GreaterThan"
  | .greaterOrEqual => "GreaterThanOrEqual"

def BinaryOperator.describe : BinaryOperator → String
  | .arithmetic op => op.describe
  | .comparison op => op.describe
  | .and => "AndAlso"
  | .or => "OrElse"

def Aggregate.describe : Aggregate → String
  | .count => "Count"
  | .sum => "Sum"
  | .min => "Min"
  | .max => "Max"
  | .avg => "Avg"

def OperatorKind.describe : OperatorKind → String
  | .source => "Source"
  | .filter => "Where"
  | .select => "Select"
  | .update => "Update"
  | .set => "Set"

/-- A list in brackets, its items separated by commas. -/
def bracketed (items : List String) : String :=
  "[" ++ ", ".intercalate items ++ "]"

mutual

def Expr.describe : Expr → String
  | .parameter name => "Parameter(" ++ Text.quoted name ++ ")"
  | .member object name =>
    "Member \x7b object: " ++ object.describe ++ ", member: " ++ Text.quoted name ++ " \x7d"
  | .literal value => "Constant(" ++ value.describe ++ ")"
  | .external name => "External(" ++ Text.quoted name ++ ")"
  | .null => "Null"
  | .convert inner => "Convert(" ++ inner.describe ++ ")"
  | .binary op lhs rhs =>
    "Binary \x7b operator: " ++ op.describe ++ ", lhs: " ++ lhs.describe ++ ", rhs: " ++ rhs.describe
      ++ " \x7d"
  | .not inner => "Not(" ++ inner.describe ++ ")"
  | .call function args =>
    "Call \x7b function: " ++ Text.quoted function ++ ", args: " ++ bracketed (Expr.describeAll args)
      ++ " \x7d"
  | .construct bindings => "New(" ++ bracketed (Expr.describeBindings bindings) ++ ")"
  | .aggregate function source selector =>
    "Aggregate \x7b function: " ++ function.describe ++ ", source: " ++ source.describe
      ++ ", selector: " ++ Lambda.describeOption selector ++ " \x7d"

def Expr.describeAll : List Expr → List String
  | [] => []
  | e :: es => e.describe :: Expr.describeAll es

def Expr.describeBindings : List (String × Expr) → List String
  | [] => []
  | (name, value) :: rest =>
    ("MemberBinding \x7b member: " ++ Text.quoted name ++ ", value: " ++ value.describe ++ " \x7d")
      :: Expr.describeBindings rest

def Lambda.describe : Lambda → String
  | ⟨parameters, body⟩ =>
    "Lambda \x7b parameters: " ++ bracketed (parameters.map Text.quoted) ++ ", body: "
      ++ body.describe ++ " \x7d"

def Lambda.describeOption : Option Lambda → String
  | none => "None"
  | some l => "Some(" ++ l.describe ++ ")"

def Node.describe : Node → String
  | ⟨kind, arguments⟩ =>
    "OperatorNode \x7b kind: " ++ kind.describe ++ ", arguments: "
      ++ bracketed (Argument.describeAll arguments) ++ " \x7d"

def Argument.describe : Argument → String
  | .sequence node => "Sequence(" ++ node.describe ++ ")"
  | .lambda l => "Lambda(" ++ l.describe ++ ")"
  | .entity name => "Entity(" ++ Text.quoted name ++ ")"
  | .value e => "Value(" ++ e.describe ++ ")"

def Argument.describeAll : List Argument → List String
  | [] => []
  | a :: as => a.describe :: Argument.describeAll as

end

end ObjectQuery
