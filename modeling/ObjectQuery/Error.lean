import ObjectQuery.Query.Describe

/-!
What can be wrong with a query, as causes; `CompileError.message` has the wording. A fault that a caller
of the library states in words of its own is kept as stated.
-/
namespace ObjectQuery

inductive ResolutionFault where
  | notInScope (parameter : String)
  | unknownMember (entity : String)
  | memberWithoutMembers (name entity : String)
  | notProjected
  | valueWithoutMembers
  | notAValue
  | stated (text : String)
deriving DecidableEq, Inhabited

def ResolutionFault.message : ResolutionFault → String
  | .notInScope parameter => "parameter '" ++ parameter ++ "' is not in scope"
  | .unknownMember entity => "no such member in " ++ entity
  | .memberWithoutMembers name entity => "'" ++ name ++ "' of " ++ entity ++ " has no members"
  | .notProjected => "no such member in the projection"
  | .valueWithoutMembers => "a projected value has no members"
  | .notAValue => "refers to a row or an object, not a value"
  | .stated text => text

/-- An expression found in the wrong place is kept as its description. -/
inductive ShapeFault where
  | missingSequence (kind : OperatorKind)
  | sourceArguments
  | filterArguments
  | projectionArguments
  | updateArguments
  | setArguments
  | setValue
  | notComposable (operation : String)
  | targetNotTable (context : String)
  | setterNotObject
  | lambdaWithoutParameters
  | lambdaNotSequence
  | updateNotReadable
  | updateNotQueryable
  | noTableMembers (context : String)
  | noColumns (context : String)
  | memberOfNonParameter (found : String)
  | constructionAsValue
  | notACondition (op : Arithmetic)
  | aggregateOverRows (function : Aggregate)
  | stated (text : String)
deriving DecidableEq, Inhabited

def ShapeFault.message : ShapeFault → String
  | .missingSequence kind => kind.describe ++ " requires a source sequence"
  | .sourceArguments => "a source must name an entity"
  | .filterArguments => "a filter takes a single predicate"
  | .projectionArguments => "a projection takes a single lambda"
  | .updateArguments => "unrecognized update arguments"
  | .setArguments => "a set takes a member selector and a value"
  | .setValue => "a set value must be an expression or a lambda"
  | .notComposable operation => "cannot apply " ++ operation ++ " to an update statement"
  | .targetNotTable context =>
    "the target of an update must be a table, not a " ++ context ++ " context"
  | .setterNotObject => "a setter must construct an object or refer to one"
  | .lambdaWithoutParameters => "a lambda without parameters"
  | .lambdaNotSequence => "a lambda scope is not a sequence"
  | .updateNotReadable => "an update statement has no readable members"
  | .updateNotQueryable => "an update statement cannot be queried"
  | .noTableMembers context => "a " ++ context ++ " context has no table members"
  | .noColumns context => "a " ++ context ++ " context has no columns"
  | .memberOfNonParameter found =>
    "member access on something other than a lambda parameter: " ++ found
  | .constructionAsValue => "object construction is only supported in projections and setters"
  | .notACondition op => op.describe ++ " does not produce a condition"
  | .aggregateOverRows function => function.name ++ " over rows requires a selector"
  | .stated text => text

inductive SelectorFault where
  | noParameter
  | notAMember (parameter found : String)
  | stated (text : String)
deriving DecidableEq, Inhabited

def SelectorFault.message : SelectorFault → String
  | .noParameter => "a member selector without a parameter"
  | .notAMember parameter found => "expected a member of '" ++ parameter ++ "', found " ++ found
  | .stated text => text

inductive StatementFault where
  | itemsWithoutUpdate
  | noTarget
  | noItems
  | stated (text : String)
deriving DecidableEq, Inhabited

def StatementFault.message : StatementFault → String
  | .itemsWithoutUpdate => "set items without an update"
  | .noTarget => "update statement has no target table"
  | .noItems => "update statement has no set items"
  | .stated text => text

inductive CompileError where
  | memberResolution (path : String) (fault : ResolutionFault)
  | notSettable (member : String)
  | malformedSelector (fault : SelectorFault)
  | unsupportedShape (fault : ShapeFault)
  | ambiguousTarget (first second : String)
  | ambiguousBuilder (operator : String) (candidates : List String)
  | unknownEntity (name : String)
  | setterTooDeep (limit : Nat)
  | incompleteStatement (fault : StatementFault)
  | inContext (context : String) (cause : CompileError)
deriving DecidableEq, Inhabited

namespace CompileError

def message : CompileError → String
  | .memberResolution path fault =>
    "Could not resolve member '" ++ path ++ "': " ++ fault.message
  | .notSettable member => "Member '" ++ member ++ "' is not a settable column"
  | .malformedSelector fault => "Malformed setter: " ++ fault.message
  | .unsupportedShape fault => "Unsupported query shape: " ++ fault.message
  | .ambiguousTarget first second =>
    "Update target is ambiguous: already '" ++ first ++ "', now '" ++ second ++ "'"
  | .ambiguousBuilder operator candidates =>
    "Expected exactly one builder for " ++ operator ++ ", found " ++ bracketed candidates
  | .unknownEntity name => "Unknown entity '" ++ name ++ "'"
  | .setterTooDeep limit => "Setter nesting exceeds the limit of " ++ toString limit
  | .incompleteStatement fault => "Incomplete statement: " ++ fault.message
  | .inContext context cause => context ++ " " ++ cause.message

/-- The innermost error, under any contexts. -/
def rootCause : CompileError → CompileError
  | .inContext _ cause => cause.rootCause
  | e => e

end CompileError
end ObjectQuery
