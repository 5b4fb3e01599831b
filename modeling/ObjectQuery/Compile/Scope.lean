import ObjectQuery.Compile.Compiler

/-!
Lambda scopes: a scope binds the row parameter of a lambda to a sequence, and a parameter is looked up
along the parents.
-/
namespace ObjectQuery

/-- The binding of a parameter in the first of at most `fuel` contexts that has one, from `start` along
the parents. -/
def bindingFrom (contexts : List Context) (parameter : String) :
    Nat → Option ContextId → Except Stop (Option ContextId)
  | _, none => .ok none
  | 0, some _ => .error .outOfFuel
  | fuel + 1, some id =>
    match contexts[id]? with
    | none => .error .dangling
    | some c =>
      match c.binding? parameter with
      | some sequence => .ok (some sequence)
      | none => bindingFrom contexts parameter fuel c.parent

namespace Build

/-- Parents without a circle pass every context at most once. -/
def findBinding? (scope : ContextId) (parameter : String) : Build (Option ContextId) := do
  let s ← get
  orStop (bindingFrom s.contexts parameter s.contexts.length (some scope))

def rootOf (scope : ContextId) (path : Path) : Build ContextId := do
  orFail (.memberResolution path.text (.notInScope path.root)) (← findBinding? scope path.root)

variable [Observer]

def lambdaScope (l : Lambda) (sequence : ContextId) (parent : Option ContextId) : Build ContextId := do
  let row ← orFail (.unsupportedShape .lambdaWithoutParameters) l.row?
  let statement := (← context sequence).statement
  addContext (.lambda parent statement [(row, sequence)])

end Build
end ObjectQuery
