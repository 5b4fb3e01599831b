import ObjectQuery.Compile.Operator

/-!
Whole queries. `Compiler.compile` gives the statements and contexts of one operator tree, or the reason
why there are none.
-/
namespace ObjectQuery

structure CompiledQuery where
  statements : List Statement
  contexts : List Context
  root : StatementId
  rootContext : ContextId
deriving Inhabited

namespace CompiledQuery

/-- Every statement must be complete; the first that is not decides. -/
def validate (q : CompiledQuery) : Except CompileError Unit :=
  q.statements.forM Statement.validate

def same (a b : CompiledQuery) : Bool :=
  a.root == b.root && a.rootContext == b.rootContext &&
    a.statements.length == b.statements.length && a.contexts.length == b.contexts.length &&
    (a.statements.zip b.statements).all (fun (x, y) => x.same y) &&
    (a.contexts.zip b.contexts).all fun (x, y) => x.same y

end CompiledQuery

namespace Compiler

open Build

def standardFuel : Nat := 20000

/-- A read statement selects whatever its root stands for. -/
def finish [Observer] (rec : Calls) (id : ContextId) : Build (StatementId × ContextId) := do
  unless (← context id).isUpdate do
    let _ ← selectItems rec id [] .all
  pure ((← context id).statement, id)

def root [Observer] (c : Compiler) (fuel : Nat) (node : Node) : Build (StatementId × ContextId) := do
  let id ← (c.calls fuel).sequence none node
  finish (c.calls fuel) id

def compile (c : Compiler) (fuel : Nat) (node : Node) : Except Stop CompiledQuery :=
  match (c.root fuel node).run {} with
  | (.ok (number, id), s) => .ok ⟨s.statements, s.contexts, number, id⟩
  | (.error stop, _) => .error stop

theorem of_compile {c : Compiler} {fuel : Nat} {node : Node} {q : CompiledQuery} (h : c.compile fuel node = .ok q) :
    ∃ number id s, (c.root fuel node).run {} = (.ok (number, id), s) ∧
      q = ⟨s.statements, s.contexts, number, id⟩ := by
  unfold compile at h
  split at h
  · next number id s hrun =>
    cases h
    exact ⟨number, id, s, hrun, rfl⟩
  · cases h

end Compiler
end ObjectQuery
