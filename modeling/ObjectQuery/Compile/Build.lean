import ObjectQuery.Compile.Context

/-!
The state of a compilation and its basic steps. A step that stops leaves the state as it was at that
moment: nothing is rolled back. A failure is a fault of the query; running out of fuel and meeting a
number that names nothing are not.
-/
namespace ObjectQuery

structure BuildState where
  statements : List Statement := []
  contexts : List Context := []
  aliases : Nat := 0
  parameters : Nat := 0
deriving Inhabited

inductive Stop where
  | failed (error : CompileError)
  | outOfFuel
  | dangling
deriving DecidableEq, Inhabited

abbrev Build := ExceptT Stop (StateM BuildState)

/-- Someone who may stop a compilation at any state that it writes, as if its fuel had run out there. The
states that a compilation passes through are those at which it can be stopped. -/
class Observer where
  stops : BuildState → Bool

/-- Nobody stops a compilation unless a statement says so. -/
instance (priority := low) Observer.absent : Observer := ⟨fun _ => false⟩

namespace Build

variable [Observer]

def run {α : Type} (act : Build α) (s : BuildState) : Except Stop α × BuildState :=
  (ExceptT.run act).run s

def fail {α : Type} (e : CompileError) : Build α :=
  throw (.failed e)

def orDangling {α : Type} : Option α → Build α
  | some a => pure a
  | none => throw .dangling

def orFail {α : Type} (e : CompileError) : Option α → Build α
  | some a => pure a
  | none => fail e

def attempt {α : Type} (act : Build α) : Build (Except CompileError α) := fun s =>
  match act.run s with
  | (.ok a, s) => (.ok (.ok a), s)
  | (.error (.failed e), s) => (.ok (.error e), s)
  | (.error stop, s) => (.error stop, s)

def orStop {α : Type} : Except Stop α → Build α
  | .ok a => pure a
  | .error stop => throw stop

def ofExcept {α : Type} : Except CompileError α → Build α
  | .ok a => pure a
  | .error e => fail e

def inContext {α : Type} (context : String) (act : Build α) : Build α := do
  match ← attempt act with
  | .ok a => pure a
  | .error e => fail (.inContext context e)

def context (id : ContextId) : Build Context := do
  orDangling (← get).contexts[id]?

def statement (id : StatementId) : Build Statement := do
  orDangling (← get).statements[id]?

/-- Every change of the state is made here. -/
def write (f : BuildState → BuildState) : Build Unit := do
  modify f
  if Observer.stops (← get) then throw .outOfFuel

def addContext (c : Context) : Build ContextId := do
  let s ← get
  write fun s => { s with contexts := s.contexts ++ [c] }
  pure s.contexts.length

def addStatement (m : Statement) : Build StatementId := do
  let s ← get
  write fun s => { s with statements := s.statements ++ [m] }
  pure s.statements.length

def modifyContext (id : ContextId) (f : Context → Context) : Build Unit := do
  let _ ← context id
  write fun s => { s with contexts := s.contexts.modify id f }

def modifyStatement (id : StatementId) (f : Statement → Statement) : Build Unit := do
  let _ ← statement id
  write fun s => { s with statements := s.statements.modify id f }

/-- Aliases are `t1`, `t2` and so on. -/
def aliasText (n : Nat) : String :=
  "t" ++ toString n

omit [Observer] in
theorem eq_of_numbered {text : String} {m n : Nat} (h : text ++ toString m = text ++ toString n) : m = n := by
  have hd : Nat.toDigits 10 m = Nat.toDigits 10 n := by
    simpa using congrArg String.toList h
  simpa using congrArg (Nat.ofDigitChars 10 · 0) hd

omit [Observer] in
theorem aliasText_injective {m n : Nat} (h : aliasText m = aliasText n) : m = n :=
  eq_of_numbered h

def nextAlias : Build String := do
  let s ← get
  write fun s => { s with aliases := s.aliases + 1 }
  pure (aliasText (s.aliases + 1))

def nextParameter : Build String := do
  let s ← get
  write fun s => { s with parameters := s.parameters + 1 }
  pure ("p" ++ toString (s.parameters + 1))

/-- Runs the action with the context under another parent for its duration, whether or not it fails. -/
def withParent {α : Type} (id : ContextId) (parent : Option ContextId) (act : Build α) : Build α := do
  let previous := (← context id).parent
  modifyContext id (Context.withParent parent)
  let result ← attempt act
  modifyContext id (Context.withParent previous)
  ofExcept result

/-- Read operators apply to anything but an update. -/
def ensureComposable (id : ContextId) (operation : String) : Build Unit := do
  if (← context id).isUpdate then fail (.unsupportedShape (.notComposable operation))

end Build
end ObjectQuery
