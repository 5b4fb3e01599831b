import ObjectQuery.Compile.Scope

/-!
What member paths denote. The steps of a path are read as declared names, the longest name first; an
association leads on to the rows of its target, and a projection is looked through.
-/
namespace ObjectQuery.Compiler

open Build

variable [Observer]

/-- The rows reached through an association. They are joined in when it is first followed from its
owner. -/
def followAssociation (c : Compiler) (owner : ContextId) (name : String) (a : Association) :
    Build ContextId := do
  let ctx ← context owner
  match (ctx.rows?.elim [] Rows.followed).lookup name with
  | some rows => pure rows
  | none =>
    let target ← c.entity a.target
    let aliasName ← nextAlias
    let on := Predicate.equal (.column a.own (ctx.rows?.map Rows.aliasName)) (.column a.foreign aliasName)
    modifyStatement ctx.statement fun m =>
      { m with sources :=
          m.sources.addWeakJoin ⟨target.table, aliasName⟩ (if a.optional then .left else .inner) on }
    let rows ← addContext
      (.association owner ctx.statement name ⟨target.name, target.table, aliasName, []⟩)
    modifyContext owner (Context.follow name rows)
    pure rows

def longestMember? (e : Entity) (steps : List String) : Option (String × Member × List String) :=
  (Path.prefixes steps).findSome? fun (name, rest) =>
    (e.member? name).map fun member => (name, member, rest)

def classifyMember (c : Compiler) (rec : Calls) (id : ContextId) (steps : List String) :
    Build Denotation := do
  let ctx ← context id
  match steps with
  | [] =>
    match ctx with
    | .association .. => pure (.association id)
    | _ => pure (.table id)
  | _ =>
    let rows ← orFail (.unsupportedShape (.noTableMembers ctx.kindName)) ctx.rows?
    let e ← c.entity rows.entity
    match longestMember? e steps with
    | some (_, .column column, []) => pure (.field column rows.aliasName)
    | some (_, .computed l, []) =>
      let scope ← lambdaScope l id (some id)
      .computed <$> rec.value scope l.body
    | some (name, .association a, rest) =>
      let target ← c.followAssociation id name a
      rec.classify target rest
    | some (name, _, _) =>
      fail (.memberResolution (Dotted.join steps) (.memberWithoutMembers name e.name))
    | none =>
      if e.isComplex (Dotted.join steps) then pure (.object id steps)
      else fail (.memberResolution (Dotted.join steps) (.unknownMember e.name))

/-- The steps relative to a projected value. A path at the projection's own parameter goes on in the
projected sequence; any other value has no members. -/
def classifyValue (rec : Calls) (projection sequence : ContextId) (l : Lambda) (e : Expr)
    (steps : List String) : Build Denotation := do
  match (Path.ofExpr? e).filter fun path => l.row? = some path.root with
  | some path => rec.classify sequence (path.steps ++ steps)
  | none =>
    match steps with
    | [] =>
      let parent := (← context projection).parent
      let scope ← lambdaScope l sequence parent
      .computed <$> rec.value scope e
    | _ => fail (.memberResolution (Dotted.join steps) .valueWithoutMembers)

def classifyProjected (rec : Calls) (projection sequence : ContextId) (l : Lambda) (e : Expr) :
    List String → Build Denotation
  | [] =>
    match e.bindings? with
    | some _ => pure (.object projection [])
    | none => classifyValue rec projection sequence l e.strip []
  | name :: rest =>
    match e.bindings? with
    | none => classifyValue rec projection sequence l e.strip (name :: rest)
    | some bindings =>
      match bindings.lookup name with
      | none => fail (.memberResolution (Dotted.join (name :: rest)) .notProjected)
      | some value => do
        -- an object of the projection itself is known by all the steps that lead to it
        match ← classifyProjected rec projection sequence l value rest with
        | .object context steps =>
          if context = projection then pure (.object projection (name :: rest))
          else pure (.object context steps)
        | d => pure d

def classify (c : Compiler) (rec : Calls) (id : ContextId) (steps : List String) :
    Build Denotation := do
  match ← context id with
  | .table .. | .association .. => c.classifyMember rec id steps
  | .projection _ _ sequence l scalar =>
    if scalar then classifyValue rec id sequence l l.body.strip steps
    else classifyProjected rec id sequence l l.body.strip steps
  | .lambda .. => fail (.unsupportedShape .lambdaNotSequence)
  | .update .. => fail (.unsupportedShape .updateNotReadable)

/-- What a path denotes as seen from a scope. A fault on the way is reported for the whole path. -/
def resolve (rec : Calls) (scope : ContextId) (path : Path) : Build Denotation := do
  let sequence ← rootOf scope path
  match ← attempt (rec.classify sequence path.steps) with
  | .ok d => pure d
  | .error (.memberResolution _ fault) => fail (.memberResolution path.text fault)
  | .error e => fail e

end ObjectQuery.Compiler
