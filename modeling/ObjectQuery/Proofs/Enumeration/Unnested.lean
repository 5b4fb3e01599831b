import ObjectQuery.Proofs.Halting.Paths
import ObjectQuery.Proofs.Laws.Operator
import ObjectQuery.Proofs.Mirror.Shape

/-!
Queries without queries nested in them. Compiling one enters no projection but its own, so the bodies of all projections
of a compilation are as the queries have them.
-/
namespace ObjectQuery

open Build

mutual

/-- No query is nested in the expression, and constructions give their members such names. -/
def Expr.Unnested (named : String → Prop) : Expr → Prop
  | .member e _ | .convert e | .not e => e.Unnested named
  | .binary _ lhs rhs => lhs.Unnested named ∧ rhs.Unnested named
  | .call _ args => Expr.UnnestedAll named args
  | .construct bindings => Expr.UnnestedBindings named bindings
  | .aggregate .. => False
  | .parameter _ | .literal _ | .external _ | .null => True
  termination_by structural e => e

def Expr.UnnestedAll (named : String → Prop) : List Expr → Prop
  | [] => True
  | e :: es => e.Unnested named ∧ Expr.UnnestedAll named es
  termination_by structural es => es

def Expr.UnnestedBindings (named : String → Prop) : List (String × Expr) → Prop
  | [] => True
  | (name, e) :: bs => (named name ∧ e.Unnested named) ∧ Expr.UnnestedBindings named bs
  termination_by structural bs => bs

end

mutual

def Node.Unnested (named : String → Prop) : Node → Prop
  | ⟨_, arguments⟩ => Argument.UnnestedAll named arguments
  termination_by structural node => node

def Argument.UnnestedAll (named : String → Prop) : List Argument → Prop
  | [] => True
  | .sequence node :: as => node.Unnested named ∧ Argument.UnnestedAll named as
  | .lambda f :: as => f.body.Unnested named ∧ Argument.UnnestedAll named as
  | .entity _ :: as => Argument.UnnestedAll named as
  | .value e :: as => e.Unnested named ∧ Argument.UnnestedAll named as
  termination_by structural as => as

end

/-- No query is nested in a computed member. -/
def Schema.Unnested (schema : Schema) : Prop :=
  ∀ (name : String) (e : Entity) (member : String) (f : Lambda), schema.mapping.entity? name = some e →
    e.member? member = some (.computed f) → f.body.Unnested fun _ => True

def Context.Unnested (named : String → Prop) : Context → Prop
  | .projection _ _ _ f _ => f.body.Unnested named
  | _ => True

def BuildState.Unnested (named : String → Prop) (s : BuildState) : Prop :=
  ∀ d ∈ s.contexts, d.Unnested named

variable {named : String → Prop}

theorem Expr.unnestedAll_iff {es : List Expr} : Expr.UnnestedAll named es ↔ ∀ e ∈ es, e.Unnested named := by
  induction es with
  | nil => simp [UnnestedAll]
  | cons e es ih => rw [UnnestedAll, ih, List.forall_mem_cons]

theorem Expr.unnestedBindings_iff {bs : List (String × Expr)} :
    Expr.UnnestedBindings named bs ↔ ∀ b ∈ bs, named b.1 ∧ b.2.Unnested named := by
  induction bs with
  | nil => simp [UnnestedBindings]
  | cons b bs ih => rw [UnnestedBindings, ih, List.forall_mem_cons]

theorem Expr.Unnested.strip {e : Expr} (h : e.Unnested named) : e.strip.Unnested named := by
  induction e using Expr.strip.induct with
  | case1 inner ih => exact ih h
  | case2 e hne =>
    cases e with
    | convert inner => exact absurd rfl (hne inner)
    | _ => exact h

theorem Expr.Unnested.bindings {e : Expr} {bindings : List (String × Expr)} (h : e.Unnested named)
    (hb : e.bindings? = some bindings) : ∀ b ∈ bindings, named b.1 ∧ b.2.Unnested named := by
  have hstrip := h.strip
  rw [Expr.strip_of_bindings? hb] at hstrip
  exact unnestedBindings_iff.mp hstrip

theorem Expr.Unnested.lookup {e value : Expr} {bindings : List (String × Expr)} {name : String} (h : e.Unnested named)
    (hb : e.bindings? = some bindings) (hl : bindings.lookup name = some value) : value.Unnested named :=
  (h.bindings hb _ (mem_of_lookup hl)).2

theorem Node.Unnested.primary {node source : Node} (h : node.Unnested named) (hs : node.primary? = some source) :
    source.Unnested named := by
  rw [Node.eq_chain hs] at h
  exact h.1

theorem Node.Unnested.operands {node : Node} (h : node.Unnested named) : Argument.UnnestedAll named node.operands := by
  obtain ⟨kind, arguments⟩ := node
  cases arguments with
  | nil => exact trivial
  | cons a as =>
    cases a with
    | sequence => exact h.2
    | _ => exact h

/-! Compiling such a query leaves all projections so. -/

namespace Build

variable {α β : Type}

/-- However the action ends, no projection has a query nested in it if none had before. -/
def Stays (named : String → Prop) (act : Build α) : Prop :=
  ∀ s : BuildState, s.Unnested named → (act.run s).2.Unnested named

namespace Stays

theorem of_reads {act : Build α} (h : act.Reads) : Stays named act :=
  fun s hs => (h s).symm ▸ hs

theorem pure (a : α) : Stays named (pure a : Build α) :=
  of_reads (reads_pure a)

theorem throw (stop : Stop) : Stays named (throw stop : Build α) :=
  of_reads (reads_throw stop)

theorem fail (e : CompileError) : Stays named (fail e : Build α) :=
  throw _

/-- What is known of the result may be used after it. -/
theorem bind_of_run {act : Build α} {next : α → Build β} (h : Stays named act)
    (hn : ∀ a s t, act.run s = (.ok a, t) → Stays named (next a)) : Stays named (act >>= next) := by
  intro s hs
  have ht := h s hs
  rw [run_bind]
  cases hr : act.run s with
  | mk result t =>
    rw [hr] at ht
    cases result with
    | error stop => exact ht
    | ok a => exact hn a s t hr t ht

theorem bind {act : Build α} {next : α → Build β} (h : Stays named act) (hn : ∀ a, Stays named (next a)) :
    Stays named (act >>= next) :=
  h.bind_of_run fun a _ _ _ => hn a

theorem read {act : Build α} {next : α → Build β} (hr : act.Reads) (hn : ∀ a, Stays named (next a)) :
    Stays named (act >>= next) :=
  (of_reads hr).bind hn

/-- A context that is read is as all of them are. -/
theorem context {id : ContextId} {next : Context → Build β} (hn : ∀ d, d.Unnested named → Stays named (next d)) :
    Stays named (context id >>= next) := by
  intro s hs
  rw [run_bind, run_context]
  cases hd : s.contexts[id]? with
  | none => exact hs
  | some d => exact hn d (hs d (List.mem_of_getElem? hd)) s hs

theorem map {act : Build α} {f : α → β} (h : Stays named act) : Stays named (f <$> act) := by
  rw [← bind_pure_comp]
  exact h.bind fun a => .pure (f a)

theorem attempt {act : Build α} (h : Stays named act) : Stays named (attempt act) := by
  intro s hs
  have ht := h s hs
  rw [run_attempt]
  cases hr : act.run s with
  | mk result t =>
    rw [hr] at ht
    cases result with
    | error stop => cases stop <;> exact ht
    | ok a => exact ht

theorem mapM {f : α → Build β} (xs : List α) (hf : ∀ x ∈ xs, Stays named (f x)) : Stays named (xs.mapM f) := by
  induction xs with
  | nil => exact .pure []
  | cons x xs ih =>
    rw [List.mapM_cons]
    refine (hf x List.mem_cons_self).bind fun b => ?_
    exact (ih fun y hy => hf y (List.mem_cons_of_mem x hy)).bind fun bs => .pure (b :: bs)

theorem forM {f : α → Build PUnit} (xs : List α) (hf : ∀ x, Stays named (f x)) : Stays named (xs.forM f) := by
  induction xs with
  | nil => exact .pure ()
  | cons x xs ih => exact (hf x).bind fun _ => ih

variable [Observer]

theorem write {f : BuildState → BuildState} (hf : ∀ s, s.Unnested named → (f s).Unnested named) :
    Stays named (write f) := by
  intro s hs
  rw [run_write]
  exact hf s hs

theorem addContext {d : Context} (hd : d.Unnested named) : Stays named (addContext d) := by
  refine .read reads_get fun _ => (write fun s hs e he => ?_).bind fun _ => .pure _
  rcases List.mem_append.mp he with he | he
  · exact hs e he
  · rwa [List.mem_singleton.mp he]

theorem modifyContext {id : ContextId} {f : Context → Context} (hf : ∀ d, d.Unnested named → (f d).Unnested named) :
    Stays named (modifyContext id f) := by
  refine .read (reads_context id) fun _ => write fun s hs e he => ?_
  obtain ⟨k, hk⟩ := List.mem_iff_getElem?.mp he
  rw [List.getElem?_modify] at hk
  obtain ⟨d, hd, rfl⟩ := Option.map_eq_some_iff.mp hk
  have hu := hs d (List.mem_of_getElem? hd)
  split
  · exact hf d hu
  · exact hu

theorem modifyStatement {m : StatementId} {f : Statement → Statement} : Stays named (modifyStatement m f) :=
  .read (reads_statement m) fun _ => write fun _ hs => hs

theorem addStatement {st : Statement} : Stays named (addStatement st) :=
  .read reads_get fun _ => .bind (.write fun _ hs => hs) fun _ => .pure _

theorem nextAlias : Stays named nextAlias :=
  .read reads_get fun _ => .bind (.write fun _ hs => hs) fun _ => .pure _

theorem nextParameter : Stays named nextParameter :=
  .read reads_get fun _ => .bind (.write fun _ hs => hs) fun _ => .pure _

theorem lambdaScope (l : Lambda) (sequence : ContextId) (parent : Option ContextId) :
    Stays named (lambdaScope l sequence parent) :=
  .read (reads_orFail _ _) fun _ => .read (reads_context _) fun _ => .addContext trivial

theorem modifyParent {id : ContextId} {parent : Option ContextId} :
    Stays named (Build.modifyContext id (Context.withParent parent)) :=
  .modifyContext fun d hd => by cases d <;> exact hd

theorem withParent {id : ContextId} {parent : Option ContextId} {act : Build α} (h : Stays named act) :
    Stays named (withParent id parent act) := by
  refine .read (reads_context id) fun d => modifyParent.bind fun _ => h.attempt.bind fun r => ?_
  exact modifyParent.bind fun _ => .of_reads (reads_ofExcept r)

end Stays

end Build

/-- All calls leave the projections so. Members may be named in any way where no projection is made of them. -/
structure Calls.Stay (rec : Calls) (named : String → Prop) : Prop where
  value : ∀ {any : String → Prop} scope {e : Expr}, e.Unnested any → Stays named (rec.value scope e)
  condition : ∀ {any : String → Prop} scope {e : Expr}, e.Unnested any → Stays named (rec.condition scope e)
  classify : ∀ id steps, Stays named (rec.classify id steps)
  members : ∀ id steps extent, Stays named (rec.members id steps extent)
  sequence : ∀ parent {node : Node}, node.Unnested named → Stays named (rec.sequence parent node)

namespace Compiler

variable [Observer] {c : Compiler} {rec : Calls} {any : String → Prop}

theorem stays_followAssociation (owner : ContextId) (name : String) (a : Association) :
    Stays named (c.followAssociation owner name a) := by
  refine .read (reads_context owner) fun d => ?_
  split
  · exact .pure _
  · refine .read (reads_orFail _ _) fun target => Stays.nextAlias.bind fun aliasName => ?_
    refine Stays.modifyStatement.bind fun _ => .bind (.addContext trivial) fun rows => ?_
    refine (Stays.modifyContext fun d hd => ?_).bind fun _ => .pure _
    cases d <;> exact hd

theorem stays_classifyMember (hc : c.schema.Unnested) (h : rec.Stay named) (id : ContextId) (steps : List String) :
    Stays named (c.classifyMember rec id steps) := by
  refine .read (reads_context id) fun d => ?_
  cases steps with
  | nil => cases d <;> exact .pure _
  | cons step steps =>
    refine .read (reads_orFail _ _) fun r s hs => ?_
    rw [entity, run_bind]
    cases he : c.schema.mapping.entity? r.entity with
    | none => exact hs
    | some e =>
      refine (?_ : Stays named _) s hs
      split
      · exact .pure _
      · next name l hl =>
        have hl := hc _ _ _ _ he (member?_of_longestMember? hl)
        exact (Stays.lambdaScope l id (some id)).bind fun scope => .map (h.value scope hl)
      · next name a rest _ => exact (stays_followAssociation id name a).bind fun target => h.classify target rest
      · exact .fail _
      · split
        · exact .pure _
        · exact .fail _

theorem stays_classifyValue (h : rec.Stay named) (projection sequence : ContextId) (l : Lambda) {e : Expr}
    (he : e.Unnested any) (steps : List String) : Stays named (classifyValue rec projection sequence l e steps) := by
  unfold classifyValue
  split
  · exact h.classify _ _
  · cases steps with
    | nil =>
      refine .read (reads_context projection) fun d => (Stays.lambdaScope l sequence d.parent).bind fun scope => ?_
      exact .map (h.value scope he)
    | cons step steps => exact .fail _

theorem stays_classifyProjected (h : rec.Stay named) (projection sequence : ContextId) (l : Lambda) {e : Expr}
    (he : e.Unnested any) (steps : List String) :
    Stays named (classifyProjected rec projection sequence l e steps) := by
  induction steps generalizing e with
  | nil =>
    unfold classifyProjected
    split
    · exact .pure _
    · exact stays_classifyValue h _ _ l he.strip _
  | cons name rest ih =>
    unfold classifyProjected
    split
    · exact stays_classifyValue h _ _ l he.strip _
    · next bindings hb =>
      split
      · exact .fail _
      · next value hl =>
        refine (ih (he.lookup hb hl)).bind fun d => ?_
        cases d with
        | object context steps =>
          dsimp only
          split <;> exact .pure _
        | table | association | field | computed => exact .pure _

theorem stays_classify (hc : c.schema.Unnested) (h : rec.Stay named) (id : ContextId) (steps : List String) :
    Stays named (c.classify rec id steps) := by
  refine .context fun d hd => ?_
  cases d with
  | table | association => exact stays_classifyMember hc h id steps
  | projection parent number sequence l scalar =>
    have hbody : l.body.Unnested named := hd
    dsimp only
    split
    · exact stays_classifyValue h id sequence l hbody.strip steps
    · exact stays_classifyProjected h id sequence l hbody.strip steps
  | lambda | update => exact .fail _

omit [Observer] in
theorem stays_resolve (h : rec.Stay named) (scope : ContextId) (path : Path) :
    Stays named (resolve rec scope path) := by
  refine .read (reads_rootOf scope path) fun sequence => (h.classify sequence path.steps).attempt.bind fun r => ?_
  cases r with
  | ok d => exact .pure d
  | error e => cases e <;> exact .fail _

omit [Observer] in
theorem stays_pathValue (h : rec.Stay named) (scope : ContextId) (e : Expr) : Stays named (pathValue rec scope e) := by
  refine .read (reads_orFail _ _) fun path => (stays_resolve h scope path).bind fun d => ?_
  cases d with
  | field | computed => exact .pure _
  | table | association | object => exact .fail _

theorem stays_value (h : rec.Stay named) (scope : ContextId) {e : Expr} (he : e.Unnested any) :
    Stays named (c.value rec scope e) := by
  cases e with
  | literal v =>
    simp only [Compiler.value]
    split
    · exact Stays.nextParameter.bind fun _ => .pure _
    · exact .pure _
  | «external» | null => exact .pure _
  | convert inner =>
    have hinner : inner.Unnested any := he
    exact h.value scope hinner
  | parameter | member => exact stays_pathValue h scope _
  | binary op lhs rhs =>
    cases op with
    | arithmetic op => exact (h.value scope he.1).bind fun _ => (h.value scope he.2).bind fun _ => .pure _
    | and | or | comparison => exact .map (h.condition scope he)
  | not inner => exact .map (h.condition scope he)
  | call function args =>
    exact .map (.mapM args fun e hmem => h.value scope (Expr.unnestedAll_iff.mp he e hmem))
  | construct bindings => exact .fail _
  | aggregate function source selector => exact he.elim

omit [Observer] in
theorem stays_condition (h : rec.Stay named) (scope : ContextId) {e : Expr} (he : e.Unnested any) :
    Stays named (condition rec scope e) := by
  have he := he.strip
  unfold condition
  split
  · next hs =>
    rw [hs] at he
    exact (h.condition scope he.1).bind fun _ => (h.condition scope he.2).bind fun _ => .pure _
  · next hs =>
    rw [hs] at he
    exact (h.condition scope he.1).bind fun _ => (h.condition scope he.2).bind fun _ => .pure _
  · next hs =>
    rw [hs] at he
    exact (h.value scope he.1).bind fun _ => (h.value scope he.2).bind fun _ => .pure _
  · exact .fail _
  · next inner hs =>
    rw [hs] at he
    have hinner : inner.Unnested any := he
    exact .map (h.condition scope hinner)
  · exact .pure _
  · refine (h.value scope he).bind fun v => ?_
    cases v <;> exact .pure _

end Compiler
end ObjectQuery
