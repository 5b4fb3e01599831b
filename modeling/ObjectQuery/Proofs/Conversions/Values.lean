import ObjectQuery.Proofs.Conversions.Echo

/-!
Paths denote the same with and without conversions, and values and conditions are the same.
-/
namespace ObjectQuery

open Build Compiler

/-- The calls are echoed by those of the other compilation. -/
structure Calls.Echo (c : Compiler) (rec : Calls) : Prop where
  value : ∀ (scope : ContextId) {e e' : Expr}, e.erase = e'.erase →
    c.Echoes Eq (rec.value scope e) fun rec' => rec'.value scope e'
  condition : ∀ (scope : ContextId) {e e' : Expr}, e.erase = e'.erase →
    c.Echoes Eq (rec.condition scope e) fun rec' => rec'.condition scope e'
  classify : ∀ (id : ContextId) (steps : List String),
    c.Echoes Eq (rec.classify id steps) fun rec' => rec'.classify id steps
  members : ∀ (id : ContextId) (steps : List String) (extent : Extent),
    c.Echoes Eq (rec.members id steps extent) fun rec' => rec'.members id steps extent
  sequence : ∀ (parent : Option ContextId) {node node' : Node}, node.erase = node'.erase →
    c.Echoes Eq (rec.sequence parent node) fun rec' => rec'.sequence parent node'

namespace Compiler

variable {c c' : Compiler} {rec : Calls}

section

variable (hc : c.erase = c'.erase)
include hc

theorem echoes_entity (name : String) :
    c'.Echoes (fun e e' => e.erase = e'.erase) (c.entity name) fun _ => c'.entity name :=
  .orFail (rel_entity? hc name) (.refl _)

theorem echoes_entityOver (table : TableId) :
    c'.Echoes (fun e e' => e.erase = e'.erase) (c.entityOver table) fun _ => c'.entityOver table := by
  unfold entityOver
  rw [database_eq hc]
  refine (Echoes.orDangling _).bind fun t _ ht => ?_
  rw [ht]
  exact .orFail (rel_entityOver? hc table) (.refl _)

theorem echoes_followAssociation (owner : ContextId) (name : String) (a : Association) :
    c'.Echoes Eq (c.followAssociation owner name a) fun _ => c'.followAssociation owner name a := by
  refine (Echoes.context owner).bind fun d d' hd => ?_
  rw [hd.rows?_eq, hd.statement_eq]
  split
  · exact .pure rfl
  · refine (echoes_entity hc a.target).bind fun target target' ht => Echoes.nextAlias.bind fun aliasName _ ha => ?_
    rw [Entity.name_eq ht, Entity.table_eq ht, ha]
    refine (Echoes.modifyStatement _ _).bind fun _ _ _ => (Echoes.addContext rfl).bind fun rows _ hrows => ?_
    rw [hrows]
    exact (Echoes.modifyContext owner (Context.erase_follow name _)).bind fun _ _ _ => .pure rfl

variable (h : rec.Echo c')
include h

theorem echoes_classifyMember (id : ContextId) (steps : List String) :
    c'.Echoes Eq (c.classifyMember rec id steps) fun rec' => c'.classifyMember rec' id steps := by
  refine (Echoes.context id).bind fun d d' hd => ?_
  cases steps with
  | nil => cases hd <;> exact .pure rfl
  | cons step steps =>
    dsimp only
    rw [hd.kindName_eq, hd.rows?_eq]
    refine (Echoes.orFailSame _ _).bind fun rows _ hrows => hrows ▸ (echoes_entity hc _).bind fun e e' he => ?_
    have hlongest := rel_longestMember? he (step :: steps)
    generalize longestMember? e (step :: steps) = x at hlongest
    generalize longestMember? e' (step :: steps) = x' at hlongest
    rw [Entity.name_eq he, Entity.isComplex_eq he]
    cases hlongest with
    | none =>
      dsimp only
      split
      · exact .pure rfl
      · exact .same _
    | @some x x' hx =>
      obtain ⟨name, m, rest⟩ := x
      obtain ⟨_, m', _⟩ := x'
      obtain ⟨rfl, hm, rfl⟩ := hx
      cases hm with
      | column => cases rest <;> first | exact .pure rfl | exact .same _
      | computed hl =>
        cases rest with
        | nil =>
          refine (Echoes.lambdaScope hl id _).bind fun scope _ hscope => hscope ▸ ?_
          exact (h.value scope (Lambda.erase_body_eq hl)).map fun _ _ hv => congrArg _ hv
        | cons => exact .same _
      | association a =>
        exact (echoes_followAssociation hc id name a).bind fun target _ ht => ht ▸ h.classify target rest

omit hc in
theorem echoes_classifyValue {f g : Lambda} (hfg : f.erase = g.erase) {e e' : Expr} (he : e.erase = e'.erase)
    (projection sequence : ContextId) (steps : List String) :
    c'.Echoes Eq (classifyValue rec projection sequence f e steps) fun rec' =>
      classifyValue rec' projection sequence g e' steps := by
  unfold classifyValue
  rw [Path.ofExpr?_eq he, Lambda.row?_eq hfg]
  split
  · exact h.classify _ _
  · cases steps with
    | nil =>
      refine (Echoes.context projection).bind fun d d' hd => ?_
      rw [hd.parent_eq]
      refine (Echoes.lambdaScope hfg sequence _).bind fun scope _ hscope => hscope ▸ ?_
      exact (h.value scope he).map fun _ _ hv => congrArg _ hv
    | cons => exact .same _

omit hc in
theorem echoes_classifyProjected {f g : Lambda} (hfg : f.erase = g.erase) {e e' : Expr} (he : e.erase = e'.erase)
    (projection sequence : ContextId) (steps : List String) :
    c'.Echoes Eq (classifyProjected rec projection sequence f e steps) fun rec' =>
      classifyProjected rec' projection sequence g e' steps := by
  have hstrip : e.strip.erase = e'.strip.erase := by rw [e.erase_strip, he, e'.erase_strip]
  have hbindings := Expr.rel_bindings? he
  induction steps generalizing e e' with
  | nil =>
    unfold classifyProjected
    generalize e.bindings? = x at hbindings
    generalize e'.bindings? = x' at hbindings
    cases hbindings with
    | none => exact echoes_classifyValue h hfg hstrip projection sequence []
    | some => exact .pure rfl
  | cons name rest ih =>
    unfold classifyProjected
    generalize e.bindings? = x at hbindings
    generalize e'.bindings? = x' at hbindings
    cases hbindings with
    | none => exact echoes_classifyValue h hfg hstrip projection sequence (name :: rest)
    | some hbindings =>
      have hlookup := Expr.rel_lookup hbindings name
      dsimp only
      generalize List.lookup name _ = v at hlookup
      generalize List.lookup name _ = v' at hlookup
      cases hlookup with
      | none => exact .same _
      | @some v v' hv =>
        refine (ih hv (by rw [v.erase_strip, hv, v'.erase_strip]) (Expr.rel_bindings? hv)).bind fun d _ hd => hd ▸ ?_
        cases d with
        | object context steps =>
          dsimp only
          split <;> exact .pure rfl
        | _ => exact .pure rfl

theorem echoes_classify (id : ContextId) (steps : List String) :
    c'.Echoes Eq (c.classify rec id steps) fun rec' => c'.classify rec' id steps := by
  refine (Echoes.context id).bind fun d d' hd => ?_
  cases hd with
  | table | association => exact echoes_classifyMember hc h id steps
  | @projection parent number sequence f g hfg scalar =>
    have hbody := Lambda.erase_body_eq hfg
    have hstrip : f.body.strip.erase = g.body.strip.erase := by rw [Expr.erase_strip, hbody, Expr.erase_strip]
    dsimp only
    split
    · exact echoes_classifyValue h hfg hstrip id sequence steps
    · exact echoes_classifyProjected h hfg hstrip id sequence steps
  | lambda | update => exact .same _

end

section

variable (h : rec.Echo c')
include h

theorem echoes_resolve (scope : ContextId) (path : Path) :
    c'.Echoes Eq (resolve rec scope path) fun rec' => resolve rec' scope path := by
  refine (Echoes.rootOf scope path).bind fun sequence _ hs => hs ▸ ?_
  refine (h.classify sequence path.steps).answer (fun d _ hd => hd ▸ .pure rfl) (fun _ fault _ fault' => ?_) ?_
  · exact .fail ⟨rfl, rfl⟩
  · intro e he
    cases e with
    | memberResolution path fault => exact absurd rfl (he path fault)
    | _ => exact ⟨rfl, fun _ => rfl⟩

theorem echoes_pathValue (scope : ContextId) {e e' : Expr} (he : e.erase = e'.erase) :
    c'.Echoes Eq (pathValue rec scope e) fun rec' => pathValue rec' scope e' := by
  unfold pathValue
  rw [Path.ofExpr?_eq he]
  have hpath : c'.Echoes Eq (orFail (.unsupportedShape (.memberOfNonParameter e.describe)) (Path.ofExpr? e'))
      fun _ => orFail (.unsupportedShape (.memberOfNonParameter e'.describe)) (Path.ofExpr? e') := by
    cases Path.ofExpr? e' with
    | none => exact .fail ⟨rfl, rfl⟩
    | some path => exact .pure rfl
  refine hpath.bind fun path _ hp => hp ▸ (echoes_resolve h scope path).bind fun d _ hd => hd ▸ ?_
  cases d <;> first | exact .pure rfl | exact .same _

theorem echoes_condition (scope : ContextId) {e e' : Expr} (he : e.erase = e'.erase) :
    c'.Echoes Eq (condition rec scope e) fun rec' => condition rec' scope e' := by
  have hpeers := Expr.peers_strip he
  have hstrip : e.strip.erase = e'.strip.erase := by rw [e.erase_strip, he, e'.erase_strip]
  unfold condition
  generalize e.strip = a at hpeers hstrip
  generalize e'.strip = b at hpeers hstrip
  cases hpeers with
  | binary op lhs rhs =>
    cases op with
    | and | or =>
      exact (h.condition scope lhs).bind fun p _ hp => (h.condition scope rhs).bind fun q _ hq => by
        rw [hp, hq]
        exact .pure rfl
    | comparison op =>
      exact (h.value scope lhs).bind fun v _ hv => (h.value scope rhs).bind fun w _ hw => by
        rw [hv, hw]
        exact .pure rfl
    | arithmetic op => exact .same _
  | not hinner => exact (h.condition scope hinner).map fun _ _ hp => congrArg _ hp
  | literal v =>
    cases v with
    | bool b => exact .pure rfl
    | _ => exact (h.value scope hstrip).bind fun v _ hv => hv ▸ by cases v <;> exact .pure rfl
  | _ => exact (h.value scope hstrip).bind fun v _ hv => hv ▸ by cases v <;> exact .pure rfl

theorem echoes_aggregateArgument (scope sequence : ContextId) (function : Aggregate) {f g : Option Lambda}
    (hfg : Option.Rel (fun f g => f.erase = g.erase) f g) :
    c'.Echoes Eq (aggregateArgument rec scope function f sequence) fun rec' =>
      aggregateArgument rec' scope function g sequence := by
  cases hfg with
  | some hfg =>
    refine (Echoes.lambdaScope hfg sequence _).bind fun inner _ hinner => hinner ▸ ?_
    exact h.value inner (Lambda.erase_body_eq hfg)
  | none =>
    cases function with
    | count => exact .pure rfl
    | _ =>
      refine (h.members sequence [] .field).bind fun items _ hitems => hitems ▸ ?_
      split
      · exact .pure rfl
      · exact .same _

theorem echoes_aggregate (scope : ContextId) (function : Aggregate) {node node' : Node}
    (hnode : node.erase = node'.erase) {f g : Option Lambda} (hfg : Option.Rel (fun f g => f.erase = g.erase) f g) :
    c'.Echoes Eq (aggregate rec scope function node f) fun rec' => aggregate rec' scope function node' g := by
  refine (h.sequence (some scope) hnode).bind fun sequence _ hs => hs ▸ ?_
  refine (Echoes.ensureComposable sequence _).bind fun _ _ _ => ?_
  refine (echoes_aggregateArgument h scope sequence function hfg).bind fun argument _ ha => ha ▸ ?_
  refine (Echoes.context sequence).bind fun d d' hd => ?_
  rw [hd.statement_eq]
  exact (Echoes.modifyStatement _ _).bind fun _ _ _ => .pure rfl

variable (hc : c.erase = c'.erase)
include hc

/-- An expression that is no conversion on either side. -/
theorem echoes_value_of_peers (scope : ContextId) {e e' : Expr} (he : e.erase = e'.erase) (hpeers : e.Peers e') :
    c'.Echoes Eq (c.value rec scope e) fun rec' => c'.value rec' scope e' := by
  cases hpeers with
  | parameter | member => exact echoes_pathValue h scope he
  | literal v =>
    unfold Compiler.value
    rw [settings_eq hc]
    dsimp only
    split
    · exact Echoes.nextParameter.bind fun name _ hn => hn ▸ .pure rfl
    · exact .pure rfl
  | «external» | null => exact .pure rfl
  | binary op lhs rhs =>
    cases op with
    | arithmetic op =>
      exact (h.value scope lhs).bind fun v _ hv => (h.value scope rhs).bind fun w _ hw => by
        rw [hv, hw]
        exact .pure rfl
    | and | or | comparison => exact (h.condition scope he).map fun _ _ hp => congrArg _ hp
  | not => exact (h.condition scope he).map fun _ _ hp => congrArg _ hp
  | call function hargs =>
    refine (Echoes.mapM hargs fun a b hab => h.value scope hab).map fun vs ws hvs => ?_
    rw [List.forall₂_eq_eq_eq] at hvs
    exact congrArg _ hvs
  | construct => exact .same _
  | aggregate function hnode hfg => exact (echoes_aggregate h scope function hnode hfg).inContext _

/-- A conversion takes one call more, on whichever side it is. -/
theorem echoes_value (scope : ContextId) {e e' : Expr} (he : e.erase = e'.erase) :
    c'.Echoes Eq (c.value rec scope e) fun rec' => c'.value rec' scope e' := by
  induction e' using Expr.strip.induct with
  | case1 inner ih => exact (ih he).call fun _ => rfl
  | case2 e' hne' =>
    by_cases hne : ∃ inner, e = .convert inner
    · obtain ⟨inner, rfl⟩ := hne
      exact (h.value scope (e := inner) he).open_call fun _ => rfl
    · have hpeers := Expr.peers_of_erase_eq he (fun inner h => hne ⟨inner, h⟩) hne'
      exact echoes_value_of_peers h hc scope he hpeers

end

end Compiler
end ObjectQuery
