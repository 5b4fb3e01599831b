import ObjectQuery.Proofs.Fuel.Calls
import ObjectQuery.Proofs.Halting.Operators

/-!
Compilation comes to an end, whatever the query, as long as no projection mentions the parameter of a value that is set
through it.
-/
namespace ObjectQuery

open Build

variable {c : Compiler}

mutual

theorem Expr.lively (hc : c.schema.Plain) (e : Expr) (h : e.Guarded .lexical) : c.Lively e := by
  cases e with
  | parameter name =>
    exact .intro (Compiler.evaluates_of_value nofun nofun nofun fun hg => Compiler.settles_pathValue hg) nofun
  | member object name =>
    exact .intro (Compiler.evaluates_of_value nofun nofun nofun fun hg => Compiler.settles_pathValue hg) nofun
  | literal v => exact .intro (Compiler.evaluates_literal v) nofun
  | «external» name => exact .intro (Compiler.evaluates_of_value nofun nofun nofun fun _ => .pure trivial) nofun
  | null => exact .intro (Compiler.evaluates_of_value nofun nofun nofun fun _ => .pure trivial) nofun
  | convert e =>
    have he := e.lively hc h
    exact .intro (Compiler.evaluates_convert he.evaluates) fun bs hbs => he.parts hbs
  | not e => exact .intro (Compiler.evaluates_not (e.lively hc h).evaluates) nofun
  | binary op lhs rhs =>
    exact .intro (Compiler.evaluates_binary (lhs.lively hc h.1).evaluates (rhs.lively hc h.2).evaluates) nofun
  | call function args =>
    exact .intro (Compiler.evaluates_call fun e he => (Expr.livelyAll hc args h e he).evaluates) nofun
  | construct bindings =>
    have hbindings := Expr.livelyBindings hc bindings h
    refine .intro (Compiler.evaluates_of_value nofun nofun nofun fun _ => .fail _) ?_
    rintro _ ⟨⟩
    exact hbindings
  | aggregate function source selector =>
    exact .intro (Compiler.evaluates_aggregate (source.builds hc h.1) (Lambda.livelyOption hc selector h.2)) nofun
  termination_by structural e

theorem Expr.livelyAll (hc : c.schema.Plain) (es : List Expr) (h : Expr.GuardedAll .lexical es) :
    ∀ e ∈ es, c.Lively e := by
  cases es with
  | nil => nofun
  | cons e es => exact List.forall_mem_cons.mpr ⟨e.lively hc h.1, Expr.livelyAll hc es h.2⟩
  termination_by structural es

theorem Expr.livelyBindings (hc : c.schema.Plain) (bs : List (String × Expr)) (h : Expr.GuardedBindings .lexical bs) :
    ∀ b ∈ bs, c.Lively b.2 := by
  match bs with
  | [] => nofun
  | (_, e) :: bs => exact List.forall_mem_cons.mpr ⟨e.lively hc h.1, Expr.livelyBindings hc bs h.2⟩
  termination_by structural bs

theorem Lambda.lively (hc : c.schema.Plain) (f : Lambda) (h : f.Guarded .lexical) : c.Lively f.body := by
  cases f with
  | mk ps body => exact body.lively hc h
  termination_by structural f

theorem Lambda.livelyOption (hc : c.schema.Plain) (f : Option Lambda) (h : Lambda.GuardedOption .lexical f) :
    ∀ g, f = some g → c.Lively g.body := by
  match f with
  | none => nofun
  | some f =>
    rintro _ ⟨⟩
    exact f.lively hc h
  termination_by structural f

theorem Node.builds (hc : c.schema.Plain) (node : Node) (h : node.Guarded .lexical) : c.Builds node := by
  cases node with
  | mk kind arguments => exact Compiler.builds_of_arguments hc h.1 (Argument.argued hc arguments h.2)
  termination_by structural node

theorem Argument.argued (hc : c.schema.Plain) (as : List Argument) (h : Argument.GuardedAll .lexical as) :
    ∀ a ∈ as, c.Argued a := by
  match as with
  | [] => nofun
  | .sequence node :: as => exact List.forall_mem_cons.mpr ⟨node.builds hc h.1, Argument.argued hc as h.2⟩
  | .lambda f :: as => exact List.forall_mem_cons.mpr ⟨f.lively hc h.1, Argument.argued hc as h.2⟩
  | .entity _ :: as => exact List.forall_mem_cons.mpr ⟨trivial, Argument.argued hc as h⟩
  | .value e :: as => exact List.forall_mem_cons.mpr ⟨e.lively hc h.1, Argument.argued hc as h.2⟩
  termination_by structural as

end

namespace Compiler

theorem settles_finish {s : BuildState} {id : ContextId} (h : c.Readable s.contexts id) :
    c.Settles s (fun rec => finish rec id) fun _ _ => True := by
  refine Settles.context fun d _ => ?_
  have hend : ∀ t : BuildState, c.Settles t (fun _ => do pure ((← context id).statement, id)) fun _ _ => True :=
    fun t => Settles.context fun d _ => .pure trivial
  dsimp only
  split
  · exact hend s
  · exact (settles_selectItems h [] .all).bind fun _ t _ _ => hend t

/-- Compilation ends, and in the same way with all fuel from some amount on. -/
theorem compile_settles (hc : c.schema.Plain) {node : Node} (h : node.Uncaptured) :
    ∃ r, r ≠ .error .outOfFuel ∧ ∃ n, ∀ fuel ≥ n, c.compile fuel node = r := by
  have hg : c.Grounded [] none node.free := fun x _ => ⟨none, .unbound, nofun⟩
  have hroot : c.Settles {} (fun rec => rec.sequence none node >>= finish rec) fun _ _ => True :=
    (node.builds hc h hg).bind fun id t _ hid => settles_finish hid.1
  obtain ⟨r, hr, hhalts⟩ := hroot nofun
  obtain ⟨n, hn⟩ := Filter.eventually_atTop.mp hr
  refine ⟨c.compile n node, ?_, n, fun fuel hfuel => ?_⟩
  · have hne := hhalts.ne_outOfFuel
    unfold compile root
    rw [hn n (Nat.le_refl n)]
    obtain ⟨stop | ⟨number, id⟩, t⟩ := r
    · exact fun h => hne (by rw [Except.error.inj h])
    · nofun
  · unfold compile root
    rw [hn n (Nat.le_refl n), hn fuel hfuel]

/-- Employees in a projection that mentions a parameter without binding it, in a member of its own name. -/
def selfProjected : Node :=
  (Node.source "Employee").select ⟨["c"], .construct [("a", .member (.parameter "x") "a"),
    ("b", .member (.parameter "c") "name")]⟩

/-- An employee's name, set to that member. -/
def selfAssigned (x : String) : Node :=
  selfProjected.setWith ⟨["p"], .member (.parameter "p") "b"⟩ ⟨[x], .member (.parameter x) "a"⟩

theorem compile_settles_selfAssigned : Schema.company.Plain ∧ (selfAssigned "y").update.Uncaptured ∧
    ∃ r, r ≠ .error .outOfFuel ∧ ∃ n, ∀ fuel ≥ n, company.compile fuel (selfAssigned "y").update = r := by
  have h : (selfAssigned "y").update.Uncaptured := by
    simp [selfAssigned, selfProjected, Node.Uncaptured, Node.source, Node.select, Node.update, Node.chain, Node.setWith,
      Node.Guarded, Argument.GuardedAll, Lambda.Guarded, Expr.Guarded, Expr.GuardedBindings, Likeness.Shielded,
      Likeness.lexical]
    rintro _ _ _ _ rfl rfl rfl ⟨⟩ _ ⟨⟩
    decide
  exact ⟨Schema.plain_company, h, compile_settles Schema.plain_company h⟩

section Endless

variable {x a : String} {id : ContextId} {n : Nat} {s : BuildState}

theorem outOfFuel_value {scope : ContextId} (hscope : Finds s.contexts x (some scope) (some id))
    (h : ∃ t, ((c.calls n).classify id [a]).run s = (.error .outOfFuel, t)) :
    ∃ t, ((c.calls (n + 1)).value scope (.member (.parameter x) a)).run s = (.error .outOfFuel, t) := by
  have hroot : (rootOf scope ⟨x, [a]⟩).run s = (.ok id, s) := by
    rw [rootOf, run_bind, run_findBinding? hscope]
    rfl
  refine stops_bind_of_ok (a := ⟨x, [a]⟩) rfl (stops_bind ?_)
  exact stops_bind_of_ok hroot (stops_bind (outOfFuel_attempt h))

variable {q : ContextId} {p : Option ContextId} {m : StatementId} {f : Lambda} {bs : List (String × Expr)}
  {row : String}
  (hbody : f.body.bindings? = some bs) (hmember : bs.lookup a = some (.member (.parameter x) a))
  (hrow : f.row? = some row) (hne : row ≠ x)

include hbody hmember hrow hne

/-- The member is compiled from a scope beside the projection. -/
theorem outOfFuel_classify {d : Context} (hid : s.contexts[id]? = some (.projection p m q f false))
    (hd : s.contexts[q]? = some d)
    (h : ∃ t, ((c.calls n).value s.contexts.length (.member (.parameter x) a)).run
      (s.enter (.lambda p d.statement [(row, q)])) = (.error .outOfFuel, t)) :
    ∃ t, ((c.calls (n + 1)).classify id [a]).run s = (.error .outOfFuel, t) := by
  have hpath : (Path.ofExpr? (.member (.parameter x) a)).filter (fun path => f.row? = some path.root) = none := by
    simp [Path.ofExpr?, Path.read, hrow, hne]
  have hinner : ∃ t, (classifyProjected (c.calls n) id q f (.member (.parameter x) a) []).run s =
      (.error .outOfFuel, t) := by
    change ∃ t, (classifyValue (c.calls n) id q f (.member (.parameter x) a) []).run s = _
    rw [classifyValue, hpath]
    exact stops_bind_of_ok (run_context_of hid) (stops_bind_of_ok (run_lambdaScope hrow hd p) (stops_map h))
  refine stops_bind_of_ok (run_context_of hid) ?_
  dsimp only
  rw [if_neg Bool.false_ne_true, classifyProjected_strip, classifyProjected, hbody]
  dsimp only
  rw [hmember]
  exact stops_bind hinner

/-- A member that is itself, as seen from below the projection that has it, has no value, however much fuel there is. -/
theorem run_value_of_member_itself (n : Nat) {s : BuildState} {scope : ContextId}
    (hid : s.contexts[id]? = some (.projection p m q f false)) (hq : q < s.contexts.length)
    (hp : Finds s.contexts x p (some id)) (hscope : Finds s.contexts x (some scope) (some id)) :
    ∃ t, ((c.calls n).value scope (.member (.parameter x) a)).run s = (.error .outOfFuel, t) := by
  induction n using Nat.strong_induction_on generalizing s scope with
  | _ n ih =>
    rcases n with _ | _ | n
    · exact ⟨s, rfl⟩
    · exact outOfFuel_value hscope ⟨s, rfl⟩
    · obtain ⟨d, hd⟩ : ∃ d, s.contexts[q]? = some d := ⟨_, List.getElem?_eq_getElem hq⟩
      refine outOfFuel_value hscope (outOfFuel_classify hbody hmember hrow hne hid hd ?_)
      -- the scope that was entered finds what the projection finds, which is the projection itself
      have hid' : (s.contexts ++ [Context.lambda p d.statement [(row, q)]])[id]? = s.contexts[id]? :=
        List.getElem?_append_left (List.getElem?_eq_some_iff.mp hid).1
      exact ih n (by omega) (hid'.trans hid) (Nat.lt_of_lt_of_le hq (by simp [BuildState.enter]))
        (hp.supports (sustains_concat _ _).supports) (hp.enter hne)

end Endless

/-- The projected employees, once compiled. -/
def selfProjectedContexts (parent : Option ContextId) : List Context :=
  [.table none 0 ⟨"Employee", 0, "t1", []⟩,
    .projection parent 0 0 ⟨["c"], .construct [("a", .member (.parameter "x") "a"),
      ("b", .member (.parameter "c") "name")]⟩ false]

theorem run_selfAssigned (n : Nat) :
    ∃ t, ((company.calls (n + 4)).sequence none (selfAssigned "x")).run {} = (.error .outOfFuel, t) := by
  let scope : Context := .lambda none 0 [("x", 1)]
  let s : BuildState :=
    { statements := [{ Statement.empty with sources := ⟨some ⟨0, "t1"⟩, []⟩ }]
      contexts := selfProjectedContexts none
      aliases := 1 }
  let t : BuildState := { s with contexts := selfProjectedContexts none ++ [scope] }
  let u : BuildState := { s with contexts := selfProjectedContexts (some 2) ++ [scope] }
  refine stops_bind_of_ok (a := Builder.set) (t := {}) rfl (stops_bind_of_ok (a := some 1) (t := s) rfl ?_)
  refine stops_bind_of_ok (a := ()) (t := s) rfl (stops_bind_of_ok (a := ⟨"p", ["b"]⟩) (t := s) rfl ?_)
  refine stops_bind_of_ok (a := _) (t := s) rfl (stops_bind (stops_bind_of_ok (a := ⟨0, 1⟩) (t := s) rfl ?_))
  refine stops_bind_of_ok (a := 2) (t := t) rfl (stops_bind (stops_bind_of_ok (a := _) (t := t) rfl ?_))
  -- inside the value's scope, the projection sees the parameter of the value
  refine stops_bind_of_ok (a := ()) (t := u) rfl (stops_bind (outOfFuel_attempt ?_))
  have hprojection : u.contexts[1]? = some (selfProjectedContexts (some 2))[1] := rfl
  have hparameter : Finds u.contexts "x" (some 2) (some 1) := .here rfl rfl (by decide)
  exact run_value_of_member_itself rfl rfl rfl (by decide) _ hprojection (by decide) hparameter hparameter

/-- The value is looked for in the projection that it is set through, where it is found to be itself. -/
theorem compile_selfAssigned :
    Schema.company.Plain ∧ ∀ fuel, company.compile fuel (selfAssigned "x").update = .error .outOfFuel := by
  refine ⟨Schema.plain_company, fun fuel => ?_⟩
  have henough : ∀ n, company.compile (n + 5) (selfAssigned "x").update = .error .outOfFuel := by
    intro n
    obtain ⟨t, ht⟩ : ∃ t, (company.root (n + 5) (selfAssigned "x").update).run {} = (.error .outOfFuel, t) :=
      stops_bind (stops_bind_of_ok (a := Builder.update) (t := {}) rfl (stops_bind (stops_map (run_selfAssigned n))))
    rw [compile, ht]
  by_contra h
  exact h ((compile_of_le h (Nat.le_add_right fuel 5)).symm.trans (henough fuel))

end Compiler
end ObjectQuery
