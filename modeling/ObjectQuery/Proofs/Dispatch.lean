import ObjectQuery.Compile.Query
import ObjectQuery.Proofs.Coherent
import ObjectQuery.Proofs.Run

/-!
Which builders compile a query. Every operator on the way to the source is given to its builder before anything is
compiled, so a missing or ambiguous builder is found before the state is touched. The order in which the builders are
listed makes no difference to any compilation.
-/
namespace ObjectQuery

open Build

/-- The operator, the one that its rows come from, and so on to the innermost. -/
def Node.lineage : Node → List Node
  | ⟨kind, .sequence source :: rest⟩ => ⟨kind, .sequence source :: rest⟩ :: source.lineage
  | node => [node]
  termination_by structural node => node

namespace Node

variable {node source inner : Node} {before after : List Node}

theorem lineage_of_primary? (h : node.primary? = some source) : node.lineage = node :: source.lineage := by
  obtain ⟨kind, arguments⟩ := node
  cases arguments with
  | nil => simp [primary?] at h
  | cons argument rest =>
    cases argument with
    | sequence =>
      simp only [primary?, Option.some.injEq] at h
      simp [lineage, h]
    | «lambda» | «entity» | value => simp [primary?] at h

theorem lineage_of_primary?_eq_none (h : node.primary? = none) : node.lineage = [node] := by
  obtain ⟨kind, arguments⟩ := node
  cases arguments with
  | nil => rfl
  | cons argument rest => cases argument <;> first | rfl | simp [primary?] at h

theorem lineage_eq_cons (node : Node) : ∃ rest, node.lineage = node :: rest := by
  cases h : node.primary? with
  | none => exact ⟨[], lineage_of_primary?_eq_none h⟩
  | some source => exact ⟨source.lineage, lineage_of_primary? h⟩

theorem eq_of_lineage (h : node.lineage = inner :: after) : inner = node := by
  obtain ⟨rest, hrest⟩ := node.lineage_eq_cons
  simp only [hrest, List.cons.injEq] at h
  exact h.1.symm

theorem primary?_of_lineage (h : node.lineage = node :: (before ++ inner :: after)) :
    ∃ source, node.primary? = some source ∧ source.lineage = before ++ inner :: after := by
  cases hp : node.primary? with
  | none => simp [lineage_of_primary?_eq_none hp] at h
  | some source =>
    refine ⟨source, rfl, ?_⟩
    simpa [lineage_of_primary? hp] using h

end Node

namespace Compiler

variable {c : Compiler} {node inner : Node} {before after : List Node}

/-- The builders that claim the operator, in the order in which they are listed. -/
def claimants (c : Compiler) (node : Node) : List Builder :=
  c.builders.filter (Builder.claims · node)

theorem builderFor_of_length_eq_one (h : (c.claimants node).length = 1) : ∃ b, c.builderFor node = .ok b := by
  obtain ⟨b, hb⟩ := List.length_eq_one_iff.mp h
  rw [claimants] at hb
  exact ⟨b, by simp [builderFor, hb]⟩

theorem builderFor_of_length_ne_one (h : (c.claimants node).length ≠ 1) :
    c.builderFor node =
      .error (.ambiguousBuilder node.kind.describe ((c.claimants node).map Builder.name)) := by
  rw [claimants] at h ⊢
  rw [builderFor]
  split
  · next hb => simp [hb] at h
  · rfl

section Sequence

variable [Observer]

/-- An operator without a builder of its own stops its compilation at once. -/
theorem run_sequence_of_length_ne_one (h : (c.claimants node).length ≠ 1) (rec : Calls) (parent : Option ContextId)
    (s : BuildState) :
    (c.sequence rec parent node).run s =
      (.error (.failed (.ambiguousBuilder node.kind.describe ((c.claimants node).map Builder.name))), s) := by
  rw [sequence, builderFor_of_length_ne_one h, run_bind]
  rfl

/-- An operator that has its builder stops where the operator stops that its rows come from. -/
theorem run_sequence_of_primary? {source : Node} {rec : Calls} {parent : Option ContextId} {s t : BuildState}
    {stop : Stop} (h : (c.claimants node).length = 1) (hp : node.primary? = some source)
    (hrun : (rec.sequence parent source).run s = (.error stop, t)) :
    (c.sequence rec parent node).run s = (.error stop, t) := by
  obtain ⟨b, hb⟩ := builderFor_of_length_eq_one h
  have hprimary : (primarySequence? rec parent node).run s = (.error stop, t) := by
    rw [primarySequence?, hp, run_map, hrun]
  rw [sequence, hb, run_bind]
  change (primarySequence? rec parent node >>= fun source => c.build rec b node source parent).run s = _
  rw [run_bind, hprimary]

/-- The outermost operator without a builder of its own stops the compilation. Every operator outside it takes one level
of calls. -/
theorem run_sequence_of_lineage (hlineage : node.lineage = before ++ inner :: after)
    (hbefore : ∀ n ∈ before, (c.claimants n).length = 1) (hinner : (c.claimants inner).length ≠ 1) {fuel : Nat}
    (hfuel : before.length < fuel) (parent : Option ContextId) (s : BuildState) :
    ((c.calls fuel).sequence parent node).run s =
      (.error (.failed (.ambiguousBuilder inner.kind.describe ((c.claimants inner).map Builder.name))), s) := by
  induction before generalizing node fuel with
  | nil =>
    obtain ⟨fuel, rfl⟩ := Nat.exists_eq_succ_of_ne_zero (Nat.ne_zero_of_lt hfuel)
    rw [← Node.eq_of_lineage hlineage]
    exact run_sequence_of_length_ne_one hinner _ parent s
  | cons n before ih =>
    obtain ⟨fuel, rfl⟩ := Nat.exists_eq_succ_of_ne_zero (Nat.ne_zero_of_lt hfuel)
    have hcount : before.length < fuel := by simpa using hfuel
    obtain rfl := Node.eq_of_lineage hlineage
    obtain ⟨source, hp, hsource⟩ := Node.primary?_of_lineage hlineage
    have hrun := ih hsource (fun m hm => hbefore m (by simp [hm])) hcount
    exact run_sequence_of_primary? (hbefore n (by simp)) hp hrun

/-- Failures to find a builder come before any effect. If an operator of the lineage has not exactly one builder that
claims it, then the outermost such operator is reported, with all that claim it as they are listed, and the state is as
it was: no alias is taken and no context or statement entered, for those further in either. -/
theorem sequence_unclaimed (h : ∃ n ∈ node.lineage, (c.claimants n).length ≠ 1) :
    ∃ before inner after, node.lineage = before ++ inner :: after ∧ (∀ n ∈ before, (c.claimants n).length = 1) ∧
      (c.claimants inner).length ≠ 1 ∧
      ∀ fuel, before.length < fuel → ∀ (parent : Option ContextId) (s : BuildState),
        ((c.calls fuel).sequence parent node).run s =
          (.error (.failed (.ambiguousBuilder inner.kind.describe ((c.claimants inner).map Builder.name))), s) := by
  obtain ⟨inner, hfind⟩ : ∃ inner, node.lineage.find? (fun n => (c.claimants n).length ≠ 1) = some inner := by
    rw [← Option.isSome_iff_exists, List.find?_isSome]
    simpa using h
  obtain ⟨hinner, before, after, hlineage, hbefore⟩ := List.find?_eq_some_iff_append.mp hfind
  have hbefore : ∀ n ∈ before, (c.claimants n).length = 1 := by simpa using hbefore
  have hinner : (c.claimants inner).length ≠ 1 := by simpa using hinner
  exact ⟨before, inner, after, hlineage, hbefore, hinner, fun fuel hfuel parent s =>
    run_sequence_of_lineage hlineage hbefore hinner hfuel parent s⟩

end Sequence

/-- Filters have two builders, and updates none. -/
def twoFilters : Compiler :=
  { company with builders := [.filter, .source, .set, .filter] }

/-- Names are set in the filtered rows of an entity that the schema does not have. -/
def namesOfNobody : Node :=
  ((Node.source "Nobody").filter ⟨["e"], .member (.parameter "e") "sold"⟩).set
    ⟨["e"], .member (.parameter "e") "name"⟩ (.literal (.text "x"))

/-- The filter is reported, not the entity. -/
theorem sequence_unclaimed_namesOfNobody :
    (∃ n ∈ namesOfNobody.lineage, (twoFilters.claimants n).length ≠ 1) ∧
      ((twoFilters.calls 2).sequence none namesOfNobody).run {} =
        (.error (.failed (.ambiguousBuilder "Where" ["where", "where"])), {}) := by
  have hexists : ∃ n ∈ namesOfNobody.lineage, (twoFilters.claimants n).length ≠ 1 :=
    ⟨_, .tail _ (.head _), by decide⟩
  obtain ⟨before, inner, after, hlineage, hbefore, hinner, hrun⟩ := sequence_unclaimed hexists
  -- the set has its builder, so that it is outside of the operator that is reported, and alone there
  have hset : (twoFilters.claimants namesOfNobody).length = 1 := rfl
  cases before with
  | nil =>
    obtain ⟨rfl, -⟩ := List.cons.inj hlineage
    exact absurd hset hinner
  | cons n before =>
    obtain ⟨rfl, htail⟩ := List.cons.inj hlineage
    cases before with
    | nil =>
      obtain ⟨rfl, -⟩ := List.cons.inj htail
      exact ⟨hexists, hrun 2 (by decide) none {}⟩
    | cons m before =>
      obtain ⟨rfl, -⟩ := List.cons.inj htail
      exact absurd (hbefore _ (.tail _ (.head _))) (by decide)

/-! Builders in another order. -/

theorem claimants_eq_replicate {b : Builder} (h : b ∈ c.claimants node) :
    c.claimants node = List.replicate (c.claimants node).length b := by
  apply List.eq_replicate_of_mem
  intro b' hb'
  exact Builder.eq_of_claims (List.mem_filter.mp hb').2 (List.mem_filter.mp h).2

variable {builders : List Builder}

/-- All that claim an operator are copies of one builder, so there is no order among them. -/
theorem claimants_of_perm (h : c.builders.Perm builders) (node : Node) :
    claimants { c with builders } node = c.claimants node := by
  have hperm : (c.claimants node).Perm (claimants { c with builders } node) := h.filter _
  cases hc : c.claimants node with
  | nil =>
    rw [hc] at hperm
    exact hperm.nil_eq.symm
  | cons b bs =>
    have hb : b ∈ c.claimants node := by simp [hc]
    rw [← hc]
    rw [claimants_eq_replicate hb] at hperm ⊢
    exact (List.replicate_perm.mp hperm).symm

theorem builderFor_of_perm (h : c.builders.Perm builders) (node : Node) :
    builderFor { c with builders } node = c.builderFor node := by
  have hclaimants := claimants_of_perm h node
  simp only [claimants] at hclaimants
  simp only [builderFor, hclaimants]

/-! Nothing else that is done for an operator depends on the builders. -/

theorem flatten_builders (c : Compiler) (builders : List Builder) (rec : Calls) (into : ContextId)
    (table : Option TableId) (scope : ContextId) (depth : Nat) (outer : List String) (bindings : List (String × Expr)) :
    flatten { c with builders } rec into table scope depth outer bindings =
      c.flatten rec into table scope depth outer bindings := by
  induction depth generalizing outer bindings with
  | zero => rfl
  | succ depth ih => simp only [flatten, ih]

variable [Observer]

theorem setterItems_builders (c : Compiler) (builders : List Builder) (rec : Calls) (setter : Lambda) (into : ContextId)
    (table : Option TableId) (sequence : ContextId) (parent : Option ContextId) :
    setterItems { c with builders } rec setter into table sequence parent =
      c.setterItems rec setter into table sequence parent := by
  simp only [setterItems, flatten_builders]

theorem assign_builders (c : Compiler) (builders : List Builder) (rec : Calls) (number : StatementId)
    (sequence : ContextId) (operands : List Argument) (parent : Option ContextId) :
    assign { c with builders } rec number sequence operands parent = c.assign rec number sequence operands parent := by
  unfold assign updateInto assignInto updateWith
  simp only [setterItems_builders]
  rfl

theorem build_builders (c : Compiler) (builders : List Builder) (rec : Calls) (b : Builder) (node : Node)
    (sequence : Option ContextId) (parent : Option ContextId) :
    build { c with builders } rec b node sequence parent = c.build rec b node sequence parent := by
  unfold build buildUpdate
  simp only [assign_builders]
  rfl

theorem calls_of_perm (h : c.builders.Perm builders) (fuel : Nat) : calls { c with builders } fuel = c.calls fuel := by
  induction fuel with
  | zero => rfl
  | succ fuel ih =>
    have hsequence : ∀ rec parent node, sequence { c with builders } rec parent node = c.sequence rec parent node := by
      intro rec parent node
      simp only [sequence, builderFor_of_perm h, build_builders]
    simp only [calls, ih, hsequence]
    rfl

omit [Observer] in
/-- The order of the builders decides nothing. A compiler with the same builders in another order, however often each is
listed, comes to the same for every query: to the same statements and contexts, or to the same error. Even the builders
that an error lists are the same. -/
theorem compile_of_perm (h : c.builders.Perm builders) (fuel : Nat) (node : Node) :
    compile { c with builders } fuel node = c.compile fuel node := by
  simp only [compile, root, calls_of_perm h]

omit [Observer] in
theorem compile_of_perm_reversed :
    company.builders.Perm Builder.all.reverse ∧ ∃ q, company.compile 9 (.source "Employee") = .ok q ∧
      compile { company with builders := Builder.all.reverse } 9 (.source "Employee") = .ok q := by
  have hperm : company.builders.Perm Builder.all.reverse := (List.reverse_perm _).symm
  have hq : ∃ q, company.compile 9 (.source "Employee") = .ok q := ⟨_, rfl⟩
  obtain ⟨q, hq⟩ := hq
  exact ⟨hperm, q, hq, (compile_of_perm hperm 9 _).trans hq⟩

end Compiler
end ObjectQuery
