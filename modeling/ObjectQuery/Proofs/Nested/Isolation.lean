import ObjectQuery.Compile.Query
import ObjectQuery.Proofs.Nested.Operators
import ObjectQuery.Proofs.Scoping

/-!
Compiling a nested query is isolated from what was built before it, and the sub-queries of a compiled query are
scalar and without circles.
-/
namespace ObjectQuery

open Build

/-- What was there is as it was, apart from associations noted at the end of those followed from a context and
provisional joins at the end of the joins of a statement. -/
structure BuildState.Isolated (s t : BuildState) : Prop where
  contexts : ∀ (id : ContextId) (d : Context), s.contexts[id]? = some d →
    ∃ more, t.contexts[id]? = some (d.followAll more)
  statements : ∀ (m : StatementId) (st : Statement), s.statements[m]? = some st →
    ∃ joins : List Join, (∀ j ∈ joins, j.weak = true) ∧ t.statements[m]? = some (st.joinAll joins)

theorem BuildState.Extends.isolated {s t : BuildState} (h : s.Extends t) : s.Isolated t where
  contexts := h.contexts
  statements m st hm := by
    obtain ⟨joins, hj, ht⟩ := h.statements m st hm
    exact ⟨joins, fun j hmem => (hj j hmem).1, ht⟩

namespace Compiler

variable [Observer] {c : Compiler} {b s : BuildState}

/-- In whatever state a sequence is compiled, within whatever scope, and however that ends, all that was there
before is left alone. -/
theorem isolated_sequence (c : Compiler) (fuel : Nat) (parent : Option ContextId) (node : Node) (s : BuildState) :
    s.Isolated (((c.calls fuel).sequence parent node).run s).2 :=
  ((c.calls_derive fuel).sequence parent node s).1.isolated

theorem adds_finish {rec : Calls} (h : rec.Derive) {id : ContextId} {m : StatementId} (hb : b.Builds s id m) :
    Adds b s (fun r t => b.Owns t r.1) (finish rec id) := by
  have hend : ∀ t, b.Builds t id m → Adds b t (fun r t => b.Owns t r.1) (do
      pure ((← context id).statement, id)) := by
    intro t hb
    obtain ⟨d, hd, rfl, -⟩ := hb.context
    rw [Adds, run_bind, run_context_of hd]
    refine ⟨hb.grown, fun r u hr => ?_⟩
    cases hr
    exact hb.owns
  obtain ⟨d, hd, -, hu⟩ := hb.context
  have hselect := worksOn_selectItems (b := b) h [] .all s hb (nothing_above s m)
  rw [finish, Adds, run_bind, run_context_of hd]
  simp only [hu]
  exact hselect.bind fun _ t _ _ ht => hend t ht.1

theorem adds_root (c : Compiler) (fuel : Nat) (node : Node) :
    Adds {} {} (fun r t => BuildState.Owns {} t r.1) (c.root fuel node) := by
  have hcalls := c.calls_derive fuel
  refine Adds.bind (hcalls.sequence none node {}) fun id t _ ht hmade => ?_
  cases hmade with
  | rows m hb => exact adds_finish hcalls hb
  | update parent m sequence hd ho =>
    rw [Adds, run_finish_update (c.calls fuel) hd rfl]
    refine ⟨ht, fun r u hr => ?_⟩
    cases hr
    exact ho

end Compiler

/-- The value of statement `n` is read somewhere in statement `m`. -/
def CompiledQuery.Refers (q : CompiledQuery) (m n : StatementId) : Prop :=
  ∃ st, q.statements[m]? = some st ∧ .subquery n ∈ st.leaves

/-- A reference to a sub-query leads to a younger statement, never the root, that selects a single value; so
following references comes to an end. -/
theorem Compiler.subqueries_of_compile {c : Compiler} {fuel : Nat} {node : Node} {q : CompiledQuery}
    (h : c.compile fuel node = .ok q) :
    (∀ m n, q.Refers m n → m < n ∧ n ≠ q.root ∧ ∃ st, q.statements[n]? = some st ∧ st.Scalar) ∧
      WellFounded fun n m => q.Refers m n := by
  have hrefers : ∀ m n, q.Refers m n → m < n ∧ n ≠ q.root ∧ ∃ st, q.statements[n]? = some st ∧ st.Scalar := by
    intro m n ⟨st, hm, hn⟩
    obtain ⟨number, id, t, hrun, rfl⟩ := of_compile h
    obtain ⟨hext, hroot⟩ := c.adds_root fuel node
    rw [hrun] at hext
    have ho : BuildState.Owns {} t number := hroot (number, id) t hrun
    obtain ⟨hlt, hscalar⟩ := hext.scalar m st n (Nat.zero_le m) hm hn
    refine ⟨hlt, ?_, hscalar⟩
    rintro rfl
    exact ho.unread m st (Nat.zero_le m) hm hn
  refine ⟨hrefers, Subrelation.wf ?_ (measure fun m => q.statements.length - m).wf⟩
  intro n m hr
  obtain ⟨hlt, -, st, hst, -⟩ := hrefers m n hr
  have hn := (List.getElem?_eq_some_iff.mp hst).1
  exact Nat.sub_lt_sub_left (Nat.lt_trans hlt hn) hlt

theorem Compiler.subqueries_renowned :
    Compiler.company.compile 12 renowned = .ok renownedQuery ∧ renownedQuery.Refers 0 1 ∧
      (0 < 1 ∧ 1 ≠ renownedQuery.root ∧ ∃ st, renownedQuery.statements[1]? = some st ∧ st.Scalar) ∧
      WellFounded fun n m => renownedQuery.Refers m n := by
  have hq : Compiler.company.compile 12 renowned = .ok renownedQuery := rfl
  have hrefers : renownedQuery.Refers 0 1 := ⟨_, rfl, .tail _ (.tail _ (.head _))⟩
  obtain ⟨hall, hwf⟩ := Compiler.subqueries_of_compile hq
  exact ⟨hq, hrefers, hall 0 1 hrefers, hwf⟩

end ObjectQuery
