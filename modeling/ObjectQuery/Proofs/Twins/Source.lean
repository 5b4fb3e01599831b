import ObjectQuery.Proofs.Calls.Operator
import ObjectQuery.Proofs.Coherent
import ObjectQuery.Proofs.Nested.Operators

/-!
Sources with filters, and what a single member of their rows denotes: a column only if it is one of the table itself.
-/
namespace ObjectQuery

open World Build

/-- The rows of a table, filtered any number of times. -/
inductive Node.Plain : Node → Prop
  | source (name : String) : Plain (.source name)
  | filter {node : Node} (h : Plain node) (condition : Lambda) : Plain (node.filter condition)

/-- The context has rows of the table, and its statement assigns nothing yet. -/
def BuildState.Opened (s : BuildState) (id : ContextId) (m : StatementId) (table : TableId) : Prop :=
  ∃ r st, s.contexts[id]? = some (.table none m r) ∧ r.table = table ∧ s.statements[m]? = some st ∧
    st.update = .empty

namespace Compiler

variable {c : Compiler} {n : Nat} {s t : BuildState} {id : ContextId} {m : StatementId} {table : TableId}

/-! The builders that are used if all are there. -/

section Builders

variable (hall : c.builders = Builder.all) (node : Node)

include hall

theorem builderFor_filter (condition : Lambda) : c.builderFor (node.filter condition) = .ok .filter := by
  rw [builderFor, hall]
  rfl

theorem builderFor_set (member : Lambda) (value : Expr) : c.builderFor (node.set member value) = .ok .set := by
  rw [builderFor, hall]
  rfl

theorem builderFor_update : c.builderFor node.update = .ok .update := by
  rw [builderFor, hall]
  rfl

theorem builderFor_updateWith (setter : Lambda) : c.builderFor (node.updateWith setter) = .ok .update := by
  rw [builderFor, hall]
  rfl

end Builders

/-- An operator is compiled over its source. -/
theorem sequence_chain {rec : Calls} {b : Builder} {node : Node} {kind : OperatorKind} {operands : List Argument}
    (hb : c.builderFor (node.chain kind operands) = .ok b) (p : Option ContextId) :
    c.sequence rec p (node.chain kind operands) =
      rec.sequence p node >>= fun id => c.build rec b (node.chain kind operands) (some id) p := by
  rw [sequence, hb, primarySequence?, Node.primary?_chain]
  exact bind_map_left some (rec.sequence p node) fun source => c.build rec b _ source p

theorem opened_of_run_restrict {l : Lambda} (h : s.Opened id m table)
    (hrun : (restrict (c.calls n) id l none).run s = (.ok (), t)) : t.Opened id m table := by
  obtain ⟨r, st, hd, hr, hst, hu⟩ := h
  obtain ⟨p, u, hcondition, hmodify⟩ := exists_of_run_bind hrun
  have hext : s.Extends u := by
    have hderives : Derives [] Predicate.leaves (lambdaCondition (c.calls n) id l none) :=
      (Derives.lambdaScope l id none).bind fun scope => (c.calls_derive n).condition _ scope l.body
    exact hderives.extends_of_run hcondition
  obtain ⟨more, hd'⟩ := hext.contexts id _ hd
  obtain ⟨joins, -, hst'⟩ := hext.statements m st hst
  obtain ⟨d, v, hread, hwrite⟩ := exists_of_run_bind hmodify
  obtain ⟨hctx, rfl⟩ := of_run_context hread
  rw [hd', Option.some.injEq] at hctx
  subst hctx
  have hm : (Context.followAll more (.table none m r)).statement = m := rfl
  rw [run_modifyStatement, hm, hst'] at hwrite
  obtain rfl := congrArg Prod.snd hwrite
  refine ⟨_, (st.joinAll joins).restrict p, hd', hr, ?_, hu⟩
  exact (BuildState.getElem?_alter ..).trans (by rw [if_pos rfl, hst']; rfl)

theorem opened_of_run (hall : c.builders = Builder.all) {node : Node} (h : node.Plain)
    (hrun : ((c.calls n).sequence none node).run s = (.ok id, t)) : ∃ m table, t.Opened id m table := by
  induction h generalizing n s t with
  | source name =>
    cases n with
    | zero => cases hrun
    | succ n =>
      have hsource : (c.buildSource (.source name) none).run s = (.ok id, t) := by
        have hb : c.builderFor (.source name) = .ok .source := by
          rw [builderFor, hall]
          rfl
        have hrun : (c.sequence (c.calls n) none (.source name)).run s = (.ok id, t) := hrun
        rw [sequence, hb] at hrun
        exact hrun
      have hends := c.ends_buildSource (s := s) (.source name) none
      rw [hsource] at hends
      cases hends with
      | opened e =>
        exact ⟨_, _, _, _, BuildState.getElem?_enter_self _ _, rfl, List.getElem?_concat_length .., rfl⟩
  | @filter node _ condition ih =>
    cases n with
    | zero => cases hrun
    | succ n =>
      have hfilter : (c.sequence (c.calls n) none (node.filter condition)).run s = (.ok id, t) := hrun
      rw [Node.filter, sequence_chain (builderFor_filter hall node condition)] at hfilter
      obtain ⟨sequence, u, hsource, hbuild⟩ := exists_of_run_bind hfilter
      have hbuild : (buildFilter (c.calls n) (node.filter condition) sequence none).run u = (.ok id, t) := hbuild
      obtain ⟨_, v, hcomposable, hrest⟩ := exists_of_run_bind hbuild
      obtain rfl := of_run_ensureComposable hcomposable
      obtain ⟨_, x, hrestrict, hlast⟩ := exists_of_run_bind hrest
      obtain ⟨⟨⟩, rfl⟩ := Prod.mk.inj hlast
      obtain ⟨m, table, hopened⟩ := ih hsource
      exact ⟨m, table, opened_of_run_restrict hopened hrestrict⟩

/-! A single member. -/

theorem longestMember?_singleton {e : Entity} {name found : String} {member : Member} {rest : List String}
    (h : longestMember? e [name] = some (found, member, rest)) : rest = [] := by
  obtain ⟨⟨n, r⟩, hmem, hf⟩ := List.exists_of_findSome?_eq_some h
  obtain ⟨m, -, he⟩ := Option.map_eq_some_iff.mp hf
  cases he
  have hmem : (found, rest) ∈ [(Dotted.join [name], ([] : List String))] := hmem
  exact (Prod.mk.inj (List.mem_singleton.mp hmem)).2

/-- Of the rows of a table, one step denotes a column that is declared for the table, or no column at all. -/
theorem declares_of_holds {K : Content c} {F : StatementId → Prop} {σ : World} {p : Option ContextId} {r : Rows}
    (hf : Fresh F σ) (hd : σ.context? id = some (.table p m r)) (name : String) :
    Holds c K F σ ((c.calls n).classify id [name]) fun x _ => ∀ k a, x = .field k a → c.Declares r.table k := by
  cases n with
  | zero => exact .throw
  | succ n =>
    have h := c.calls_respect K n
    change Holds c K F σ (c.classify (c.calls n) id [name]) _
    refine (Holds.sited ⟨_, hd, rfl⟩).read fun d' hok => ?_
    obtain ⟨hd', -, hok⟩ := hok
    rw [hd, Option.some.injEq] at hd'
    subst hd'
    refine holds_classifyMember_of hd [name] ?_ ?_ ?_ ?_
    · rintro x hx k a rfl
      cases hx
    · rintro r' e found k' hr he hl k a ⟨⟩
      cases hr
      exact (hok.rows r rfl).table_eq he ▸ .stored he (Entity.mem_of_member? (member?_of_longestMember? hl))
    · intro scope τ body hτ hscope
      exact (h.value body (hf.mono hτ) hscope).imp fun _ _ _ _ _ _ hk => nomatch hk
    · intro r' e found a rest target τ q _ _ hl _ hq
      obtain rfl := longestMember?_singleton hl
      -- the rows of the association as a whole are no column
      cases n with
      | zero => exact .throw
      | succ n =>
        change Holds c K F τ (c.classify (c.calls n) target []) _
        refine (Holds.sited ⟨_, hq, rfl⟩).read fun d hd => ?_
        obtain ⟨hd, -⟩ := hd
        rw [hq, Option.some.injEq] at hd
        subst hd
        refine (Holds.sited ⟨_, hq, rfl⟩).read fun d hd => ?_
        obtain ⟨hd, -⟩ := hd
        rw [hq, Option.some.injEq] at hd
        subst hd
        exact .pure fun _ _ hk => nomatch hk

end Compiler
end ObjectQuery
