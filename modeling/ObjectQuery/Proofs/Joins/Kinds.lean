import ObjectQuery.Proofs.Joins.Matched

/-!
The kinds of joins along a path. Every association is joined by its own kind, whatever the joins before it: a path
through an optional association to a required one comes to an inner join after a left one.
-/
namespace ObjectQuery

open Build

/-- The join brings in the rows of the context, which was entered for an association. -/
def BuildState.JoinOf (s : BuildState) (id : ContextId) (j : Join) : Prop :=
  ∃ owner m name q, s.contexts[id]? = some (.association owner m name q) ∧
    j ∈ (s.sources m).joins ∧ j.source = q.source

/-- The rows of the context have the association under that name. -/
def Compiler.Leads (c : Compiler) (s : BuildState) (owner : ContextId) (name : String) (a : Association) : Prop :=
  ∃ m r e, s.RowsAt owner m r ∧ c.schema.mapping.entity? r.entity = some e ∧
    e.member? name = some (.association a)

/-- From the one context to the other, associations were followed one after another, each with its own join. -/
inductive Compiler.Followed (c : Compiler) (s : BuildState) (start : ContextId) :
    ContextId → List (Association × Join) → Prop
  | start : Followed c s start start []
  | step {owner id : ContextId} {m : StatementId} {name : String} {q : Rows} {steps : List (Association × Join)}
      {a : Association} {j : Join} (before : Followed c s start owner steps)
      (context : s.contexts[id]? = some (.association owner m name q)) (leads : c.Leads s owner name a)
      (join : s.JoinOf id j) : Followed c s start id (steps ++ [(a, j)])

/-- Every context of an association has a join, and its statement reads no other source under that alias. -/
structure Compiler.Joined (c : Compiler) (s : BuildState) : Prop where
  distinct : s.AliasesDistinct
  join : ∀ (id owner : ContextId) m name q, s.contexts[id]? = some (.association owner m name q) →
    ∃ j ∈ (s.sources m).joins, ∃ before, c.Joins s before ⟨owner, m, name, q.source⟩ j

variable {c : Compiler} {s t : BuildState} {node : Node}

theorem BuildState.link_mem_links {id owner : ContextId} {m : StatementId} {name : String} {q : Rows}
    (h : s.contexts[id]? = some (.association owner m name q)) : ⟨owner, m, name, q.source⟩ ∈ s.links m := by
  have hlink : (⟨owner, m, name, q.source⟩ : Link) ∈ s.contexts.filterMap Context.link? :=
    List.mem_filterMap.mpr ⟨_, List.mem_of_getElem? h, rfl⟩
  exact List.mem_filter.mpr ⟨hlink, by simp⟩

theorem BuildState.AliasesDistinct.join_eq (h : s.AliasesDistinct) {m : StatementId} {j k : Join}
    (hj : j ∈ (s.sources m).joins) (hk : k ∈ (s.sources m).joins) (he : j.source = k.source) : j = k := by
  have hplace : ∀ {i : Nat} {j : Join}, (s.sources m).joins[i]? = some j →
      (s.sources m).tables[(s.sources m).root.toList.length + i]? = some j.source := by
    intro i j hi
    rw [Sources.tables, List.getElem?_append_right (Nat.le_add_right _ _), Nat.add_sub_cancel_left]
    simp [hi]
  obtain ⟨i, hi⟩ := List.mem_iff_getElem?.mp hj
  obtain ⟨l, hl⟩ := List.mem_iff_getElem?.mp hk
  have hil := (h m m _ _ _ _ (hplace hi) (hplace hl) (congrArg TableSource.aliasName he)).2
  have hsame : i = l := by omega
  simpa [hsame, hl] using hi.symm

namespace Compiler

theorem Linked.joined (h : c.Linked s) : c.Joined s := by
  refine ⟨h.distinct, fun id owner m name q hd => ?_⟩
  obtain ⟨i, hi⟩ := List.mem_iff_getElem?.mp (BuildState.link_mem_links hd)
  have hlt : i < (s.sources m).joins.length := by
    have hlt := (List.getElem?_eq_some_iff.mp hi).1
    rwa [(h.joins m).length] at hlt
  have hj := List.getElem?_eq_getElem hlt
  exact ⟨_, List.mem_of_getElem? hj, _, (h.joins m).joins i _ _ hi hj⟩

section Introduces

variable {owner : ContextId} {name : String} {d : Context} {r : Rows} {a : Association} {target : Entity}
  (h : c.Linked s) (hnew : c.Unfollowed s owner name d r a target)
include h hnew

theorem Linked.joined_joinSource : c.Joined (s.joinSource d.statement r a target.table) := by
  have hkeeps : s.KeepsContexts (s.joinSource d.statement r a target.table) := fun id d hd => ⟨d, hd, rfl⟩
  refine ⟨(h.readsNext_joinSource hnew).distinct h, fun id o m n q hd => ?_⟩
  obtain ⟨j, hj, before, hjoin⟩ := h.joined.join id o m n q hd
  refine ⟨j, ?_, before, hjoin.mono hkeeps⟩
  rw [h.sources_joinSource hnew]
  split
  · exact List.mem_append_left _ hj
  · exact hj

/-- The join comes first, so the context has it as soon as it is entered. -/
theorem Linked.joined_enterAssociation : c.Joined (s.enterAssociation owner name d r a target) := by
  have hjoined := h.joined_joinSource hnew
  refine ⟨hjoined.distinct, fun id o m n q hd => ?_⟩
  cases of_getElem?_concat hd with
  | inl hold =>
    obtain ⟨j, hj, before, hjoin⟩ := hjoined.join id o m n q hold
    exact ⟨j, hj, before, hjoin.mono (BuildState.keepsContexts_enter _ _)⟩
  | inr hentered =>
    cases hentered.2
    obtain ⟨e, he, ha⟩ := hnew.member
    have howner : s.RowsAt owner d.statement r := ⟨d, hnew.owns, rfl, hnew.rows⟩
    have hsources : (s.enterAssociation owner name d r a target).sources d.statement =
        (s.sources d.statement).reach r a (s.nextSource target.table) := by
      have hjoin := h.sources_joinSource hnew d.statement
      rwa [if_pos rfl] at hjoin
    rw [hsources]
    refine ⟨_, List.mem_append_right _ (List.mem_singleton_self _), [r.source], rfl, ?_⟩
    exact ⟨r, e, a, howner.enter _, List.mem_singleton_self _, he, ha, rfl, rfl⟩

end Introduces

theorem joined_of_introduces (h : c.Introduces t s) (ht : c.Linked t) : c.Joined s := by
  cases h with
  | joined hnew => exact ht.joined_joinSource hnew
  | entered hnew => exact ht.joined_enterAssociation hnew

theorem Reached.joined (h : c.Reached node s) : c.Joined s := by
  obtain ⟨o, fuel, rfl⟩ := h
  cases @linkedAt_root o c fuel node with
  | inl h => exact h.joined
  | inr h =>
    obtain ⟨-, -, u, hu, hi⟩ := h
    exact joined_of_introduces hi hu

theorem Leads.unique {owner : ContextId} {name : String} {a b : Association} (h : c.Leads s owner name a)
    (k : c.Leads s owner name b) : a = b := by
  obtain ⟨m, r, e, hr, he, ha⟩ := h
  obtain ⟨n, q, f, hq, hf, hb⟩ := k
  have hrows : r = q := (hr.unique hq).2
  have hentity : e = f := by simpa [hrows, hf] using he.symm
  simpa [hentity, hb] using ha.symm

theorem Joined.kind (h : c.Joined s) {id owner : ContextId} {m : StatementId} {name : String} {q : Rows}
    (hd : s.contexts[id]? = some (.association owner m name q)) :
    ∃ a j, c.Leads s owner name a ∧ (∀ k, s.JoinOf id k ↔ k = j) ∧ (j.kind = .left ↔ a.optional) := by
  obtain ⟨j, hj, before, hjoin⟩ := h.join id owner m name q hd
  obtain ⟨r, e, a, hr, -, he, ha, hkind, -⟩ := hjoin.follows
  refine ⟨a, j, ⟨m, r, e, hr, he, ha⟩, fun k => ⟨fun hk => ?_, fun hk => ?_⟩, ?_⟩
  · obtain ⟨o, n, name', q', hd', hmem, hsource⟩ := hk
    have hsame : Context.association o n name' q' = .association owner m name q := by simpa [hd] using hd'.symm
    cases hsame
    exact h.distinct.join_eq hmem hj (hsource.trans hjoin.source.symm)
  · rw [hk]
    exact ⟨owner, m, name, q, hd, hj, hjoin.source⟩
  · rw [hkind]
    by_cases ho : a.optional <;> simp [ho]

theorem Joined.kind_of_followed (h : c.Joined s) {start id : ContextId} {steps : List (Association × Join)}
    (hf : c.Followed s start id steps) : ∀ p ∈ steps, (p.2.kind = .left ↔ p.1.optional) := by
  induction hf with
  | start => simp
  | step before context leads join ih =>
    obtain ⟨b, k, hb, hk, hkind⟩ := h.kind context
    have hleads := leads.unique hb
    have hjoin := (hk _).mp join
    intro p hp
    cases List.mem_append.mp hp with
    | inl hp => exact ih p hp
    | inr hp =>
      rw [List.mem_singleton.mp hp, hleads, hjoin]
      exact hkind

/-- An association has a left join exactly if it is optional itself. So along a path left joins are followed by
left joins only if optional associations are followed by optional ones only. -/
theorem Reached.left_iff_optional (h : c.Reached node s) :
    (∀ (id owner : ContextId) m name q, s.contexts[id]? = some (.association owner m name q) →
      ∃ a j, c.Leads s owner name a ∧ (∀ k, s.JoinOf id k ↔ k = j) ∧ (j.kind = .left ↔ a.optional)) ∧
    ∀ start id steps, c.Followed s start id steps →
      ((steps.Pairwise fun p q => p.2.kind = .left → q.2.kind = .left) ↔
        steps.Pairwise fun p q => p.1.optional → q.1.optional) := by
  refine ⟨fun id owner m name q hd => h.joined.kind hd, fun start id steps hf => ?_⟩
  have hkind := h.joined.kind_of_followed hf
  exact List.Pairwise.iff_of_mem fun hp hq => by rw [hkind _ hp, hkind _ hq]

end Compiler

/-- The rows of employees, of their managers and of the departments of these. -/
def readManagersDepartment : BuildState :=
  ((Compiler.company.root 9 managersDepartment).run {}).2

theorem joinOf_manager : readManagersDepartment.JoinOf 2 (readManagersDepartment.sources 0).joins[0]! :=
  ⟨0, 0, "manager", ⟨"Employee", 0, "t2", [("department", 3)]⟩, rfl, .head _, rfl⟩

theorem joinOf_department : readManagersDepartment.JoinOf 3 (readManagersDepartment.sources 0).joins[1]! :=
  ⟨2, 0, "department", ⟨"Department", 1, "t3", []⟩, rfl, .tail _ (.head _), rfl⟩

/-- A manager need not be there, and has a department: an inner join follows a left one. -/
theorem not_left_after_left :
    ¬ ∀ (c : Compiler) (node : Node) (s : BuildState), c.Reached node s →
      ∀ (id owner : ContextId) m name q j k, s.contexts[id]? = some (.association owner m name q) →
        s.JoinOf owner j → j.kind = .left → s.JoinOf id k → k.kind = .left := by
  intro h
  have hreached : Compiler.company.Reached managersDepartment readManagersDepartment := ⟨.absent, 9, rfl⟩
  have hinner := h _ _ _ hreached 3 2 0 "department" ⟨"Department", 1, "t3", []⟩ _ _ rfl joinOf_manager rfl
    joinOf_department
  exact absurd hinner (by decide)

theorem left_iff_optional_managersDepartment :
    ∃ steps, Compiler.company.Reached managersDepartment readManagersDepartment ∧
      Compiler.company.Followed readManagersDepartment 0 3 steps ∧
      steps.map (fun p => (p.1.optional, p.2.kind)) = [(true, .left), (false, .inner)] ∧
      (¬ steps.Pairwise fun p q => p.2.kind = .left → q.2.kind = .left) ∧
      ∃ a j, Compiler.company.Leads readManagersDepartment 2 "department" a ∧
        (∀ k, readManagersDepartment.JoinOf 3 k ↔ k = j) ∧ (j.kind = .left ↔ a.optional) := by
  have hreached : Compiler.company.Reached managersDepartment readManagersDepartment := ⟨.absent, 9, rfl⟩
  have hmanager : Compiler.company.Leads readManagersDepartment 0 "manager" ⟨"Employee", ⟨0, 2⟩, ⟨0, 0⟩, true⟩ :=
    ⟨0, ⟨"Employee", 0, "t1", [("manager", 2)]⟩, _, ⟨_, rfl, rfl, rfl⟩, rfl, rfl⟩
  have hdepartment :
      Compiler.company.Leads readManagersDepartment 2 "department" ⟨"Department", ⟨0, 3⟩, ⟨1, 0⟩, false⟩ :=
    ⟨0, ⟨"Employee", 0, "t2", [("department", 3)]⟩, _, ⟨_, rfl, rfl, rfl⟩, rfl, rfl⟩
  have hfirst : Compiler.company.Followed readManagersDepartment 0 2 _ :=
    .step (q := ⟨"Employee", 0, "t2", [("department", 3)]⟩) .start rfl hmanager joinOf_manager
  have hpath : Compiler.company.Followed readManagersDepartment 0 3 _ :=
    .step (q := ⟨"Department", 1, "t3", []⟩) hfirst rfl hdepartment joinOf_department
  have hleft := hreached.left_iff_optional
  refine ⟨_, hreached, hpath, rfl, ?_, hleft.1 3 2 0 "department" ⟨"Department", 1, "t3", []⟩ rfl⟩
  rw [hleft.2 0 3 _ hpath]
  simp

end ObjectQuery
