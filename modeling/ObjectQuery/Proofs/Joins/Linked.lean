import ObjectQuery.Proofs.Joins.Links

/-!
The joins of a statement and the contexts of the associations followed in it correspond one to one, and keep doing
so under every change that a compilation makes: an association is brought in together with its context.
-/
namespace ObjectQuery

open Build

/-- The join brings in the rows of the link. It equates the association's own column, read from the owner's rows,
to the foreign one, read from the joined rows; the owner's rows are read before. -/
structure Compiler.Joins (c : Compiler) (s : BuildState) (before : List TableSource) (l : Link) (j : Join) :
    Prop where
  source : j.source = l.source
  follows : ∃ r e a, s.RowsAt l.owner l.statement r ∧ r.source ∈ before ∧
    c.schema.mapping.entity? r.entity = some e ∧ e.member? l.name = some (.association a) ∧
    j.kind = (if a.optional then .left else .inner) ∧
    j.on = .equal (.column a.own (some r.aliasName)) (.column a.foreign (some l.source.aliasName))

/-- The joins of the statement are those of its links, in order. -/
structure Compiler.Corresponds (c : Compiler) (s : BuildState) (m : StatementId) : Prop where
  length : (s.links m).length = (s.sources m).joins.length
  joins : ∀ i l j, (s.links m)[i]? = some l → (s.sources m).joins[i]? = some j →
    c.Joins s ((s.sources m).before i) l j

structure Compiler.Matched (c : Compiler) (s : BuildState) : Prop where
  joins : ∀ m, c.Corresponds s m
  noted : s.Noted
  once : ∀ (i j owner : ContextId) m n name q r, s.contexts[i]? = some (.association owner m name q) →
    s.contexts[j]? = some (.association owner n name r) → i = j
  distinct : s.AliasesDistinct

/-- What keeps joins and contexts matched: contexts read their rows in their statement, and aliases are counted. -/
structure Compiler.Linked (c : Compiler) (s : BuildState) : Prop where
  joins : ∀ m, c.Corresponds s m
  noted : s.Noted
  distinct : s.AliasesDistinct
  reads : ∀ id m r, s.RowsAt id m r → r.source ∈ (s.sources m).tables
  counted : ∀ m, ∀ t ∈ (s.sources m).tables, ∃ n, n ≤ s.aliases ∧ t.aliasName = aliasText n

variable {c : Compiler} {s t : BuildState}

namespace Compiler

theorem Joins.mono {before : List TableSource} {l : Link} {j : Join} (h : c.Joins s before l j)
    (hk : s.KeepsContexts t) : c.Joins t before l j := by
  obtain ⟨r, e, a, hr, hb, he, ha, hkind, hon⟩ := h.follows
  obtain ⟨f, hf⟩ := hr.mono hk
  exact ⟨h.source, _, e, a, hf, hb, he, ha, hkind, hon⟩

/-- A join that has become a lasting one is the same join. -/
theorem Corresponds.mono {m : StatementId} (h : c.Corresponds s m) (hk : s.KeepsContexts t)
    (hl : t.links m = s.links m) (hs : (t.sources m).settle = (s.sources m).settle) : c.Corresponds t m := by
  have hjoins : (t.sources m).settle.joins = (s.sources m).settle.joins := congrArg Sources.joins hs
  have hbefore : ∀ i, (t.sources m).before i = (s.sources m).before i := by
    intro i
    rw [← Sources.before_settle, hs, Sources.before_settle]
  constructor
  · have hlength := congrArg List.length hjoins
    simp only [Sources.settle, List.length_map] at hlength
    rw [hl, hlength]
    exact h.length
  · intro i l j hi hj
    have hsettle : (s.sources m).settle.joins[i]? = some { j with weak := false } := by
      rw [← hjoins]
      simp [Sources.settle, hj]
    obtain ⟨j', hj', he⟩ : ∃ j', (s.sources m).joins[i]? = some j' ∧
        ({ j' with weak := false } : Join) = { j with weak := false } := by
      simpa [Sources.settle] using hsettle
    have hold := (h.joins i l j' (hl ▸ hi) hj').mono hk
    -- lasting or not, the join has the same source, kind and condition
    simp only [Join.mk.injEq] at he
    rw [hbefore]
    refine ⟨he.1 ▸ hold.source, ?_⟩
    rw [← he.2.1, ← he.2.2.1]
    exact hold.follows

/-- A link and its join may be added, if the join refers to what is read already. -/
theorem Corresponds.snoc {m : StatementId} {l : Link} {j : Join} (h : c.Corresponds s m) (hk : s.KeepsContexts t)
    (hl : t.links m = s.links m ++ [l]) (hroot : (t.sources m).root = (s.sources m).root)
    (hjoins : (t.sources m).joins = (s.sources m).joins ++ [j]) (hj : c.Joins t (s.sources m).tables l j) :
    c.Corresponds t m := by
  have hlength := h.length
  constructor
  · simp [hl, hjoins, hlength]
  · intro i l' j' hi hj'
    have hle : i ≤ (s.sources m).joins.length := by
      have hlt := (List.getElem?_eq_some_iff.mp hj').1
      rw [hjoins, List.length_append, List.length_singleton] at hlt
      omega
    have hbefore : (t.sources m).before i = (s.sources m).before i := by
      simp [Sources.before, hroot, hjoins, List.take_append_of_le_length hle]
    rw [hl] at hi
    rw [hjoins] at hj'
    rw [hbefore]
    cases of_getElem?_concat hi with
    | inl hi =>
      have hlt : i < (s.sources m).joins.length := hlength ▸ (List.getElem?_eq_some_iff.mp hi).1
      rw [List.getElem?_append_left hlt] at hj'
      exact (h.joins i l' j' hi hj').mono hk
    | inr hi =>
      have hi' : i = (s.sources m).joins.length := hi.1.trans hlength
      simp only [hi', List.getElem?_concat_length, Option.some.injEq] at hj'
      have htables : (s.sources m).before i = (s.sources m).tables := by
        simp [Sources.before, Sources.tables, hi']
      rw [htables, hi.2, ← hj']
      exact hj

/-! Writes that bring in no association. -/

theorem linked_empty (c : Compiler) : c.Linked {} := by
  have hcontext : ∀ (id : ContextId) (d : Context), ({} : BuildState).contexts[id]? ≠ some d := by simp
  have htables : ∀ m, (({} : BuildState).sources m).tables = [] := by
    simp [BuildState.sources, Sources.empty, Sources.tables]
  refine ⟨fun m => ⟨rfl, fun i l j hi => ?_⟩, ?_, ?_, ?_, ?_⟩
  · simp [BuildState.links] at hi
  · intro id owner m name q hq
    exact absurd hq (hcontext id _)
  · intro m k i j t u ht
    simp [htables] at ht
  · intro id m r hr
    obtain ⟨d, hd, -⟩ := hr
    exact absurd hd (hcontext id d)
  · intro m t ht
    simp [htables] at ht

theorem Linked.of_contexts (h : c.Linked s) (hc : t.contexts = s.contexts)
    (hs : ∀ m, (t.sources m).settle = (s.sources m).settle) (ha : s.aliases ≤ t.aliases) : c.Linked t := by
  have hkeeps : s.KeepsContexts t := fun id d hd => ⟨d, hc ▸ hd, rfl⟩
  have hlinks : ∀ m, t.links m = s.links m := fun m => by rw [BuildState.links, hc, BuildState.links]
  have hrows : ∀ id m r, t.RowsAt id m r ↔ s.RowsAt id m r := fun id m r => by
    rw [BuildState.RowsAt, hc, BuildState.RowsAt]
  have htables : ∀ m, (t.sources m).tables = (s.sources m).tables := fun m => by
    rw [← Sources.tables_settle, hs, Sources.tables_settle]
  refine ⟨fun m => (h.joins m).mono hkeeps (hlinks m) (hs m), ?_, ?_, ?_, ?_⟩
  · intro id owner m name q hq
    obtain ⟨r, hr, hl⟩ := h.noted id owner m name q (hc ▸ hq)
    exact ⟨r, (hrows owner m r).mpr hr, hl⟩
  · intro m k i j t u ht hu he
    exact h.distinct m k i j t u (htables m ▸ ht) (htables k ▸ hu) he
  · intro id m r hr
    rw [htables]
    exact h.reads id m r ((hrows id m r).mp hr)
  · intro m u hu
    obtain ⟨n, hn, he⟩ := h.counted m u (htables m ▸ hu)
    exact ⟨n, Nat.le_trans hn ha, he⟩

theorem Linked.reparent (h : c.Linked s) (id : ContextId) (parent : Option ContextId) :
    c.Linked (s.adjust id (Context.withParent parent)) := by
  have hkeeps := s.keepsContexts_adjust id (Context.core_withParent parent)
  have hlink : ∀ d : Context, (d.withParent parent).link? = d.link? := by
    intro d
    cases d <;> rfl
  refine ⟨fun m => (h.joins m).mono hkeeps (s.links_adjust id hlink m) rfl, ?_, h.distinct, ?_, h.counted⟩
  · intro k owner m name q hq
    obtain ⟨r, hr⟩ := BuildState.association_of_adjust (Context.core_withParent parent) hq
    obtain ⟨p, hp, hl⟩ := h.noted k owner m name r hr
    exact ⟨p, BuildState.rowsAt_reparent.mpr hp, hl⟩
  · intro k m r hr
    exact h.reads k m r (BuildState.rowsAt_reparent.mp hr)

/-- A context of no association may be entered, if its statement reads its rows. -/
theorem Linked.enter {d : Context} (h : c.Linked s) (hl : d.link? = none)
    (hr : ∀ r, d.rows? = some r → r.source ∈ (s.sources d.statement).tables) : c.Linked (s.enter d) := by
  have hlinks : ∀ m, (s.enter d).links m = s.links m := fun m => by simp [BuildState.links_enter, hl]
  refine ⟨fun m => (h.joins m).mono (s.keepsContexts_enter d) (hlinks m) rfl, ?_, h.distinct, ?_, h.counted⟩
  · intro id owner m name q hq
    cases of_getElem?_concat hq with
    | inl hq =>
      obtain ⟨r, hr, hl⟩ := h.noted id owner m name q hq
      exact ⟨r, hr.enter d, hl⟩
    | inr hq =>
      rw [← hq.2] at hl
      cases hl
  · intro id m r hrows
    cases BuildState.of_rowsAt_enter hrows with
    | inl hold => exact h.reads id m r hold
    | inr hnew => exact hnew.1 ▸ hr r hnew.2

/-! Writes that have a statement read one more table, under the next alias. -/

/-- The statement reads one more table, under the next alias. -/
structure ReadsNext (s t : BuildState) (m : StatementId) (table : TableId) : Prop where
  aliases : t.aliases = s.aliases + 1
  self : (t.sources m).tables = (s.sources m).tables ++ [s.nextSource table]
  others : ∀ k, k ≠ m → t.sources k = s.sources k

section ReadsNext

variable {m : StatementId} {table : TableId} (h : ReadsNext s t m table)
include h

theorem ReadsNext.of_getElem? {k : StatementId} {i : Nat} {u : TableSource}
    (hu : (t.sources k).tables[i]? = some u) :
    (s.sources k).tables[i]? = some u ∨ k = m ∧ i = (s.sources m).tables.length ∧ u = s.nextSource table := by
  by_cases hk : k = m
  · rw [hk, h.self] at hu
    rw [hk]
    exact (of_getElem?_concat hu).imp_right fun hi => ⟨rfl, hi⟩
  · rw [h.others k hk] at hu
    exact .inl hu

theorem ReadsNext.mem {k : StatementId} {u : TableSource} (hu : u ∈ (s.sources k).tables) :
    u ∈ (t.sources k).tables := by
  by_cases hk : k = m
  · rw [hk] at hu
    rw [hk, h.self]
    exact List.mem_append_left _ hu
  · rw [h.others k hk]
    exact hu

theorem ReadsNext.counted (hs : c.Linked s) (k : StatementId) (u : TableSource) (hu : u ∈ (t.sources k).tables) :
    ∃ n, n ≤ t.aliases ∧ u.aliasName = aliasText n := by
  obtain ⟨i, hi⟩ := List.mem_iff_getElem?.mp hu
  rw [h.aliases]
  cases h.of_getElem? hi with
  | inl hold =>
    obtain ⟨n, hn, he⟩ := hs.counted k u (List.mem_of_getElem? hold)
    exact ⟨n, Nat.le_succ_of_le hn, he⟩
  | inr hnew => exact ⟨s.aliases + 1, Nat.le_refl _, by rw [hnew.2.2]; rfl⟩

theorem ReadsNext.distinct (hs : c.Linked s) : t.AliasesDistinct := by
  have hfresh : ∀ (k i : Nat) (u : TableSource), (s.sources k).tables[i]? = some u →
      u.aliasName ≠ (s.nextSource table).aliasName := by
    intro k i u hu he
    obtain ⟨n, hn, hu⟩ := hs.counted k u (List.mem_of_getElem? hu)
    have hnext : n = s.aliases + 1 := aliasText_injective (hu.symm.trans he)
    omega
  intro k l i j u v hu hv he
  cases h.of_getElem? hu with
  | inl hu =>
    cases h.of_getElem? hv with
    | inl hv => exact hs.distinct k l i j u v hu hv he
    | inr hv => exact absurd (hv.2.2 ▸ he) (hfresh k i u hu)
  | inr hu =>
    cases h.of_getElem? hv with
    | inl hv => exact absurd (hu.2.2 ▸ he.symm) (hfresh l j v hv)
    | inr hv => exact ⟨hu.1.trans hv.1.symm, hu.2.1.trans hv.2.1.symm⟩

end ReadsNext

theorem Linked.openSource (h : c.Linked s) (table : TableId) : c.Linked (s.openSource table) := by
  have hempty : s.sources s.statements.length = .empty := by simp [BuildState.sources]
  have hnext : ReadsNext s (s.openSource table) s.statements.length table := by
    refine ⟨rfl, ?_, fun k hk => by rw [s.sources_openSource, if_neg hk]⟩
    rw [s.sources_openSource, if_pos rfl, hempty]
    rfl
  refine ⟨fun k => ?_, h.noted, hnext.distinct h, fun id k r hr => hnext.mem (h.reads id k r hr), hnext.counted h⟩
  by_cases hk : k = s.statements.length
  · -- the new statement has no joins yet, and no context works on it
    have hlength : (s.links k).length = 0 := by rw [(h.joins k).length, hk, hempty]; rfl
    have hjoins : ((s.openSource table).sources k).joins = [] := by rw [s.sources_openSource, if_pos hk]
    refine ⟨by rw [hjoins]; exact hlength, fun i l j hi hj => ?_⟩
    rw [hjoins] at hj
    cases hj
  · exact (h.joins k).mono (fun id d hd => ⟨d, hd, rfl⟩) rfl (by rw [hnext.others k hk])

theorem Linked.enterSource (h : c.Linked s) (parent : Option ContextId) (e : Entity) :
    c.Linked (s.enterSource parent e) := by
  have hsources : (s.openSource e.table).sources s.statements.length = ⟨some (s.nextSource e.table), []⟩ := by
    rw [s.sources_openSource, if_pos rfl]
  refine (h.openSource e.table).enter rfl fun r hr => ?_
  cases hr
  have htables : ((s.openSource e.table).sources s.statements.length).tables = [s.nextSource e.table] := by
    rw [hsources]
    rfl
  exact htables ▸ List.mem_singleton_self _

theorem Linked.exists_statement {id : ContextId} {m : StatementId} {r : Rows} (h : c.Linked s)
    (hr : s.RowsAt id m r) : ∃ st, s.statements[m]? = some st := by
  have hread := h.reads id m r hr
  cases hst : s.statements[m]? with
  | none => simp [BuildState.sources, hst, Sources.empty, Sources.tables] at hread
  | some st => exact ⟨st, rfl⟩

section Follow

variable {owner : ContextId} {name : String} {d : Context} {r : Rows} {a : Association} {target : Entity}
  (h : c.Linked s) (hnew : c.Unfollowed s owner name d r a target)
include h hnew

theorem Linked.sources_joinSource (m : StatementId) : (s.joinSource d.statement r a target.table).sources m =
    if d.statement = m then (s.sources m).reach r a (s.nextSource target.table) else s.sources m := by
  obtain ⟨st, hst⟩ := h.exists_statement ⟨d, hnew.owns, rfl, hnew.rows⟩
  exact BuildState.sources_joinSource hst r a target.table m

theorem Linked.readsNext_joinSource :
    ReadsNext s (s.joinSource d.statement r a target.table) d.statement target.table := by
  refine ⟨rfl, ?_, fun k hk => by rw [h.sources_joinSource hnew, if_neg (Ne.symm hk)]⟩
  rw [h.sources_joinSource hnew, if_pos rfl, Sources.tables_reach]

/-- An association that was followed and noted is matched with its join. -/
theorem Linked.corresponds_noteAssociation (m : StatementId) :
    c.Corresponds (s.noteAssociation owner name d r a target) m := by
  have howner : s.RowsAt owner d.statement r := ⟨d, hnew.owns, rfl, hnew.rows⟩
  have hkeeps := s.keepsContexts_noteAssociation owner name d r a target
  have hsources : (s.noteAssociation owner name d r a target).sources m =
      if d.statement = m then (s.sources m).reach r a (s.nextSource target.table) else s.sources m :=
    h.sources_joinSource hnew m
  have hlinks := s.links_noteAssociation owner name d r a target m
  by_cases hm : d.statement = m
  · obtain ⟨e, he, ha⟩ := hnew.member
    have hread : r.source ∈ (s.sources m).tables := hm ▸ h.reads owner d.statement r howner
    rw [if_pos hm] at hsources hlinks
    refine (h.joins m).snoc hkeeps hlinks (by rw [hsources]; rfl) (by rw [hsources]; rfl) ⟨rfl, ?_⟩
    exact ⟨_, e, a, howner.noteAssociation s owner name d r a target, hread, he, ha, rfl, rfl⟩
  · rw [if_neg hm] at hsources hlinks
    exact (h.joins m).mono hkeeps (by rw [hlinks, List.append_nil]) (by rw [hsources])

theorem Linked.noted_noteAssociation : (s.noteAssociation owner name d r a target).Noted := by
  intro id o m n q hq
  obtain ⟨q', hq'⟩ := BuildState.association_of_adjust (Context.core_follow name _) hq
  cases of_getElem?_concat hq' with
  | inl hold =>
    obtain ⟨p, hp, hl⟩ := h.noted id o m n q' hold
    exact ⟨_, hp.noteAssociation s owner name d r a target, by simp [List.lookup_append, hl]⟩
  | inr hentered =>
    have howner : s.RowsAt owner d.statement r := ⟨d, hnew.owns, rfl, hnew.rows⟩
    have hid : s.contexts.length = id := hentered.1.symm
    cases hentered.2
    exact ⟨_, howner.noteAssociation s owner name d r a target, by simp [List.lookup_append, hnew.unfollowed, hid]⟩

theorem Linked.noteAssociation : c.Linked (s.noteAssociation owner name d r a target) := by
  have hnext : ReadsNext s (s.noteAssociation owner name d r a target) d.statement target.table :=
    ⟨rfl, (h.readsNext_joinSource hnew).self, (h.readsNext_joinSource hnew).others⟩
  refine ⟨h.corresponds_noteAssociation hnew, h.noted_noteAssociation hnew, hnext.distinct h, ?_, hnext.counted h⟩
  intro id m q hq
  cases s.of_rowsAt_noteAssociation owner name d r a target hq with
  | inl hold =>
    obtain ⟨p, hp, hsource⟩ := hold
    exact hsource ▸ hnext.mem (h.reads id m p hp)
  | inr hentered =>
    rw [hentered.1, hentered.2, hnext.self]
    exact List.mem_append_right _ (List.mem_singleton_self _)

end Follow

theorem Linked.countAlias (h : c.Linked s) : c.Linked s.countAlias :=
  h.of_contexts rfl (fun _ => rfl) (Nat.le_succ _)

/-- Statements that keep what they read from keep the joins matched. -/
theorem Linked.alter {m : StatementId} {f : Statement → Statement} (h : c.Linked s)
    (hf : ∀ st, (f st).sources = st.sources ∨ (f st).sources = st.sources.settle) : c.Linked (s.alter m f) := by
  refine h.of_contexts rfl (fun k => ?_) (Nat.le_refl _)
  rw [s.sources_alter]
  by_cases hk : m = k
  · rw [if_pos hk, ← hk]
    cases hst : s.statements[m]? with
    | none => simp [BuildState.sources, hst]
    | some st =>
      have hsettle : st.sources.settle.settle = st.sources.settle := by simp [Sources.settle, Function.comp_def]
      cases hf st with
      | inl he => simp [BuildState.sources, hst, he]
      | inr he => simp [BuildState.sources, hst, he, hsettle]
  · rw [if_neg hk]

end Compiler

end ObjectQuery
