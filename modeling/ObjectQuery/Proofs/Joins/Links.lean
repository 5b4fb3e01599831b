import ObjectQuery.Proofs.Laws.Follow

/-!
Joins and the contexts of associations, as parts of the state of a compilation.
-/
namespace ObjectQuery

open Build

def Rows.source (r : Rows) : TableSource :=
  ⟨r.table, r.aliasName⟩

/-- The table sources that the join at that place may refer to. -/
def Sources.before (s : Sources) (i : Nat) : List TableSource :=
  s.root.toList ++ (s.joins.take i).map Join.source

/-- Whose association was followed, in which statement, under which name, and the rows that it leads to. -/
structure Link where
  owner : ContextId
  statement : StatementId
  name : String
  source : TableSource
deriving DecidableEq

def Context.link? : Context → Option Link
  | .association owner m name rows => some ⟨owner, m, name, rows.source⟩
  | _ => none

namespace BuildState

/-- A statement that is not there reads nothing. -/
def sources (s : BuildState) (m : StatementId) : Sources :=
  s.statements[m]?.elim .empty Statement.sources

/-- The contexts of associations followed in the statement, in order. -/
def links (s : BuildState) (m : StatementId) : List Link :=
  (s.contexts.filterMap Context.link?).filter fun l => l.statement = m

/-- The context has the rows, and works on the statement. -/
def RowsAt (s : BuildState) (id : ContextId) (m : StatementId) (r : Rows) : Prop :=
  ∃ d, s.contexts[id]? = some d ∧ d.statement = m ∧ d.rows? = some r

/-- Every association context is the one that its owner noted under its name. -/
def Noted (s : BuildState) : Prop :=
  ∀ id owner m name q, s.contexts[id]? = some (.association owner m name q) →
    ∃ r, s.RowsAt owner m r ∧ r.followed.lookup name = some id

/-- No two table sources have one alias, in one statement or in two. -/
def AliasesDistinct (s : BuildState) : Prop :=
  ∀ (m k i j : Nat) (t u : TableSource), (s.sources m).tables[i]? = some t → (s.sources k).tables[j]? = some u →
    t.aliasName = u.aliasName → m = k ∧ i = j

end BuildState

theorem Sources.before_settle (s : Sources) (i : Nat) : s.settle.before i = s.before i := by
  simp [before, settle, ← List.map_take, Function.comp_def]

variable {s t : BuildState}

namespace BuildState

theorem RowsAt.unique {id : ContextId} {m k : StatementId} {r q : Rows} (h : s.RowsAt id m r)
    (h' : s.RowsAt id k q) : m = k ∧ r = q := by
  obtain ⟨d, hd, hm, hr⟩ := h
  obtain ⟨e, he, hk, hq⟩ := h'
  have hde : d = e := by simpa [hd] using he
  subst hde
  exact ⟨hm.symm.trans hk, by simpa [hr] using hq⟩

/-- An owner notes a name for one context only. -/
theorem Noted.once (h : s.Noted) {i j owner : ContextId} {m n : StatementId} {name : String} {q r : Rows}
    (hi : s.contexts[i]? = some (.association owner m name q))
    (hj : s.contexts[j]? = some (.association owner n name r)) : i = j := by
  obtain ⟨r₁, hr₁, hl₁⟩ := h i owner m name q hi
  obtain ⟨r₂, hr₂, hl₂⟩ := h j owner n name r hj
  have hrows : r₁ = r₂ := (hr₁.unique hr₂).2
  subst hrows
  simpa [hl₁] using hl₂

theorem sources_alter (s : BuildState) (m k : StatementId) (f : Statement → Statement) :
    (s.alter m f).sources k =
      if m = k then s.statements[m]?.elim .empty fun st => (f st).sources else s.sources k := by
  by_cases h : m = k
  · subst h
    cases hs : s.statements[m]? <;> simp [sources, alter, hs]
  · simp [sources, alter, h]

theorem sources_concat (s : BuildState) (st : Statement) (k : StatementId) :
    ({ s with statements := s.statements ++ [st] } : BuildState).sources k =
      if k = s.statements.length then st.sources else s.sources k := by
  by_cases h : k = s.statements.length
  · simp [sources, h]
  · cases Nat.lt_or_ge k s.statements.length with
    | inl hlt => simp [sources, h, List.getElem?_append_left hlt]
    | inr hle =>
      have hlength : (s.statements ++ [st]).length ≤ k := by
        rw [List.length_append, List.length_singleton]
        exact Nat.lt_of_le_of_ne hle (Ne.symm h)
      have hnew : (s.statements ++ [st])[k]? = none := List.getElem?_eq_none hlength
      have hold : s.statements[k]? = none := List.getElem?_eq_none hle
      rw [sources, sources, if_neg h, hnew, hold]

theorem sources_openSource (s : BuildState) (table : TableId) (k : StatementId) :
    (s.openSource table).sources k =
      if k = s.statements.length then ⟨some (s.nextSource table), []⟩ else s.sources k :=
  s.countAlias.sources_concat _ k

theorem sources_joinSource {st : Statement} {m : StatementId} (hm : s.statements[m]? = some st) (r : Rows)
    (a : Association) (table : TableId) (k : StatementId) :
    (s.joinSource m r a table).sources k =
      if m = k then (s.sources k).reach r a (s.nextSource table) else s.sources k := by
  have halter := s.countAlias.sources_alter m k fun st =>
    { st with sources := st.sources.reach r a (s.nextSource table) }
  have hst : s.countAlias.statements[m]? = some st := hm
  by_cases hk : m = k
  · subst hk
    simpa [joinSource, hst, sources, hm] using halter
  · rw [if_neg hk] at halter ⊢
    exact halter

theorem links_enter (s : BuildState) (d : Context) (m : StatementId) :
    (s.enter d).links m = s.links m ++ (d.link?.filter fun l => l.statement = m).toList := by
  cases hl : d.link? with
  | none => simp [links, enter, hl]
  | some l => by_cases h : l.statement = m <;> simp [links, enter, hl, Option.filter, h]

theorem links_adjust (s : BuildState) (id : ContextId) {f : Context → Context} (hf : ∀ d, (f d).link? = d.link?)
    (m : StatementId) : (s.adjust id f).links m = s.links m := by
  have hmap : (s.contexts.modify id f).map Context.link? = s.contexts.map Context.link? := by
    apply List.ext_getElem?
    intro i
    cases hi : s.contexts[i]? with
    | none => simp [List.getElem?_modify, hi]
    | some d => by_cases h : id = i <;> simp [hi, h, hf]
  have hfilter : ∀ ds : List Context,
      ds.filterMap Context.link? = (ds.map Context.link?).filterMap fun l => l := by
    intro ds
    rw [List.filterMap_map]
    rfl
  simp only [links, adjust, hfilter, hmap]

theorem RowsAt.mono {id : ContextId} {m : StatementId} {r : Rows} (h : s.RowsAt id m r) (hk : s.KeepsContexts t) :
    ∃ f, t.RowsAt id m { r with followed := f } := by
  obtain ⟨d, hd, hm, hr⟩ := h
  obtain ⟨e, he, hcore⟩ := hk id d hd
  obtain ⟨f, hf⟩ := Context.rows?_of_core hcore hr
  exact ⟨f, e, he, (Context.statement_eq_of_core hcore).trans hm, hf⟩

theorem RowsAt.enter {id : ContextId} {m : StatementId} {r : Rows} (h : s.RowsAt id m r) (d : Context) :
    (s.enter d).RowsAt id m r := by
  obtain ⟨e, he, hm, hr⟩ := h
  have hlt := (List.getElem?_eq_some_iff.mp he).1
  exact ⟨e, (List.getElem?_append_left hlt).trans he, hm, hr⟩

theorem of_rowsAt_enter {d : Context} {id : ContextId} {m : StatementId} {r : Rows}
    (h : (s.enter d).RowsAt id m r) : s.RowsAt id m r ∨ d.statement = m ∧ d.rows? = some r := by
  obtain ⟨e, he, hm, hr⟩ := h
  cases of_getElem?_concat he with
  | inl he => exact .inl ⟨e, he, hm, hr⟩
  | inr he =>
    have hed : e = d := he.2
    subst hed
    exact .inr ⟨hm, hr⟩

theorem association_of_adjust {id k : ContextId} {f : Context → Context} (hf : ∀ d, (f d).core = d.core)
    {owner : ContextId} {m : StatementId} {name : String} {q : Rows}
    (h : (s.adjust id f).contexts[k]? = some (.association owner m name q)) :
    ∃ r, s.contexts[k]? = some (.association owner m name r) := by
  obtain ⟨e, he, hd⟩ := of_getElem?_adjust h
  have hcore : e.core = (Context.association owner m name q).core := by
    rw [hd]
    by_cases hk : id = k
    · rw [if_pos hk, hf]
    · rw [if_neg hk]
  obtain ⟨r, hr⟩ := World.association_of_core hcore
  exact ⟨r, hr ▸ he⟩

theorem RowsAt.follow {owner id n : ContextId} {m : StatementId} {r : Rows} (h : s.RowsAt id m r) (name : String) :
    (s.adjust owner (Context.follow name n)).RowsAt id m
      { r with followed := r.followed ++ if owner = id then [(name, n)] else [] } := by
  obtain ⟨d, hd, hm, hr⟩ := h
  by_cases ho : owner = id
  · refine ⟨d.follow name n, by simp [adjust, hd, ho], ?_, ?_⟩
    · cases d <;> exact hm
    · cases d <;> simp_all [Context.rows?, Context.follow]
  · exact ⟨d, by simp [adjust, hd, ho], hm, by simpa [ho] using hr⟩

theorem source_of_rowsAt_follow {owner id n : ContextId} {m : StatementId} {name : String} {r : Rows}
    (h : (s.adjust owner (Context.follow name n)).RowsAt id m r) : ∃ q, s.RowsAt id m q ∧ q.source = r.source := by
  obtain ⟨d, hd, hm, hr⟩ := h
  obtain ⟨e, he, rfl⟩ := of_getElem?_adjust hd
  by_cases ho : owner = id
  · rw [if_pos ho] at hm hr
    cases e with
    | table | association =>
      cases hr
      exact ⟨_, ⟨_, he, hm, rfl⟩, rfl⟩
    | projection | lambda | update => cases hr
  · rw [if_neg ho] at hm hr
    exact ⟨r, ⟨e, he, hm, hr⟩, rfl⟩

theorem rowsAt_reparent {id k : ContextId} {m : StatementId} {r : Rows} {parent : Option ContextId} :
    (s.adjust k (Context.withParent parent)).RowsAt id m r ↔ s.RowsAt id m r := by
  have hsame : ∀ d : Context,
      (d.withParent parent).statement = d.statement ∧ (d.withParent parent).rows? = d.rows? := by
    intro d
    cases d <;> exact ⟨rfl, rfl⟩
  constructor
  · intro h
    obtain ⟨d, hd, hm, hr⟩ := h
    obtain ⟨e, he, rfl⟩ := of_getElem?_adjust hd
    by_cases hk : k = id
    · rw [if_pos hk, (hsame e).1] at hm
      rw [if_pos hk, (hsame e).2] at hr
      exact ⟨e, he, hm, hr⟩
    · rw [if_neg hk] at hm hr
      exact ⟨e, he, hm, hr⟩
  · intro h
    obtain ⟨d, hd, hm, hr⟩ := h
    by_cases hk : k = id
    · exact ⟨d.withParent parent, by simp [adjust, hd, hk], (hsame d).1.trans hm, (hsame d).2.trans hr⟩
    · exact ⟨d, by simp [adjust, hd, hk], hm, hr⟩

/-! An association that was followed and noted. -/

section Note

variable (s) (owner : ContextId) (name : String) (d : Context) (q : Rows) (a : Association) (target : Entity)

theorem links_noteAssociation (m : StatementId) : (s.noteAssociation owner name d q a target).links m =
    s.links m ++ if d.statement = m then [⟨owner, d.statement, name, s.nextSource target.table⟩] else [] := by
  have hlink : ∀ e : Context, (e.follow name s.contexts.length).link? = e.link? := by
    intro e
    cases e <;> rfl
  have hjoin : (s.joinSource d.statement q a target.table).links m = s.links m := rfl
  have hsource : (s.nextRows target).source = s.nextSource target.table := rfl
  rw [noteAssociation, links_adjust _ _ hlink, enterAssociation, links_enter, hjoin]
  by_cases hm : d.statement = m <;> simp [Context.link?, Option.filter, hsource, hm]

theorem RowsAt.noteAssociation {id : ContextId} {m : StatementId} {r : Rows} (h : s.RowsAt id m r) :
    (s.noteAssociation owner name d q a target).RowsAt id m
      { r with followed := r.followed ++ if owner = id then [(name, s.contexts.length)] else [] } := by
  have hentered : (s.enterAssociation owner name d q a target).RowsAt id m r := RowsAt.enter h _
  exact hentered.follow name

theorem of_rowsAt_noteAssociation {id : ContextId} {m : StatementId} {r : Rows}
    (h : (s.noteAssociation owner name d q a target).RowsAt id m r) :
    (∃ p, s.RowsAt id m p ∧ p.source = r.source) ∨ m = d.statement ∧ r.source = s.nextSource target.table := by
  obtain ⟨p, hp, hsource⟩ := source_of_rowsAt_follow h
  cases of_rowsAt_enter hp with
  | inl hold => exact .inl ⟨p, hold, hsource⟩
  | inr hnew =>
    have hp : p = s.nextRows target := (Option.some.inj hnew.2).symm
    refine .inr ⟨hnew.1.symm, ?_⟩
    rw [← hsource, hp]
    rfl

end Note

end BuildState

end ObjectQuery
