import ObjectQuery.Proofs.Laws.Follow
import ObjectQuery.Proofs.Leaves

/-!
What compiling a query inside another one leaves behind. The contexts and statements that were there before only
gain followed associations and provisional joins. A statement made since may refer to younger ones that select a
single value, and to no other.
-/
namespace ObjectQuery

/-- The context with more associations noted as followed from it. -/
def Context.followAll (more : List (String × ContextId)) : Context → Context
  | .table p s r => .table p s { r with followed := r.followed ++ more }
  | .association o s n r => .association o s n { r with followed := r.followed ++ more }
  | d => d

namespace Context

variable (more further : List (String × ContextId)) (d : Context)

@[simp] theorem followAll_nil : d.followAll [] = d := by
  cases d <;> simp [followAll]

@[simp] theorem followAll_followAll : (d.followAll more).followAll further = d.followAll (more ++ further) := by
  cases d <;> simp [followAll]

theorem follow_eq_followAll (name : String) (id : ContextId) : d.follow name id = d.followAll [(name, id)] := by
  cases d <;> rfl

@[simp] theorem statement_followAll : (d.followAll more).statement = d.statement := by
  cases d <;> rfl

@[simp] theorem isUpdate_followAll : (d.followAll more).isUpdate = d.isUpdate := by
  cases d <;> rfl

@[simp] theorem parent_followAll : (d.followAll more).parent = d.parent := by
  cases d <;> rfl

@[simp] theorem binding?_followAll (x : String) : (d.followAll more).binding? x = d.binding? x := by
  cases d <;> rfl

end Context

/-- The statement with further joins. -/
def Statement.joinAll (joins : List Join) (st : Statement) : Statement :=
  { st with sources := { st.sources with joins := st.sources.joins ++ joins } }

@[simp] theorem Statement.joinAll_nil (st : Statement) : st.joinAll [] = st := by
  simp [joinAll]

@[simp] theorem Statement.joinAll_joinAll (joins more : List Join) (st : Statement) :
    (st.joinAll joins).joinAll more = st.joinAll (joins ++ more) := by
  simp [joinAll]

/-- A provisional join that compares columns and refers to no sub-query. -/
def Join.Leads (j : Join) : Prop :=
  j.weak = true ∧ ∀ n, .subquery n ∉ j.on.leaves

/-- The statement selects a single value, that of a function of one argument. -/
def Statement.Scalar (st : Statement) : Prop :=
  st.kind = .select ∧ ∃ name arg, st.select = [.function name [arg]]

theorem Statement.Scalar.joinAll {st : Statement} (h : st.Scalar) (joins : List Join) : (st.joinAll joins).Scalar :=
  h

theorem Statement.subquery_mem_joinAll {joins : List Join} (h : ∀ j ∈ joins, j.Leads) {st : Statement}
    {n : StatementId} (hn : .subquery n ∈ (st.joinAll joins).leaves) : .subquery n ∈ st.leaves := by
  simp only [leaves, joinAll, List.flatMap_append, List.mem_append] at hn ⊢
  obtain ((hs | hc) | hold | hnew) | hi := hn
  · exact .inl (.inl (.inl hs))
  · exact .inl (.inl (.inr hc))
  · exact .inl (.inr hold)
  · obtain ⟨j, hj, hn⟩ := List.mem_flatMap.mp hnew
    exact absurd hn ((h j hj).2 n)
  · exact .inr hi

/-- Following an association joins its table by columns. -/
theorem Sources.exists_joins_reach (sources : Sources) (owner : Rows) (a : Association) (target : TableSource) :
    ∃ joins, (∀ j ∈ joins, Join.Leads j) ∧
      sources.reach owner a target = { sources with joins := sources.joins ++ joins } := by
  refine ⟨_, ?_, rfl⟩
  intro j hj
  rw [List.mem_singleton] at hj
  subst hj
  refine ⟨rfl, fun n hn => ?_⟩
  simpa [SqlExpr.leaves] using Predicate.leaves_equal_subset _ _ hn

namespace BuildState

variable {b s t u : BuildState} {m n : StatementId} {id : ContextId}

def Scalar (s : BuildState) (n : StatementId) : Prop :=
  ∃ st, s.statements[n]? = some st ∧ st.Scalar

structure Extends (s t : BuildState) : Prop where
  contexts : ∀ (id : ContextId) (d : Context), s.contexts[id]? = some d →
    ∃ more, t.contexts[id]? = some (d.followAll more)
  statements : ∀ (m : StatementId) (st : Statement), s.statements[m]? = some st →
    ∃ joins, (∀ j ∈ joins, Join.Leads j) ∧ t.statements[m]? = some (st.joinAll joins)
  scalar : ∀ (m : StatementId) (st : Statement) (n : StatementId), s.statements.length ≤ m →
    t.statements[m]? = some st → .subquery n ∈ st.leaves → m < n ∧ t.Scalar n

theorem extends_of_eq (hc : t.contexts = s.contexts) (hs : t.statements = s.statements) : s.Extends t where
  contexts id d hd := ⟨[], by rwa [hc, d.followAll_nil]⟩
  statements m st hm := ⟨[], by simp, by rwa [hs, st.joinAll_nil]⟩
  scalar m st n hle hm := by
    rw [hs] at hm
    exact absurd (List.getElem?_eq_some_iff.mp hm).1 (Nat.not_lt.mpr hle)

theorem Extends.refl (s : BuildState) : s.Extends s :=
  extends_of_eq rfl rfl

theorem Extends.length_le (h : s.Extends t) : s.statements.length ≤ t.statements.length := by
  refine Nat.le_of_not_lt fun hlt => ?_
  obtain ⟨_, _, ht⟩ := h.statements t.statements.length _ (List.getElem?_eq_getElem hlt)
  exact Nat.lt_irrefl _ (List.getElem?_eq_some_iff.mp ht).1

theorem Extends.contexts_length_le (h : s.Extends t) : s.contexts.length ≤ t.contexts.length := by
  refine Nat.le_of_not_lt fun hlt => ?_
  obtain ⟨_, ht⟩ := h.contexts t.contexts.length _ (List.getElem?_eq_getElem hlt)
  exact Nat.lt_irrefl _ (List.getElem?_eq_some_iff.mp ht).1

theorem Scalar.mono (h : s.Scalar n) (hst : s.Extends t) : t.Scalar n := by
  obtain ⟨st, hn, hs⟩ := h
  obtain ⟨joins, -, ht⟩ := hst.statements n st hn
  exact ⟨_, ht, hs.joinAll joins⟩

/-- A reference was there before, or it is made by a statement made since. -/
theorem Extends.subquery_mem (h : s.Extends t) {st : Statement} (hm : t.statements[m]? = some st)
    (hn : .subquery n ∈ st.leaves) :
    (∃ st', s.statements[m]? = some st' ∧ .subquery n ∈ st'.leaves) ∨
      s.statements.length ≤ m ∧ m < n ∧ t.Scalar n := by
  cases Nat.lt_or_ge m s.statements.length with
  | inl hlt =>
    obtain ⟨joins, hj, ht⟩ := h.statements m _ (List.getElem?_eq_getElem hlt)
    rw [hm, Option.some.injEq] at ht
    subst ht
    exact .inl ⟨_, List.getElem?_eq_getElem hlt, Statement.subquery_mem_joinAll hj hn⟩
  | inr hle => exact .inr ⟨hle, h.scalar m st n hle hm hn⟩

theorem Extends.trans (h : s.Extends t) (k : t.Extends u) : s.Extends u where
  contexts id d hd := by
    obtain ⟨more, ht⟩ := h.contexts id d hd
    obtain ⟨further, hu⟩ := k.contexts id _ ht
    exact ⟨more ++ further, by rwa [Context.followAll_followAll] at hu⟩
  statements m st hm := by
    obtain ⟨joins, hj, ht⟩ := h.statements m st hm
    obtain ⟨more, hmore, hu⟩ := k.statements m _ ht
    refine ⟨joins ++ more, ?_, by rwa [Statement.joinAll_joinAll] at hu⟩
    exact fun j hmem => (List.mem_append.mp hmem).elim (hj j) (hmore j)
  scalar m st n hle hm hn := by
    obtain ⟨st', ht, hn⟩ | ⟨-, hlt, hs⟩ := k.subquery_mem hm hn
    · obtain ⟨hlt, hs⟩ := h.scalar m st' n hle ht hn
      exact ⟨hlt, hs.mono k⟩
    · exact ⟨hlt, hs⟩

/-! The changes of state that extend it. -/

theorem Extends.enter (h : b.Extends s) (d : Context) : b.Extends (s.enter d) := by
  refine h.trans ⟨fun id e he => ⟨[], ?_⟩, fun m st hm => ⟨[], by simp, ?_⟩, fun m st n hle hm => ?_⟩
  · rw [e.followAll_nil]
    exact (List.getElem?_append_left (List.getElem?_eq_some_iff.mp he).1).trans he
  · rwa [st.joinAll_nil]
  · exact absurd (List.getElem?_eq_some_iff.mp hm).1 (Nat.not_lt.mpr hle)

/-- A statement without sub-queries is added. -/
theorem Extends.begin (h : b.Extends s) {st : Statement} (hst : st.leaves = []) :
    b.Extends { s with statements := s.statements ++ [st] } := by
  refine h.trans ⟨fun id e he => ⟨[], by rwa [e.followAll_nil]⟩, fun m e he => ⟨[], by simp, ?_⟩,
    fun m e n hle hm hn => ?_⟩
  · rw [e.joinAll_nil]
    exact (List.getElem?_append_left (List.getElem?_eq_some_iff.mp he).1).trans he
  · obtain hm | ⟨-, rfl⟩ := of_getElem?_concat hm
    · exact absurd (List.getElem?_eq_some_iff.mp hm).1 (Nat.not_lt.mpr hle)
    · rw [hst] at hn
      cases hn

theorem getElem?_alter (s : BuildState) (m k : StatementId) (f : Statement → Statement) :
    (s.alter m f).statements[k]? = if m = k then s.statements[k]?.map f else s.statements[k]? := by
  rw [alter, List.getElem?_modify]
  by_cases h : m = k <;> simp [h]

theorem length_alter (s : BuildState) (m : StatementId) (f : Statement → Statement) :
    (s.alter m f).statements.length = s.statements.length :=
  List.length_modify ..

theorem Extends.note (h : b.Extends s) (id : ContextId) (name : String) (rows : ContextId) :
    b.Extends (s.adjust id (Context.follow name rows)) := by
  refine h.trans ⟨fun k d hd => ?_, fun m st hm => ⟨[], by simp, ?_⟩, fun m st n hle hm => ?_⟩
  · by_cases hk : id = k
    · exact ⟨[(name, rows)], by simp [adjust, hk, hd, Context.follow_eq_followAll]⟩
    · exact ⟨[], by simp [adjust, hk, hd]⟩
  · rwa [st.joinAll_nil]
  · exact absurd (List.getElem?_eq_some_iff.mp hm).1 (Nat.not_lt.mpr hle)

theorem extends_joinSource (s : BuildState) (m : StatementId) (owner : Rows) (a : Association) (table : TableId) :
    s.Extends (s.joinSource m owner a table) := by
  refine ⟨fun id d hd => ⟨[], by rwa [d.followAll_nil]⟩, fun k st hk => ?_, fun k st n hle hk => ?_⟩
  · rw [joinSource, getElem?_alter]
    obtain ⟨joins, hj, he⟩ := st.sources.exists_joins_reach owner a (s.nextSource table)
    have hk : s.countAlias.statements[k]? = some st := hk
    by_cases h : m = k
    · exact ⟨joins, hj, by rw [if_pos h, hk, Option.map_some, he]; rfl⟩
    · exact ⟨[], by simp, by rw [if_neg h, hk, st.joinAll_nil]⟩
  · have hlt : k < (s.joinSource m owner a table).statements.length := (List.getElem?_eq_some_iff.mp hk).1
    rw [joinSource, length_alter] at hlt
    exact absurd hlt (Nat.not_lt.mpr hle)

/-- A context made since may be changed. -/
theorem Extends.adjust (h : b.Extends s) (hid : b.contexts.length ≤ id) (f : Context → Context) :
    b.Extends (s.adjust id f) := by
  refine ⟨fun k d hd => ?_, h.statements, h.scalar⟩
  have hlt : k < id := Nat.lt_of_lt_of_le (List.getElem?_eq_some_iff.mp hd).1 hid
  have hk : id ≠ k := (Nat.ne_of_lt hlt).symm
  obtain ⟨more, ht⟩ := h.contexts k d hd
  exact ⟨more, by simpa [BuildState.adjust, hk] using ht⟩

/-- The statement was made since, and nothing made since refers to it. -/
structure Owns (b s : BuildState) (m : StatementId) : Prop where
  later : b.statements.length ≤ m
  known : m < s.statements.length
  unread : ∀ (k : StatementId) (st : Statement), b.statements.length ≤ k → s.statements[k]? = some st →
    .subquery m ∉ st.leaves

theorem Owns.mono (ho : b.Owns s m) (h : s.Extends t) : b.Owns t m where
  later := ho.later
  known := Nat.lt_of_lt_of_le ho.known h.length_le
  unread k st hle hk hm := by
    obtain ⟨st', hs, hm⟩ | ⟨hlen, hlt, -⟩ := h.subquery_mem hk hm
    · exact ho.unread k st' hle hs hm
    · exact absurd (Nat.lt_trans hlt ho.known) (Nat.not_lt.mpr hlen)

/-- The changed statement refers to what it referred to before, or to one of the statements above it that select a
single value. -/
def Feeds (s : BuildState) (m : StatementId) (f : Statement → Statement) : Prop :=
  ∀ st, s.statements[m]? = some st → ∀ n, .subquery n ∈ (f st).leaves →
    .subquery n ∈ st.leaves ∨ m < n ∧ s.Scalar n

theorem Scalar.alter (h : s.Scalar n) (hn : m ≠ n) (f : Statement → Statement) : (s.alter m f).Scalar n := by
  obtain ⟨st, hs, hsc⟩ := h
  exact ⟨st, by rw [getElem?_alter, if_neg hn, hs], hsc⟩

/-- A statement of one's own may be changed. -/
theorem Extends.alter (h : b.Extends s) (ho : b.Owns s m) {f : Statement → Statement} (hf : s.Feeds m f) :
    b.Extends (s.alter m f) := by
  refine ⟨h.contexts, fun k st hk => ?_, fun k st n hle hk hn => ?_⟩
  · have hlt : k < m := Nat.lt_of_lt_of_le (List.getElem?_eq_some_iff.mp hk).1 ho.later
    rw [getElem?_alter, if_neg (Nat.ne_of_lt hlt).symm]
    exact h.statements k st hk
  · rw [getElem?_alter] at hk
    by_cases hmk : m = k
    · subst hmk
      rw [if_pos rfl, Option.map_eq_some_iff] at hk
      obtain ⟨st', hs, rfl⟩ := hk
      have hnew : m < n ∧ s.Scalar n := (hf st' hs n hn).elim (h.scalar m st' n hle hs) id
      exact ⟨hnew.1, hnew.2.alter (Nat.ne_of_lt hnew.1) f⟩
    · rw [if_neg hmk] at hk
      obtain ⟨hlt, hsc⟩ := h.scalar k st n hle hk hn
      have hne : m ≠ n := fun he => ho.unread k st hle hk (he ▸ hn)
      exact ⟨hlt, hsc.alter hne f⟩

theorem Owns.alter (ho : b.Owns s m) {f : Statement → Statement} (hf : s.Feeds m f) : b.Owns (s.alter m f) m where
  later := ho.later
  known := by rw [length_alter]; exact ho.known
  unread k st hle hk hm := by
    rw [getElem?_alter] at hk
    by_cases hmk : m = k
    · subst hmk
      rw [if_pos rfl, Option.map_eq_some_iff] at hk
      obtain ⟨st', hs, rfl⟩ := hk
      obtain hold | ⟨hlt, -⟩ := hf st' hs m hm
      · exact ho.unread m st' hle hs hold
      · exact Nat.lt_irrefl m hlt
    · rw [if_neg hmk] at hk
      exact ho.unread k st hle hk hm

end BuildState

variable [Observer] {c : Compiler} {s : BuildState}

theorem Compiler.FollowEnds.extends {owner : ContextId} {name : String} {a : Association}
    {r : Except Stop ContextId × BuildState} (h : c.FollowEnds s owner name a r) : s.Extends r.2 := by
  cases h with
  | unchanged => exact .refl s
  | counted => exact BuildState.extends_of_eq rfl rfl
  | joined d r target => exact s.extends_joinSource d.statement r a target.table
  | entered d r target => exact (s.extends_joinSource d.statement r a target.table).enter _
  | noted d r target =>
    exact ((s.extends_joinSource d.statement r a target.table).enter _).note owner name s.contexts.length

end ObjectQuery
