import ObjectQuery.Compile.Compiler

/-!
States of a compilation, each together with the statement that encloses every statement. A world only grows:
contexts keep what they are made of, and statements keep their sources and their target.
-/
namespace ObjectQuery

theorem of_getElem?_concat {α : Type} {xs : List α} {x y : α} {i : Nat}
    (h : (xs ++ [x])[i]? = some y) : xs[i]? = some y ∨ i = xs.length ∧ y = x := by
  have hlt : i < xs.length + 1 := by simpa using (List.getElem?_eq_some_iff.mp h).1
  cases Nat.lt_or_ge i xs.length with
  | inl hi => exact .inl ((List.getElem?_append_left hi).symm.trans h)
  | inr hi =>
    obtain rfl : i = xs.length := by omega
    rw [List.getElem?_concat_length] at h
    exact .inr ⟨rfl, (Option.some.inj h).symm⟩

/-- What a context is made of, without its parent link and the associations followed from it. -/
def Context.core : Context → Context
  | .table _ s rows => .table none s { rows with followed := [] }
  | .association owner s name rows => .association owner s name { rows with followed := [] }
  | .projection _ s sequence l scalar => .projection none s sequence l scalar
  | .lambda _ s bindings => .lambda none s bindings
  | .update _ s sequence => .update none s sequence

namespace Context

@[simp] theorem core_withParent (p : Option ContextId) (c : Context) :
    (c.withParent p).core = c.core := by cases c <;> rfl

@[simp] theorem core_follow (name : String) (id : ContextId) (c : Context) :
    (c.follow name id).core = c.core := by cases c <;> rfl

@[simp] theorem statement_core (c : Context) : c.core.statement = c.statement := by cases c <;> rfl

theorem statement_eq_of_core {c d : Context} (h : d.core = c.core) : d.statement = c.statement := by
  rw [← statement_core d, h, statement_core]

theorem rows?_core (c : Context) : c.core.rows? = c.rows?.map fun r => { r with followed := [] } := by
  cases c <;> rfl

theorem rows?_of_core {c d : Context} (h : d.core = c.core) {r : Rows} (hr : c.rows? = some r) :
    ∃ f, d.rows? = some { r with followed := f } := by
  have hd : d.core.rows? = some { r with followed := [] } := by rw [h, rows?_core, hr]; rfl
  rw [rows?_core, Option.map_eq_some_iff] at hd
  obtain ⟨q, hq, he⟩ := hd
  refine ⟨q.followed, ?_⟩
  cases q; cases r; simp_all

end Context

/-- The root table and the joined ones, in order. -/
def Sources.tables (s : Sources) : List TableSource :=
  s.root.toList ++ s.joins.map Join.source

@[simp] theorem Sources.tables_settle (s : Sources) : s.settle.tables = s.tables := by
  simp [tables, settle, Function.comp_def]

theorem Sources.tables_addWeakJoin (s : Sources) (source : TableSource) (kind : JoinKind)
    (on : Predicate) : (s.addWeakJoin source kind on).tables = s.tables ++ [source] := by
  simp [tables, addWeakJoin]

/-- How a statement may change: sources are added, and a target that is bound stays. -/
structure Statement.Continues (s t : Statement) : Prop where
  root : t.sources.root = s.sources.root
  tables : s.sources.tables <+: t.sources.tables
  target : ∀ k, s.update.target = some k → t.update.target = some k

theorem Statement.Continues.refl (s : Statement) : s.Continues s :=
  ⟨rfl, List.prefix_rfl, fun _ h => h⟩

theorem Statement.Continues.trans {s t u : Statement} (h : s.Continues t) (k : t.Continues u) :
    s.Continues u :=
  ⟨k.root.trans h.root, h.tables.trans k.tables, fun _ he => k.target _ (h.target _ he)⟩

/-- What a statement consists of, apart from where it reads from. -/
def Statement.core (s : Statement) : Statement :=
  { s with sources := .empty }

/-- The outer statement of a statement is the one in whose scope its query is nested, if it is. -/
structure World where
  state : BuildState
  outer : List (Option StatementId)

namespace World

variable {σ τ υ : World}

def start : World := ⟨{}, []⟩

def context? (σ : World) (id : ContextId) : Option Context :=
  σ.state.contexts[id]?

def statement? (σ : World) (m : StatementId) : Option Statement :=
  σ.state.statements[m]?

/-- Does statement `a` lie on the way out from statement `m`? -/
inductive Encloses (σ : World) (a : StatementId) : StatementId → Prop
  | self : Encloses σ a a
  | inner {p m : StatementId} : σ.outer[m]? = some (some p) → Encloses σ a p → Encloses σ a m

theorem Encloses.trans {a p m : StatementId} (h : σ.Encloses a p) (k : σ.Encloses p m) :
    σ.Encloses a m := by
  induction k with
  | self => exact h
  | inner ho _ ih => exact .inner ho ih

theorem Encloses.eq_of_outermost {a m : StatementId} (h : σ.Encloses a m)
    (ho : σ.outer[m]? = some none) : a = m := by
  cases h with
  | self => rfl
  | inner hp _ => rw [hp] at ho; cases ho

/-- The context works on the statement. -/
def Sited (σ : World) (id : ContextId) (m : StatementId) : Prop :=
  ∃ c, σ.context? id = some c ∧ c.statement = m

/-- The context works on the statement and has the rows of a table source. -/
def HasRows (σ : World) (id : ContextId) (m : StatementId) : Prop :=
  ∃ c, σ.context? id = some c ∧ c.statement = m ∧ c.rows?.isSome

/-- The statement reads the table source. -/
def Reads (σ : World) (m : StatementId) (source : TableSource) : Prop :=
  ∃ s, σ.statement? m = some s ∧ source ∈ s.sources.tables

/-- A query under the parent may look out from the statement to the parent's. -/
def Inside (σ : World) (parent : Option ContextId) (m : StatementId) : Prop :=
  ∀ p, parent = some p → ∃ a, σ.Sited p a ∧ σ.Encloses a m

/-- The statement belongs to a query nested directly under the parent. -/
def Nested (σ : World) (parent : Option ContextId) (m : StatementId) : Prop :=
  match parent with
  | none => σ.outer[m]? = some none
  | some p => ∃ a, σ.Sited p a ∧ σ.outer[m]? = some (some a)

theorem HasRows.sited {id : ContextId} {m : StatementId} (h : σ.HasRows id m) : σ.Sited id m := by
  obtain ⟨c, hc, hm, -⟩ := h
  exact ⟨c, hc, hm⟩

theorem Sited.unique {id : ContextId} {m k : StatementId} (h : σ.Sited id m) (h' : σ.Sited id k) :
    m = k := by
  obtain ⟨c, hc, rfl⟩ := h
  obtain ⟨d, hd, rfl⟩ := h'
  rw [hc] at hd
  cases hd
  rfl

theorem Nested.inside {parent : Option ContextId} {m : StatementId} (h : σ.Nested parent m) :
    σ.Inside parent m := by
  intro p he
  obtain rfl := he
  obtain ⟨a, ha, ho⟩ := h
  exact ⟨a, ha, .inner ho .self⟩

/-- A context may serve as a parent of scopes over its own statement. -/
theorem Sited.inside {id : ContextId} {m : StatementId} (h : σ.Sited id m) : σ.Inside (some id) m := by
  intro p hp
  cases hp
  exact ⟨m, h, .self⟩

/-- Nothing that is known of a context or a statement is lost. -/
structure Grows (σ τ : World) : Prop where
  outer : σ.outer <+: τ.outer
  context : ∀ id c, σ.context? id = some c → ∃ d, τ.context? id = some d ∧ d.core = c.core
  statement : ∀ m s, σ.statement? m = some s → ∃ t, τ.statement? m = some t ∧ s.Continues t
  aliases : σ.state.aliases ≤ τ.state.aliases

theorem Grows.refl (σ : World) : Grows σ σ :=
  ⟨List.prefix_rfl, fun _ c h => ⟨c, h, rfl⟩, fun _ s h => ⟨s, h, .refl s⟩, Nat.le_refl _⟩

theorem Grows.trans (h : Grows σ τ) (k : Grows τ υ) : Grows σ υ := by
  refine ⟨h.outer.trans k.outer, ?_, ?_, Nat.le_trans h.aliases k.aliases⟩
  · intro id c hc
    obtain ⟨d, hd, hcd⟩ := h.context id c hc
    obtain ⟨e, he, hde⟩ := k.context id d hd
    exact ⟨e, he, hde.trans hcd⟩
  · intro m s hs
    obtain ⟨t, ht, hst⟩ := h.statement m s hs
    obtain ⟨u, hu, htu⟩ := k.statement m t ht
    exact ⟨u, hu, hst.trans htu⟩

section Grows

variable (h : Grows σ τ)
include h

theorem Grows.outer_eq {m : StatementId} {o : Option StatementId} (ho : σ.outer[m]? = some o) :
    τ.outer[m]? = some o := by
  obtain ⟨more, hm⟩ := h.outer
  rw [← hm, List.getElem?_append_left (List.getElem?_eq_some_iff.mp ho).1, ho]

theorem Encloses.mono {a m : StatementId} (he : σ.Encloses a m) : τ.Encloses a m := by
  induction he with
  | self => exact .self
  | inner ho _ ih => exact .inner (h.outer_eq ho) ih

theorem Sited.mono {id : ContextId} {m : StatementId} (hs : σ.Sited id m) : τ.Sited id m := by
  obtain ⟨c, hc, rfl⟩ := hs
  obtain ⟨d, hd, hcd⟩ := h.context id c hc
  exact ⟨d, hd, Context.statement_eq_of_core hcd⟩

theorem HasRows.mono {id : ContextId} {m : StatementId} (hs : σ.HasRows id m) : τ.HasRows id m := by
  obtain ⟨c, hc, rfl, hr⟩ := hs
  obtain ⟨d, hd, hcd⟩ := h.context id c hc
  obtain ⟨r, hr⟩ := Option.isSome_iff_exists.mp hr
  obtain ⟨f, hf⟩ := Context.rows?_of_core hcd hr
  exact ⟨d, hd, Context.statement_eq_of_core hcd, by simp [hf]⟩

theorem Reads.mono {m : StatementId} {source : TableSource} (hr : σ.Reads m source) :
    τ.Reads m source := by
  obtain ⟨s, hs, hm⟩ := hr
  obtain ⟨t, ht, hst⟩ := h.statement m s hs
  exact ⟨t, ht, hst.tables.subset hm⟩

theorem Inside.mono {parent : Option ContextId} {m : StatementId} (hi : σ.Inside parent m) :
    τ.Inside parent m := by
  intro p hp
  obtain ⟨a, ha, he⟩ := hi p hp
  exact ⟨a, ha.mono h, he.mono h⟩

theorem Nested.mono {parent : Option ContextId} {m : StatementId} (hn : σ.Nested parent m) :
    τ.Nested parent m := by
  cases parent with
  | none => exact h.outer_eq hn
  | some p =>
    obtain ⟨a, ha, ho⟩ := hn
    exact ⟨a, ha.mono h, h.outer_eq ho⟩

theorem Grows.length_le : σ.state.statements.length ≤ τ.state.statements.length := by
  refine Nat.le_of_not_lt fun hlt => ?_
  have hs := List.getElem?_eq_getElem hlt
  obtain ⟨t, ht, -⟩ := h.statement _ _ hs
  exact absurd (List.getElem?_eq_some_iff.mp ht).1 (Nat.lt_irrefl _)

end Grows

/-! The ways in which a world changes. -/

def countAlias (σ : World) : World :=
  { σ with state := { σ.state with aliases := σ.state.aliases + 1 } }

def countParameter (σ : World) : World :=
  { σ with state := { σ.state with parameters := σ.state.parameters + 1 } }

/-- A new statement, of a query nested in the scope of the given one. -/
def begin (σ : World) (s : Statement) (o : Option StatementId) : World :=
  { σ with
    state := { σ.state with statements := σ.state.statements ++ [s] }
    outer := σ.outer ++ [o] }

def enter (σ : World) (c : Context) : World :=
  { σ with state := { σ.state with contexts := σ.state.contexts ++ [c] } }

def adjust (σ : World) (id : ContextId) (f : Context → Context) : World :=
  { σ with state := { σ.state with contexts := σ.state.contexts.modify id f } }

def alter (σ : World) (m : StatementId) (f : Statement → Statement) : World :=
  { σ with state := { σ.state with statements := σ.state.statements.modify m f } }

theorem context?_enter_self (σ : World) (c : Context) :
    (σ.enter c).context? σ.state.contexts.length = some c := by
  simp [context?, enter]

theorem context?_enter {id : ContextId} {d : Context} (c : Context) (h : σ.context? id = some d) :
    (σ.enter c).context? id = some d := by
  have hlt := (List.getElem?_eq_some_iff.mp h).1
  exact (List.getElem?_append_left hlt).trans h

theorem of_context?_enter {id : ContextId} {c d : Context} (h : (σ.enter c).context? id = some d) :
    σ.context? id = some d ∨ id = σ.state.contexts.length ∧ d = c :=
  of_getElem?_concat h

theorem statement?_begin_self (σ : World) (s : Statement) (o : Option StatementId) :
    (σ.begin s o).statement? σ.state.statements.length = some s := by
  simp [statement?, begin]

theorem statement?_begin {m : StatementId} {t : Statement} (s : Statement) (o : Option StatementId)
    (h : σ.statement? m = some t) : (σ.begin s o).statement? m = some t := by
  have hlt := (List.getElem?_eq_some_iff.mp h).1
  exact (List.getElem?_append_left hlt).trans h

theorem of_statement?_begin {m : StatementId} {s t : Statement} {o : Option StatementId}
    (h : (σ.begin s o).statement? m = some t) :
    σ.statement? m = some t ∨ m = σ.state.statements.length ∧ t = s :=
  of_getElem?_concat h

theorem context?_adjust (σ : World) (id k : ContextId) (f : Context → Context) :
    (σ.adjust id f).context? k = (σ.context? k).map fun c => if id = k then f c else c := by
  simp only [context?, adjust, List.getElem?_modify]
  rfl

theorem statement?_alter (σ : World) (m k : StatementId) (f : Statement → Statement) :
    (σ.alter m f).statement? k = (σ.statement? k).map fun s => if m = k then f s else s := by
  simp only [statement?, alter, List.getElem?_modify]
  rfl

theorem of_context?_adjust {id k : ContextId} {f : Context → Context} {d : Context}
    (h : (σ.adjust id f).context? k = some d) :
    ∃ c, σ.context? k = some c ∧ d = if id = k then f c else c := by
  rw [context?_adjust, Option.map_eq_some_iff] at h
  obtain ⟨c, hc, hd⟩ := h
  exact ⟨c, hc, hd.symm⟩

theorem statement?_alter_self {m : StatementId} {s : Statement} (h : σ.statement? m = some s)
    (f : Statement → Statement) : (σ.alter m f).statement? m = some (f s) := by
  simp [statement?_alter, h]

theorem of_statement?_alter {m k : StatementId} {f : Statement → Statement} {t : Statement}
    (h : (σ.alter m f).statement? k = some t) :
    ∃ s, σ.statement? k = some s ∧ t = if m = k then f s else s := by
  rw [statement?_alter, Option.map_eq_some_iff] at h
  obtain ⟨s, hs, ht⟩ := h
  exact ⟨s, hs, ht.symm⟩

/-- What holds of every statement is kept by a new one that has it too. -/
theorem forall_begin {P : StatementId → Statement → Prop} {s : Statement} {o : Option StatementId}
    (h : ∀ m t, σ.statement? m = some t → P m t) (hs : P σ.state.statements.length s) :
    ∀ m t, (σ.begin s o).statement? m = some t → P m t := by
  intro m t ht
  cases of_statement?_begin ht with
  | inl ht => exact h m t ht
  | inr hnew =>
    obtain ⟨rfl, rfl⟩ := hnew
    exact hs

/-- What holds of every statement is kept by a change of one that keeps it. -/
theorem forall_alter {P : StatementId → Statement → Prop} {m : StatementId} {f : Statement → Statement}
    (h : ∀ k s, σ.statement? k = some s → P k s)
    (hf : ∀ s, σ.statement? m = some s → P m s → P m (f s)) :
    ∀ k t, (σ.alter m f).statement? k = some t → P k t := by
  intro k t ht
  obtain ⟨s, hs, rfl⟩ := of_statement?_alter ht
  split
  · next he =>
    subst he
    exact hf s hs (h m s hs)
  · exact h k s hs

theorem grows_countAlias (σ : World) : Grows σ σ.countAlias :=
  ⟨List.prefix_rfl, fun _ c h => ⟨c, h, rfl⟩, fun _ s h => ⟨s, h, .refl s⟩, Nat.le_succ _⟩

theorem grows_countParameter (σ : World) : Grows σ σ.countParameter :=
  ⟨List.prefix_rfl, fun _ c h => ⟨c, h, rfl⟩, fun _ s h => ⟨s, h, .refl s⟩, Nat.le_refl _⟩

theorem grows_begin (σ : World) (s : Statement) (o : Option StatementId) : Grows σ (σ.begin s o) :=
  ⟨List.prefix_append _ _, fun _ c h => ⟨c, h, rfl⟩,
    fun _ t h => ⟨t, statement?_begin s o h, .refl t⟩, Nat.le_refl _⟩

theorem grows_enter (σ : World) (c : Context) : Grows σ (σ.enter c) :=
  ⟨List.prefix_rfl, fun _ d h => ⟨d, context?_enter c h, rfl⟩,
    fun _ s h => ⟨s, h, .refl s⟩, Nat.le_refl _⟩

theorem grows_adjust (σ : World) (id : ContextId) {f : Context → Context}
    (hf : ∀ c, (f c).core = c.core) : Grows σ (σ.adjust id f) := by
  refine ⟨List.prefix_rfl, ?_, fun _ s h => ⟨s, h, .refl s⟩, Nat.le_refl _⟩
  intro k c hc
  refine ⟨_, by rw [context?_adjust, hc]; rfl, ?_⟩
  split
  · exact hf c
  · rfl

theorem grows_alter {m : StatementId} {f : Statement → Statement}
    (hf : ∀ s, σ.statement? m = some s → s.Continues (f s)) : Grows σ (σ.alter m f) := by
  refine ⟨List.prefix_rfl, fun _ c h => ⟨c, h, rfl⟩, ?_, Nat.le_refl _⟩
  intro k s hs
  refine ⟨_, by rw [statement?_alter, hs]; rfl, ?_⟩
  split
  · next he => exact hf s (he ▸ hs)
  · exact .refl s

end World
end ObjectQuery
