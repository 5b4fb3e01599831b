import ObjectQuery.Proofs.World

/-!
Valid worlds: rows are those of tables that their statements read, under aliases that were counted, and contexts
refer to contexts and statements that are there. Each way in which a world changes keeps it valid.
-/
namespace ObjectQuery

open Build (aliasText aliasText_injective)

/-- Joins the rows of an association to those of its owner. -/
def Sources.reach (s : Sources) (owner : Rows) (a : Association) (target : TableSource) : Sources :=
  s.addWeakJoin target (if a.optional then .left else .inner)
    (.equal (.column a.own (some owner.aliasName)) (.column a.foreign (some target.aliasName)))

@[simp] theorem Sources.tables_reach (s : Sources) (owner : Rows) (a : Association)
    (target : TableSource) : (s.reach owner a target).tables = s.tables ++ [target] :=
  tables_addWeakJoin ..

/-- The sequences that a context ranges over. -/
def Context.ranges : Context → List ContextId
  | .projection _ _ sequence _ _ => [sequence]
  | .lambda _ _ bindings => bindings.map Prod.snd
  | .update _ _ sequence => [sequence]
  | _ => []

namespace World

variable {c : Compiler} {σ τ υ : World}

/-- No context has the alias. -/
def Unused (σ : World) (aliasName : String) : Prop :=
  ∀ id d r, σ.context? id = some d → d.rows? = some r → r.aliasName ≠ aliasName

/-- No statement reads a table under the alias. -/
def Unread (σ : World) (aliasName : String) : Prop :=
  ∀ m s, σ.statement? m = some s → ∀ t ∈ s.sources.tables, t.aliasName ≠ aliasName

/-- Rows are those of their entity's table, which the statement reads under their alias. -/
structure RowsOk (c : Compiler) (σ : World) (id : ContextId) (m : StatementId) (r : Rows) : Prop where
  entity : ∃ e, c.schema.mapping.entity? r.entity = some e ∧ e.table = r.table
  reads : σ.Reads m ⟨r.table, r.aliasName⟩
  counted : ∃ n, n ≤ σ.state.aliases ∧ r.aliasName = aliasText n
  followed : ∀ p ∈ r.followed, ∃ q, σ.context? p.2 = some (.association id m p.1 q)

theorem RowsOk.table_eq {id : ContextId} {m : StatementId} {r : Rows} {e : Entity}
    (h : RowsOk c σ id m r) (he : c.schema.mapping.entity? r.entity = some e) : e.table = r.table := by
  obtain ⟨e', he', ht⟩ := h.entity
  rw [he] at he'
  cases he'
  exact ht

structure ContextOk (c : Compiler) (σ : World) (id : ContextId) (d : Context) : Prop where
  known : d.statement < σ.state.statements.length
  inside : σ.Inside d.parent d.statement
  rows : ∀ r, d.rows? = some r → RowsOk c σ id d.statement r
  owner : ∀ o m name r, d = .association o m name r → o < id ∧ σ.HasRows o m
  ranges : ∀ q ∈ d.ranges, σ.Sited q d.statement

theorem ContextOk.of_rows?_eq_none {id : ContextId} {d : Context} (hn : d.rows? = none)
    (hk : d.statement < σ.state.statements.length) (hi : σ.Inside d.parent d.statement)
    (hq : ∀ q ∈ d.ranges, σ.Sited q d.statement) : ContextOk c σ id d := by
  refine ⟨hk, hi, fun r hr => ?_, ?_, hq⟩
  · rw [hn] at hr
    cases hr
  · intro o m name r he
    obtain rfl := he
    cases hn

structure Valid (c : Compiler) (σ : World) : Prop where
  outer : σ.outer.length = σ.state.statements.length
  context : ∀ id d, σ.context? id = some d → ContextOk c σ id d
  source : ∀ m s, σ.statement? m = some s → ∀ t ∈ s.sources.tables,
    ∃ n, n ≤ σ.state.aliases ∧ t.aliasName = aliasText n

theorem Valid.unused {n : Nat} (h : Valid c σ) (hn : σ.state.aliases < n) : σ.Unused (aliasText n) := by
  intro id d r hd hr he
  obtain ⟨k, hk, hak⟩ := ((h.context id d hd).rows r hr).counted
  have := aliasText_injective (hak.symm.trans he)
  omega

theorem Valid.unread {n : Nat} (h : Valid c σ) (hn : σ.state.aliases < n) : σ.Unread (aliasText n) := by
  intro m s hs t ht he
  obtain ⟨k, hk, hak⟩ := h.source m s hs t ht
  have := aliasText_injective (hak.symm.trans he)
  omega

theorem association_of_core {d : Context} {o : ContextId} {m : StatementId} {name : String} {r : Rows}
    (h : d.core = (Context.association o m name r).core) : ∃ q, d = .association o m name q := by
  cases d with
  | association o' m' name' q =>
    simp only [Context.core, Context.association.injEq] at h
    obtain ⟨rfl, rfl, rfl, -⟩ := h
    exact ⟨q, rfl⟩
  | _ => simp [Context.core] at h

theorem Grows.association (h : Grows σ τ) {o id : ContextId} {m : StatementId} {name : String} {q : Rows}
    (hq : σ.context? id = some (.association o m name q)) :
    ∃ q', τ.context? id = some (.association o m name q') := by
  obtain ⟨d, hd, hcore⟩ := h.context _ _ hq
  obtain ⟨q', rfl⟩ := association_of_core hcore
  exact ⟨q', hd⟩

theorem RowsOk.mono (h : Grows σ τ) {id : ContextId} {m : StatementId} {r : Rows}
    (hr : RowsOk c σ id m r) : RowsOk c τ id m r := by
  refine ⟨hr.entity, hr.reads.mono h, ?_, ?_⟩
  · obtain ⟨n, hn, he⟩ := hr.counted
    exact ⟨n, Nat.le_trans hn h.aliases, he⟩
  · intro p hp
    obtain ⟨q, hq⟩ := hr.followed p hp
    exact h.association hq

theorem ContextOk.mono (h : Grows σ τ) {id : ContextId} {d : Context} (hd : ContextOk c σ id d) :
    ContextOk c τ id d := by
  refine ⟨Nat.lt_of_lt_of_le hd.known h.length_le, hd.inside.mono h, ?_, ?_, ?_⟩
  · exact fun r hr => (hd.rows r hr).mono h
  · intro o m name r he
    obtain ⟨hlt, ho⟩ := hd.owner o m name r he
    exact ⟨hlt, ho.mono h⟩
  · exact fun q hq => (hd.ranges q hq).mono h

/-- Another parent that the statement may look out to does no harm. -/
theorem ContextOk.withParent {id : ContextId} {d : Context} {parent : Option ContextId}
    (hd : ContextOk c σ id d) (hp : σ.Inside parent d.statement) :
    ContextOk c σ id (d.withParent parent) := by
  cases d with
  | association => exact hd
  | _ => exact ⟨hd.known, hp, hd.rows, by simp [Context.withParent], hd.ranges⟩

theorem ContextOk.follow {owner id : ContextId} {d : Context} {name : String} {q : Rows}
    (hd : ContextOk c σ owner d)
    (ht : σ.context? id = some (.association owner d.statement name q)) :
    ContextOk c σ owner (d.follow name id) := by
  have hrows : ∀ r, d.rows? = some r →
      RowsOk c σ owner d.statement { r with followed := r.followed ++ [(name, id)] } := by
    intro r hr
    obtain ⟨he, hreads, hcount, hf⟩ := hd.rows r hr
    exact ⟨he, hreads, hcount, List.forall_mem_append.mpr ⟨hf, List.forall_mem_singleton.mpr ⟨q, ht⟩⟩⟩
  cases d with
  | table p s r =>
    refine ⟨hd.known, hd.inside, fun r' hr => ?_, by simp [Context.follow], hd.ranges⟩
    cases hr
    exact hrows r rfl
  | association o s n r =>
    refine ⟨hd.known, hd.inside, fun r' hr => ?_, fun o' m' n' r' he => ?_, hd.ranges⟩
    · cases hr
      exact hrows r rfl
    · cases he
      exact hd.owner o s n r rfl
  | _ => exact hd

theorem Valid.alter {m : StatementId} {f : Statement → Statement} (h : Valid c σ)
    (g : Grows σ (σ.alter m f))
    (hf : ∀ s, σ.statement? m = some s → ∀ t ∈ (f s).sources.tables,
      t ∈ s.sources.tables ∨ t.aliasName = aliasText σ.state.aliases) :
    Valid c (σ.alter m f) := by
  refine ⟨by simpa [World.alter] using h.outer, fun id d hd => (h.context id d hd).mono g, ?_⟩
  refine forall_alter h.source fun s hs hold t ht => ?_
  cases hf s hs t ht with
  | inl hm => exact hold t hm
  | inr he => exact ⟨_, Nat.le_refl _, he⟩

theorem Valid.adjust {id : ContextId} {f : Context → Context} (h : Valid c σ)
    (g : Grows σ (σ.adjust id f))
    (hf : ∀ d, σ.context? id = some d → ContextOk c σ id (f d)) : Valid c (σ.adjust id f) := by
  refine ⟨h.outer, ?_, h.source⟩
  intro k d hd
  obtain ⟨d', hd', rfl⟩ := of_context?_adjust hd
  split
  · next hk =>
    subst hk
    exact (hf d' hd').mono g
  · exact (h.context k d' hd').mono g

theorem Valid.enter {d : Context} (h : Valid c σ)
    (hd : ContextOk c σ σ.state.contexts.length d) : Valid c (σ.enter d) := by
  refine ⟨h.outer, ?_, h.source⟩
  intro id e he
  cases of_context?_enter he with
  | inl hold => exact (h.context id e hold).mono (grows_enter σ d)
  | inr hnew =>
    obtain ⟨rfl, rfl⟩ := hnew
    exact hd.mono (grows_enter σ e)

theorem Valid.begin {t : TableSource} {o : Option StatementId} (h : Valid c σ)
    (ht : t.aliasName = aliasText σ.state.aliases) :
    Valid c (σ.begin { Statement.empty with sources := ⟨some t, []⟩ } o) := by
  refine ⟨by simp [World.begin, h.outer], fun id d hd => (h.context id d hd).mono (grows_begin _ _ _), ?_⟩
  refine forall_begin h.source fun u hu => ?_
  rw [show u = t by simpa [Sources.tables] using hu]
  exact ⟨_, Nat.le_refl _, ht⟩

theorem Valid.countAlias (h : Valid c σ) : Valid c σ.countAlias := by
  refine ⟨h.outer, fun id d hd => (h.context id d hd).mono (grows_countAlias σ), ?_⟩
  intro m s hs t ht
  obtain ⟨n, hn, he⟩ := h.source m s hs t ht
  exact ⟨n, Nat.le_succ_of_le hn, he⟩

theorem Valid.countParameter (h : Valid c σ) : Valid c σ.countParameter :=
  ⟨h.outer, fun id d hd => (h.context id d hd).mono (grows_countParameter σ), h.source⟩

theorem valid_start : Valid c start :=
  ⟨rfl, fun _ _ h => by simp [context?, start] at h, fun _ _ h => by simp [statement?, start] at h⟩

end World

end ObjectQuery
