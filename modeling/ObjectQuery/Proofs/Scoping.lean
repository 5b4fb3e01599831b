import ObjectQuery.Proofs.Coherent
import ObjectQuery.Proofs.Fills

/-!
Every column that a compiled query reads is one of a table source in scope: its alias is that of a source of
the statement itself, or of one around it, and of no other source.
-/
namespace ObjectQuery

open World Build

variable {c : Compiler} {K : Content c} {F : StatementId → Prop} {σ τ : World} {m : StatementId}

/-- The leaf is a column of a source that is in scope, or a sub-query under a statement in scope. -/
def Compiler.Scoped (c : Compiler) (σ : World) (m : StatementId) : SqlExpr → Prop
  | .column id a => ∃ k source, σ.Encloses k m ∧ σ.Reads k source ∧ a = some source.aliasName ∧
      c.Declares source.table id
  | .subquery n => ∃ k, σ.outer[n]? = some (some k) ∧ σ.Encloses k m
  | _ => True

theorem Compiler.Scoped.mono {e : SqlExpr} (h : Grows σ τ) (hs : c.Scoped σ m e) : c.Scoped τ m e := by
  cases e with
  | column =>
    obtain ⟨k, source, hk, hr, ha, hd⟩ := hs
    exact ⟨k, source, hk.mono h, hr.mono h, ha, hd⟩
  | subquery =>
    obtain ⟨k, ho, hk⟩ := hs
    exact ⟨k, h.outer_eq ho, hk.mono h⟩
  | _ => trivial

theorem Compiler.Scoped.within {a : StatementId} {e : SqlExpr} (h : σ.Encloses a m)
    (hs : c.Scoped σ a e) : c.Scoped σ m e := by
  cases e with
  | column =>
    obtain ⟨k, source, hk, hr, ha, hd⟩ := hs
    exact ⟨k, source, hk.trans h, hr, ha, hd⟩
  | subquery =>
    obtain ⟨k, ho, hk⟩ := hs
    exact ⟨k, ho, hk.trans h⟩
  | _ => trivial

def Content.scoped (c : Compiler) : Content c :=
  .ofLeaves c c.Scoped (.mono ·) (.within ·) (fun hr hd => ⟨_, _, .self, hr, rfl, hd⟩)
    (fun ho hin => ⟨_, ho, hin⟩) trivial trivial trivial trivial

theorem Content.Fills.leaves {s : Statement} (h : (Content.scoped c).Fills σ m s) :
    ∀ e ∈ s.leaves, c.Scoped σ m e := by
  intro e he
  simp only [Statement.leaves, List.mem_append, List.mem_flatMap] at he
  obtain ((⟨v, hv, he⟩ | he) | ⟨j, hj, he⟩) | ⟨i, hi, he⟩ := he
  · exact h.select v hv e he
  · exact h.condition e he
  · exact h.joins j hj e he
  · exact h.items i hi e he

theorem Compiler.scoped_of_steps {statements : List Statement}
    (h : Steps c (.scoped c) F start τ) (hq : τ.state.statements = statements) :
    ∀ m s, statements[m]? = some s → ∀ e ∈ s.leaves, c.Scoped τ m e := by
  intro m s hm
  rw [← hq] at hm
  exact (Steps.fills h m s hm).leaves

/-- One alias, one source. -/
def World.SourcesDiffer (σ : World) : Prop :=
  ∀ m n x y, σ.Reads m x → σ.Reads n y → x.aliasName = y.aliasName → m = n ∧ x = y

theorem World.SourcesDiffer.add (h : σ.SourcesDiffer) (k : StatementId) (source : TableSource)
    (hu : σ.Unread source.aliasName)
    (hnew : ∀ m x, τ.Reads m x → σ.Reads m x ∨ m = k ∧ x = source) : τ.SourcesDiffer := by
  have hunread : ∀ m x, σ.Reads m x → x.aliasName ≠ source.aliasName :=
    fun m x ⟨s, hs, hx⟩ => hu m s hs x hx
  intro m n x y hm hn he
  cases hnew m x hm with
  | inl hm =>
    cases hnew n y hn with
    | inl hn => exact h m n x y hm hn he
    | inr hn => exact absurd (hn.2 ▸ he) (hunread m x hm)
  | inr hm =>
    cases hnew n y hn with
    | inl hn => exact absurd (hm.2 ▸ he.symm) (hunread n y hn)
    | inr hn => exact ⟨hm.1.trans hn.1.symm, hm.2.trans hn.2.symm⟩

theorem World.SourcesDiffer.alter {k : StatementId} {f : Statement → Statement} (h : σ.SourcesDiffer)
    (hf : ∀ s, (f s).sources.tables = s.sources.tables) : (σ.alter k f).SourcesDiffer := by
  have hold : ∀ m x, (σ.alter k f).Reads m x → σ.Reads m x := by
    intro m x ht
    obtain ⟨t, ht, hx⟩ := ht
    obtain ⟨s, hs, rfl⟩ := of_statement?_alter ht
    refine ⟨s, hs, ?_⟩
    split at hx
    · rwa [hf] at hx
    · exact hx
  exact fun m n x y hm hn he => h m n x y (hold m x hm) (hold n y hn) he

theorem Step.sourcesDiffer (h : Step c K F σ τ) (hd : σ.SourcesDiffer) : τ.SourcesDiffer := by
  cases h with
  | begin e o unread =>
    refine hd.add σ.state.statements.length ⟨e.table, aliasText σ.state.aliases⟩ unread ?_
    intro m x hs
    obtain ⟨s, hs, hx⟩ := hs
    cases of_statement?_begin hs with
    | inl hs => exact .inl ⟨s, hs, hx⟩
    | inr hnew =>
      obtain ⟨rfl, rfl⟩ := hnew
      exact .inr ⟨rfl, by simpa [Sources.tables] using hx⟩
  | join owner name d r e target a _ _ _ _ _ unread =>
    refine hd.add d.statement ⟨target.table, aliasText σ.state.aliases⟩ unread ?_
    intro m x ht
    obtain ⟨t, ht, hx⟩ := ht
    obtain ⟨s, hs, rfl⟩ := of_statement?_alter ht
    split at hx
    · next he =>
      rw [Sources.tables_reach, List.mem_append, List.mem_singleton] at hx
      exact hx.imp (fun hx => ⟨s, hs, hx⟩) fun hx => ⟨he.symm, hx⟩
    · exact .inl ⟨s, hs, hx⟩
  | settle => exact hd.alter fun s => by simp
  | restrict | select | bind | append | complete => exact hd.alter fun s => rfl
  | _ => exact hd

namespace CompiledQuery

/-- The statements from one in which columns are read out to the root. Each refers to the one before it. -/
inductive Chain (q : CompiledQuery) : List StatementId → Prop
  | root : Chain q [q.root]
  | enter {m n : StatementId} {outer : List StatementId} {s : Statement} :
    Chain q (m :: outer) → q.statements[m]? = some s → .subquery n ∈ s.leaves →
    Chain q (n :: m :: outer)

def Reads (q : CompiledQuery) (m : StatementId) (source : TableSource) : Prop :=
  ∃ s, q.statements[m]? = some s ∧ source ∈ s.sources.tables

theorem Chain.encloses {q : CompiledQuery} {chain : List StatementId} (h : q.Chain chain)
    (hfills : ∀ m s, q.statements[m]? = some s → ∀ e ∈ s.leaves, c.Scoped τ m e)
    (hroot : τ.outer[q.root]? = some none) :
    ∀ m outer, chain = m :: outer → (∃ o, τ.outer[m]? = some o) ∧ ∀ k, τ.Encloses k m → k ∈ chain := by
  induction h with
  | root =>
    intro m outer he
    cases he
    exact ⟨⟨_, hroot⟩, fun k hk => List.mem_singleton.mpr (hk.eq_of_outermost hroot)⟩
  | enter hc hs hn ih =>
    intro m outer he
    cases he
    obtain ⟨a, ho, ha⟩ := hfills _ _ hs _ hn
    refine ⟨⟨_, ho⟩, fun k hk => ?_⟩
    cases hk with
    | self => exact List.mem_cons_self
    | inner hp hk =>
      rw [ho] at hp
      cases hp
      exact List.mem_cons_of_mem _ ((ih _ _ rfl).2 k (hk.trans ha))

end CompiledQuery

/-- In a compiled query over a resolved schema, every column is read under the alias of a source of its statement
or of one around it, it is a column of the table of that source, and no other source has the alias. -/
theorem Compiler.columns_scoped {spec : Spec} {fuel : Nat} {node : Node} {q : CompiledQuery}
    (hs : spec.resolve = .ok c.schema) (hq : c.compile fuel node = .ok q) {outer : List StatementId}
    (hc : q.Chain (m :: outer)) :
    ∃ s, q.statements[m]? = some s ∧ ∀ id a, .column id a ∈ s.leaves →
      ∃ k ∈ m :: outer, ∃ source, q.Reads k source ∧ a = some source.aliasName ∧
        id.table = source.table ∧
        ∀ n other, q.Reads n other → other.aliasName = source.aliasName → n = k ∧ other = source := by
  obtain ⟨τ, hsteps, hstatements, -, -, hroot⟩ := steps_of_compile hq (.scoped c)
  have hv := Steps.valid hsteps valid_start
  have hreads : ∀ k x, τ.Reads k x ↔ q.Reads k x := by
    intro k x
    rw [World.Reads, CompiledQuery.Reads, World.statement?, hstatements]
  have hfills := scoped_of_steps hsteps hstatements
  have hdiffer : τ.SourcesDiffer := Steps.preserve (I := SourcesDiffer) hsteps valid_start
    (fun m _ x _ hx => by obtain ⟨s, hs, -⟩ := hx; simp [statement?, start] at hs)
    fun _ hstep => hstep.sourcesDiffer
  obtain ⟨⟨o, ho⟩, henclosed⟩ := hc.encloses hfills hroot m outer rfl
  have hlt : m < q.statements.length := by
    rw [← hstatements, ← hv.outer]
    exact (List.getElem?_eq_some_iff.mp ho).1
  refine ⟨_, List.getElem?_eq_getElem hlt, fun id a hleaf => ?_⟩
  obtain ⟨k, source, hk, hr, ha, hd⟩ := hfills m _ (List.getElem?_eq_getElem hlt) _ hleaf
  have htable := Spec.coherent_of_resolve hs _ _ hd
  refine ⟨k, henclosed k hk, source, (hreads k source).mp hr, ha, htable, fun n other hn he => ?_⟩
  exact hdiffer n k other source ((hreads n other).mpr hn) hr he

/-- Employees whose department has the name of more than three employees' managers. -/
def renowned : Node :=
  let managerName := Expr.member (.member (.parameter "x") "manager") "name"
  let departmentName := Expr.member (.member (.parameter "e") "department") "name"
  (Node.source "Employee").filter ⟨["e"], .binary (.comparison .greater)
    (.aggregate .count ((Node.source "Employee").filter ⟨["x"],
      .binary (.comparison .equal) managerName departmentName⟩) none)
    (.literal (.int 3))⟩

def renownedQuery : CompiledQuery :=
  (Compiler.company.compile 12 renowned).toOption.getD default

/-- The department's name is read in the sub-query and belongs to a source of the root. -/
theorem columns_scoped_renowned :
    Spec.company.resolve = .ok Compiler.company.schema ∧
      Compiler.company.compile 12 renowned = .ok renownedQuery ∧ renownedQuery.Chain [1, 0] ∧
      ∃ s, renownedQuery.statements[1]? = some s ∧ .column ⟨1, 1⟩ (some "t4") ∈ s.leaves ∧
        ∀ id a, .column id a ∈ s.leaves →
          ∃ k ∈ [1, 0], ∃ source, renownedQuery.Reads k source ∧ a = some source.aliasName ∧
            id.table = source.table ∧ ∀ n other, renownedQuery.Reads n other →
              other.aliasName = source.aliasName → n = k ∧ other = source := by
  have hq : Compiler.company.compile 12 renowned = .ok renownedQuery := rfl
  have hc : renownedQuery.Chain [1, 0] := .enter .root rfl (.tail _ (.tail _ (.head _)))
  have hspec : Spec.company.resolve = .ok Compiler.company.schema := rfl
  obtain ⟨s, hs, hcolumns⟩ := Compiler.columns_scoped hspec hq hc
  refine ⟨hspec, hq, hc, s, hs, ?_, hcolumns⟩
  cases hs
  exact .tail _ (.tail _ (.head _))

end ObjectQuery
