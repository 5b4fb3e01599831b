import ObjectQuery.Compile.Resolve
import ObjectQuery.Proofs.Calls.Respect

/-!
Paths denote columns, values and rows of the statement at whose contexts they start.
-/
namespace ObjectQuery

/-- The context as a whole, or an object of its rows. -/
def Denotation.Within (id : ContextId) : Denotation → Prop
  | .table q => q = id
  | .association q => q = id
  | .object q _ => q = id
  | _ => False

namespace Compiler

open World Build

variable {c : Compiler} {K : Content c} {F : StatementId → Prop} {σ : World} {m : StatementId}
  {rec : Calls}

theorem reads_reach (r : Rows) (a : Association) (source : TableSource)
    (hm : m < σ.state.statements.length) :
    (σ.alter m fun s => { s with sources := s.sources.reach r a source }).Reads m source := by
  have hs : σ.statement? m = some σ.state.statements[m] := List.getElem?_eq_getElem hm
  exact ⟨_, statement?_alter_self hs _, by simp⟩

theorem rowsOk_new {id : ContextId} {name : String} {e : Entity} {n : Nat}
    (he : c.schema.mapping.entity? name = some e) (hr : σ.Reads m ⟨e.table, aliasText n⟩)
    (hn : n ≤ σ.state.aliases) : RowsOk c σ id m ⟨e.name, e.table, aliasText n, []⟩ := by
  refine ⟨⟨e, ?_, rfl⟩, hr, ⟨n, hn, rfl⟩, by simp⟩
  rw [Mapping.name_of_entity? he, he]

theorem contextOk_association {owner : ContextId} {d : Context} {r : Rows} {name : String} {q : Rows}
    (hok : ContextOk c σ owner d) (hd : σ.context? owner = some d) (hr : d.rows? = some r)
    (hq : RowsOk c σ σ.state.contexts.length d.statement q) :
    ContextOk c σ σ.state.contexts.length (.association owner d.statement name q) := by
  have hs : σ.HasRows owner d.statement := ⟨d, hd, rfl, by simp [hr]⟩
  refine ⟨hok.known, hs.sited.inside, fun q' he => ?_, fun o m name' q' he => ?_, by simp [Context.ranges]⟩
  · cases he
    exact hq
  · cases he
    exact ⟨(List.getElem?_eq_some_iff.mp hd).1, hs⟩

variable [Observer]

theorem holds_enterAssociation {owner : ContextId} {d : Context} {r q : Rows} {name : String}
    (hd : σ.context? owner = some d) (hr : d.rows? = some r) (hl : r.followed.lookup name = none)
    (hnew : ContextOk c σ σ.state.contexts.length (.association owner d.statement name q))
    (hq : q.followed = [] ∧ σ.Unused q.aliasName) :
    Holds c K F σ
      (do
        let rows ← addContext (.association owner d.statement name q)
        modifyContext owner (Context.follow name rows)
        pure rows)
      fun id τ => ∃ q, τ.context? id = some (.association owner d.statement name q) := by
  refine (Holds.addContext (.enter _ hnew ?_)).bind ?_
  · intro _ he
    cases he
    exact hq
  · intro _ _ _ he
    obtain ⟨rfl, rfl⟩ := he
    have ht := context?_enter_self σ (.association owner d.statement name q)
    refine (Holds.modifyContext
      (.follow owner _ d.statement name d r q (context?_enter _ hd) hr hl ht)).bind ?_
    intro _ _ h he
    obtain rfl := he
    exact .pure (h.association ht)

/-- The rows of an association that was followed are those of a context with that owner. -/
theorem holds_followAssociation {owner : ContextId} {d : Context} {r : Rows} {e : Entity}
    {name : String} {a : Association} (hd : σ.context? owner = some d) (hr : d.rows? = some r)
    (he : c.schema.mapping.entity? r.entity = some e) (ha : (name, .association a) ∈ e.members.items) :
    Holds c K F σ (c.followAssociation owner name a) fun id τ =>
      ∃ q, τ.context? id = some (.association owner d.statement name q) := by
  refine .of_valid fun hv => (Holds.sited ⟨d, hd, rfl⟩).bind fun d' σ _ hok => ?_
  obtain ⟨rfl, hd', -, hok⟩ := hok
  rw [hd] at hd'
  cases hd'
  simp only [hr, Option.elim_some, Option.map_some]
  cases hl : r.followed.lookup name with
  | some id =>
    obtain ⟨l₁, l₂, hl, -⟩ := List.lookup_eq_some_iff.mp hl
    exact .pure ((hok.rows r hr).followed (name, id) (by simp [hl]))
  | none =>
    refine Holds.entity.read fun target ht => ?_
    have hunused := hv.unused (Nat.lt_succ_self σ.state.aliases)
    refine Holds.nextAlias.bind fun _ _ h₁ hw => ?_
    obtain ⟨rfl, rfl⟩ := hw
    have hjoin : Step c K F σ.countAlias _ :=
      .join owner name d r e target a hd hr he ha ht (hv.unread (Nat.lt_succ_self _))
    refine (Holds.modifyStatement hjoin).bind fun _ _ h₂ hs => ?_
    obtain rfl := hs
    have hq : RowsOk c (σ.countAlias.alter _ _) σ.state.contexts.length d.statement _ :=
      rowsOk_new ht (reads_reach r a _ hok.known) (Nat.le_refl (σ.state.aliases + 1))
    have hnew : ContextOk c _ _ (.association owner d.statement name _) :=
      contextOk_association (hok.mono (h₁.trans h₂)) hd hr hq
    exact holds_enterAssociation hd hr hl hnew ⟨rfl, hunused⟩

omit [Observer] in
theorem member?_of_longestMember? {e : Entity} {steps rest : List String} {name : String}
    {member : Member} (h : longestMember? e steps = some (name, member, rest)) :
    e.member? name = some member := by
  obtain ⟨⟨n, r⟩, -, hf⟩ := List.exists_of_findSome?_eq_some h
  obtain ⟨m, hm, he⟩ := Option.map_eq_some_iff.mp hf
  cases he
  exact hm

/-- Steps from a context lead to itself or an object of its rows, or to what their first member is. -/
theorem holds_classifyMember_of {P : Denotation → World → Prop} {id : ContextId} {d : Context}
    (hd : σ.context? id = some d) (steps : List String) (here : ∀ x : Denotation, x.Within id → P x σ)
    (column : ∀ {r e name k}, d.rows? = some r → c.schema.mapping.entity? r.entity = some e →
      longestMember? e steps = some (name, .column k, []) → P (.field k r.aliasName) σ)
    (computed : ∀ {scope τ} (body : Expr), Grows σ τ → τ.Sited scope d.statement →
      Holds c K F τ (rec.value scope body) fun v υ => P (.computed v) υ)
    (association : ∀ {r e name a rest target τ q}, d.rows? = some r →
      c.schema.mapping.entity? r.entity = some e →
      longestMember? e steps = some (name, .association a, rest) → Grows σ τ →
      τ.context? target = some (.association id d.statement name q) →
      Holds c K F τ (rec.classify target rest) P) :
    Holds c K F σ (c.classifyMember rec id steps) P := by
  have hs : σ.Sited id d.statement := ⟨d, hd, rfl⟩
  refine Holds.context.read fun d' hd' => ?_
  rw [hd] at hd'
  cases hd'
  cases steps with
  | nil => cases d <;> exact .pure (here _ rfl)
  | cons step steps =>
    refine Holds.orFail.read fun r hr => ?_
    refine Holds.entity.read fun e he => ?_
    split
    · next hl => exact .pure (column hr he hl)
    · next l _ =>
      refine (holds_lambdaScope hs hs.inside).bind fun scope τ hτ hscope => ?_
      exact .map (computed l.body hτ hscope)
    · next name a rest hl =>
      have hm := Entity.mem_of_member? (member?_of_longestMember? hl)
      refine (holds_followAssociation hd hr he hm).bind fun target τ hτ hq => ?_
      obtain ⟨q, hq⟩ := hq
      exact association hr he hl hτ hq
    · exact .fail
    · split
      · exact .pure (here _ rfl)
      · exact .fail

theorem holds_classifyMember (h : rec.Respect c K) (hf : Fresh F σ) {id : ContextId}
    (hs : σ.Sited id m) (steps : List String) :
    Holds c K F σ (c.classifyMember rec id steps) fun d τ => Denotes K τ m d := by
  obtain ⟨d, hd, rfl⟩ := hs
  refine .of_valid fun hv => holds_classifyMember_of hd steps ?_ ?_ ?_ ?_
  · intro x hx
    cases x with
    | field | computed => cases hx
    | table | association | object =>
      obtain rfl := hx
      exact ⟨d, hd, rfl⟩
  · intro r e name k hr he hl
    have hrows := (hv.context id d hd).rows r hr
    have hm := Entity.mem_of_member? (member?_of_longestMember? hl)
    exact K.column hrows.reads (hrows.table_eq he ▸ .stored he hm)
  · intro scope τ body hτ hscope
    exact h.value body (hf.mono hτ) hscope
  · intro r e name a rest target τ q _ _ _ hτ hq
    exact h.classify rest (hf.mono hτ) ⟨_, hq, rfl⟩

theorem holds_classifyValue (h : rec.Respect c K) (hf : Fresh F σ) {projection sequence : ContextId}
    (hp : σ.Sited projection m) (hq : σ.Sited sequence m) (l : Lambda) (e : Expr)
    (steps : List String) :
    Holds c K F σ (classifyValue rec projection sequence l e steps) fun d τ => Denotes K τ m d := by
  unfold classifyValue
  split
  · exact h.classify _ hf hq
  · cases steps with
    | nil =>
      refine (Holds.sited hp).read fun d hok => ?_
      obtain ⟨-, rfl, hok⟩ := hok
      refine (holds_lambdaScope hq hok.inside).bind fun scope τ hτ hscope => ?_
      exact .map (h.value e (hf.mono hτ) hscope)
    | cons step steps => exact .fail

theorem holds_classifyProjected (h : rec.Respect c K) (hf : Fresh F σ)
    {projection sequence : ContextId} (hp : σ.Sited projection m) (hq : σ.Sited sequence m)
    (l : Lambda) (e : Expr) (steps : List String) :
    Holds c K F σ (classifyProjected rec projection sequence l e steps)
      fun d τ => Denotes K τ m d := by
  induction steps generalizing e with
  | nil =>
    unfold classifyProjected
    split
    · exact .pure hp
    · exact holds_classifyValue h hf hp hq l _ _
  | cons name rest ih =>
    unfold classifyProjected
    split
    · exact holds_classifyValue h hf hp hq l _ _
    · split
      · exact .fail
      · next value _ =>
        refine (ih value).bind fun d τ hτ hd => ?_
        split
        · split
          · exact .pure (hp.mono hτ)
          · exact .pure hd
        · exact .pure hd

theorem holds_classify (h : rec.Respect c K) (hf : Fresh F σ) {id : ContextId} (hs : σ.Sited id m)
    (steps : List String) :
    Holds c K F σ (c.classify rec id steps) fun d τ => Denotes K τ m d := by
  refine (Holds.sited hs).read fun d hd => ?_
  obtain ⟨hd, rfl, hok⟩ := hd
  cases d with
  | table | association => exact holds_classifyMember h hf hs steps
  | projection parent number sequence l scalar =>
    have hq := hok.ranges sequence List.mem_cons_self
    dsimp only
    split
    · exact holds_classifyValue h hf hs hq l _ _
    · exact holds_classifyProjected h hf hs hq l _ _
  | lambda | update => exact .fail

omit [Observer] in
theorem holds_resolve (h : rec.Respect c K) (hf : Fresh F σ) {scope : ContextId} (hs : σ.Sited scope m)
    (path : Path) :
    Holds c K F σ (resolve rec scope path)
      fun d τ => ∃ a, τ.Encloses a m ∧ Denotes K τ a d := by
  refine (holds_rootOf path hs).read fun q ha => ?_
  obtain ⟨a, ha, he⟩ := ha
  refine (h.classify path.steps hf ha).attempt.bind fun result τ hτ hr => ?_
  split
  · exact .pure ⟨a, he.mono hτ, hr _ rfl⟩
  · exact .fail
  · exact .fail

end Compiler
end ObjectQuery
