import ObjectQuery.Proofs.Targets

/-!
Rows of different contexts have different aliases. So a path stays at the row that it starts from exactly if it
names a column of that row's entity; a path through an association reads another row, be it of the same table.
-/
namespace ObjectQuery

open World Build

def Context.aliasName? (d : Context) : Option String :=
  d.rows?.map Rows.aliasName

theorem Context.aliasName?_of_core {d e : Context} (h : e.core = d.core) : e.aliasName? = d.aliasName? := by
  have hc : ∀ d : Context, d.core.aliasName? = d.aliasName? := by
    intro d
    cases d <;> rfl
  rw [← hc e, h, hc]

/-- No two contexts have rows of one alias. -/
def World.AliasesDiffer (σ : World) : Prop :=
  ∀ i j d e a, σ.context? i = some d → σ.context? j = some e →
    d.aliasName? = some a → e.aliasName? = some a → i = j

variable {c : Compiler} {K : Content c} {F : StatementId → Prop} {σ τ : World} {node : Node}
  {s : BuildState}

theorem World.AliasesDiffer.enter {d : Context} (h : σ.AliasesDiffer)
    (hn : ∀ r, d.rows? = some r → σ.Unused r.aliasName) : (σ.enter d).AliasesDiffer := by
  have hnew : ∀ i e a, σ.context? i = some e → e.aliasName? = some a → d.aliasName? ≠ some a := by
    intro i e a hi he hd
    obtain ⟨r, hr, rfl⟩ := Option.map_eq_some_iff.mp hd
    obtain ⟨q, hq, ha⟩ := Option.map_eq_some_iff.mp he
    exact hn r hr i e q hi hq ha
  intro i j e f a hi hj he hf
  cases of_context?_enter hi with
  | inl hi' =>
    cases of_context?_enter hj with
    | inl hj' => exact h i j e f a hi' hj' he hf
    | inr hj' => exact absurd (hj'.2 ▸ hf) (hnew i e a hi' he)
  | inr hi' =>
    cases of_context?_enter hj with
    | inl hj' => exact absurd (hi'.2 ▸ he) (hnew j f a hj' hf)
    | inr hj' => exact hi'.1.trans hj'.1.symm

theorem World.AliasesDiffer.adjust {id : ContextId} {f : Context → Context} (h : σ.AliasesDiffer)
    (hf : ∀ d, (f d).core = d.core) : (σ.adjust id f).AliasesDiffer := by
  have hold : ∀ k e, (σ.adjust id f).context? k = some e →
      ∃ d, σ.context? k = some d ∧ e.aliasName? = d.aliasName? := by
    intro k e he
    obtain ⟨d, hd, rfl⟩ := of_context?_adjust he
    refine ⟨d, hd, Context.aliasName?_of_core ?_⟩
    split
    · exact hf d
    · rfl
  intro i j e f a hi hj he hf
  obtain ⟨d, hd, hed⟩ := hold i e hi
  obtain ⟨g, hg, hfg⟩ := hold j f hj
  exact h i j d g a hd hg (hed ▸ he) (hfg ▸ hf)

theorem Step.aliasesDiffer (h : Step c K F σ τ) (ha : σ.AliasesDiffer) : τ.AliasesDiffer := by
  cases h with
  | enter d _ unused => exact ha.enter fun r hr => (unused r hr).2
  | follow => exact ha.adjust fun d => Context.core_follow _ _ d
  | reparent => exact ha.adjust fun d => Context.core_withParent _ d
  | _ => exact ha

theorem Steps.aliasesDiffer (h : Steps c K F start τ) : τ.AliasesDiffer :=
  h.preserve (I := AliasesDiffer) valid_start (fun _ _ _ _ _ hi => by simp [context?, start] at hi)
    fun _ hstep => hstep.aliasesDiffer

/-- The rows under the alias are those of the context or of one entered later. -/
def World.AliasFrom (σ : World) (id : ContextId) (a : String) : Prop :=
  ∃ j d, id ≤ j ∧ σ.context? j = some d ∧ d.aliasName? = some a

theorem World.Grows.aliasName? (h : Grows σ τ) {id : ContextId} {d : Context} {r : Rows}
    (hd : σ.context? id = some d) (hr : d.rows? = some r) :
    ∃ e, τ.context? id = some e ∧ e.aliasName? = some r.aliasName := by
  obtain ⟨e, he, hcore⟩ := h.context id d hd
  refine ⟨e, he, ?_⟩
  rw [Context.aliasName?_of_core hcore, Context.aliasName?, hr]
  rfl

namespace Compiler

variable [Observer] {rec : Calls} {id : ContextId} {d : Context} {r : Rows} {e : Entity}

/-- Paths from rows that are calls denote columns of these rows or of later ones. -/
def FieldsFrom (c : Compiler) (K : Content c) (F : StatementId → Prop) (rec : Calls) : Prop :=
  ∀ {σ : World} {id d r} (steps : List String), Fresh F σ → σ.context? id = some d → d.rows? = some r →
    Holds c K F σ (rec.classify id steps) fun x τ => ∀ k a, x = .field k a → τ.AliasFrom id a

/-- A path from rows denotes a column of these rows, which it names, or one that it reaches through an
association. -/
def FieldOf (e : Entity) (id : ContextId) (r : Rows) (steps : List String) (x : Denotation) (τ : World) :
    Prop :=
  ∀ k a, x = .field k a →
    (∃ name, longestMember? e steps = some (name, .column k, []) ∧ a = r.aliasName) ∨
    ∃ name b rest, longestMember? e steps = some (name, .association b, rest) ∧ τ.AliasFrom (id + 1) a

theorem holds_classifyMember_field (h : rec.Respect c K) (hrec : FieldsFrom c K F rec) (hf : Fresh F σ)
    (hd : σ.context? id = some d) (hr : d.rows? = some r)
    (he : c.schema.mapping.entity? r.entity = some e) (steps : List String) :
    Holds c K F σ (c.classifyMember rec id steps) (FieldOf e id r steps) := by
  refine holds_classifyMember_of hd steps ?_ ?_ ?_ ?_
  · intro x hx k a hk
    obtain rfl := hk
    cases hx
  · intro r' e' name column hr' he' hl k a hk
    rw [hr] at hr'
    cases hr'
    rw [he] at he'
    cases he'
    cases hk
    exact .inl ⟨name, hl, rfl⟩
  · intro scope τ body hτ hscope
    exact (h.value body (hf.mono hτ) hscope).imp fun _ _ _ _ _ _ hk => by cases hk
  · intro r' e' name b rest target τ q hr' he' hl hτ hq
    rw [hr] at hr'
    cases hr'
    rw [he] at he'
    cases he'
    refine .of_valid fun hv => (hrec rest (hf.mono hτ) hq rfl).imp fun x υ _ hx k a hk => .inr ?_
    obtain ⟨j, d', hj, hd', ha⟩ := hx k a hk
    have hlt := ((hv.context _ _ hq).owner id d.statement name q rfl).1
    exact ⟨name, b, rest, hl, j, d', Nat.le_trans hlt hj, hd', ha⟩

theorem holds_classify_field (h : rec.Respect c K) (hrec : FieldsFrom c K F rec) (hf : Fresh F σ)
    (hd : σ.context? id = some d) (hr : d.rows? = some r) (steps : List String) :
    Holds c K F σ (c.classify rec id steps) fun x τ =>
      ∃ e, c.schema.mapping.entity? r.entity = some e ∧ FieldOf e id r steps x τ := by
  refine (Holds.sited ⟨d, hd, rfl⟩).read fun d' hok => ?_
  obtain ⟨hd', -, hok⟩ := hok
  rw [hd] at hd'
  cases hd'
  obtain ⟨e, he, -⟩ := (hok.rows r hr).entity
  have hmember : Holds c K F σ (c.classifyMember rec id steps) fun x τ =>
      ∃ e, c.schema.mapping.entity? r.entity = some e ∧ FieldOf e id r steps x τ :=
    (holds_classifyMember_field h hrec hf hd hr he steps).imp fun _ _ _ hx => ⟨e, he, hx⟩
  cases d with
  | table | association => exact hmember
  | _ => cases hr

theorem fieldsFrom_calls (c : Compiler) (K : Content c) (fuel : Nat) :
    FieldsFrom c K F (c.calls fuel) := by
  induction fuel with
  | zero => exact fun _ _ _ _ => .throw
  | succ fuel ih =>
    intro σ id d r steps hf hd hr
    refine (holds_classify_field (c.calls_respect K fuel) ih hf hd hr steps).imp fun x τ hτ hx k a hk => ?_
    obtain ⟨e, -, hx⟩ := hx
    cases hx k a hk with
    | inl hown =>
      obtain ⟨name, -, rfl⟩ := hown
      obtain ⟨d', hd', ha⟩ := hτ.aliasName? hd hr
      exact ⟨id, d', Nat.le_refl id, hd', ha⟩
    | inr hother =>
      obtain ⟨name, b, rest, -, j, d', hj, hd', ha⟩ := hother
      exact ⟨j, d', Nat.le_of_succ_le hj, hd', ha⟩

omit [Observer] in
/-- A column that may be assigned is one that the path denotes. -/
theorem field_of_settableColumn {steps : List String} {table : Option TableId} {k : ColumnId}
    (h : ((settableColumn rec id steps table).run s).1 = .ok k) :
    ∃ a t, (rec.classify id steps).run s = (.ok (.field k a), t) ∧ ¬ table.any (· ≠ k.table) := by
  simp only [settableColumn, run_bind, run_attempt] at h
  cases hx : (rec.classify id steps).run s with
  | mk result t =>
    rw [hx] at h
    cases result with
    | error stop =>
      cases stop with
      | failed e => cases e <;> cases h
      | _ => cases h
    | ok x =>
      cases x with
      | field column a =>
        dsimp only at h
        split at h
        · cases h
        · next hany =>
          cases h
          exact ⟨a, t, rfl, hany⟩
      | _ => cases h

omit [Observer] in
theorem of_run_settableColumn {steps : List String} {table : Option TableId} {k : ColumnId} {t : BuildState}
    (h : (settableColumn rec id steps table).run s = (.ok k, t)) :
    ∃ a, (rec.classify id steps).run s = (.ok (.field k a), t) := by
  obtain ⟨a, u, hclassify, -⟩ := field_of_settableColumn (congrArg Prod.fst h)
  rw [settableColumn, run_bind, run_attempt, hclassify] at h
  dsimp only at h
  split at h <;> cases h
  exact ⟨a, hclassify⟩

omit [Observer] in
theorem run_settableColumn {steps : List String} {table : TableId} {k : ColumnId}
    (h : ((settableColumn rec id steps (some table)).run s).1 = .ok k) :
    ∃ a t, (rec.classify id steps).run s = (.ok (.field k a), t) ∧ k.table = table := by
  obtain ⟨a, t, hrun, hany⟩ := field_of_settableColumn h
  simp only [Option.any_some, decide_eq_true_eq, Decidable.not_not] at hany
  exact ⟨a, t, hrun, hany.symm⟩

/-- Where a setter may assign a column for the rows of a context, the path is one to a column of their table.
It is one of the very row, and not of another row of that table, if and only if the path names the column
without an association on the way. -/
theorem Reached.settable_own_row_iff (h : c.Reached node s) (hd : s.contexts[id]? = some d)
    (hr : d.rows? = some r) {fuel : Nat} {steps : List String} {k : ColumnId}
    (hk : ((settableColumn (c.calls fuel) id steps (some r.table)).run s).1 = .ok k) :
    ∃ e a, c.schema.mapping.entity? r.entity = some e ∧
      (((c.calls fuel).classify id steps).run s).1 = .ok (.field k a) ∧ k.table = r.table ∧
      (a = r.aliasName ↔ ∃ name, longestMember? e steps = some (name, .column k, [])) := by
  obtain ⟨σ, hs, rfl⟩ := h.steps (.anything c)
  have hv := hs.valid valid_start
  obtain ⟨a, t, hrun, htable⟩ := run_settableColumn hk
  cases fuel with
  | zero => cases hrun
  | succ fuel =>
    have hf : Fresh (fun _ => True) σ := fun _ _ => trivial
    have hclass := holds_classify_field (c.calls_respect (.anything c) fuel)
      (fieldsFrom_calls c (.anything c) fuel) hf hd hr steps
    obtain ⟨τ, hτ, -, hpost⟩ := hclass hv
    obtain ⟨e, he, hx⟩ := hpost (.field k a) (by rw [show (c.classify _ _ _).run _ = _ from hrun])
    refine ⟨e, a, he, by rw [hrun], htable, ?_⟩
    cases hx k a rfl with
    | inl hown =>
      obtain ⟨name, hl, rfl⟩ := hown
      exact iff_of_true rfl ⟨name, hl⟩
    | inr hother =>
      obtain ⟨name, b, rest, hl, j, d', hj, hd', ha⟩ := hother
      -- the alias is that of rows entered after the context's own, and no two contexts share one
      refine iff_of_false (fun hsame => ?_) fun ⟨n, hn⟩ => by rw [hl] at hn; cases hn
      obtain ⟨d'', hd'', ha'⟩ := hτ.grows.aliasName? hd hr
      have hid := Steps.aliasesDiffer (hs.trans hτ) j id d' d'' a hd' hd'' ha (hsame ▸ ha')
      exact absurd (hid ▸ hj) (Nat.not_succ_le_self id)

end Compiler

def employees : BuildState :=
  ((Compiler.company.root 5 (Node.source "Employee")).run {}).2

/-- An employee's manager is an employee, so the manager's name can be assigned in place of one's own. -/
theorem settable_own_row_manager :
    ∃ d r, Compiler.company.Reached (Node.source "Employee") employees ∧
      employees.contexts[0]? = some d ∧ d.rows? = some r ∧
      ((Compiler.settableColumn (Compiler.company.calls 4) 0 ["manager", "name"] (some r.table)).run
        employees).1 = .ok ⟨0, 1⟩ ∧
      ∃ a, (((Compiler.company.calls 4).classify 0 ["manager", "name"]).run employees).1 =
        .ok (.field ⟨0, 1⟩ a) ∧ a ≠ r.aliasName := by
  let r : Rows := ⟨"Employee", 0, "t1", []⟩
  have hreached : Compiler.company.Reached (Node.source "Employee") employees := ⟨.absent, 5, rfl⟩
  have hd : employees.contexts[0]? = some (.table none 0 r) := rfl
  have hk : ((Compiler.settableColumn (Compiler.company.calls 4) 0 ["manager", "name"]
    (some r.table)).run employees).1 = .ok ⟨0, 1⟩ := rfl
  obtain ⟨e, a, he, hx, -, hown⟩ := hreached.settable_own_row_iff hd rfl hk
  refine ⟨_, r, hreached, hd, rfl, hk, a, hx, fun ha => ?_⟩
  obtain ⟨name, hl⟩ := hown.mp ha
  cases he
  cases hl

end ObjectQuery
