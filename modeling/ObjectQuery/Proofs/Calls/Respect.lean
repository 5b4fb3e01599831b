import ObjectQuery.Compile.Scope
import ObjectQuery.Proofs.Holds

/-!
What the calls of a compilation promise each other: a value or a row source that is asked for at a context
fits the statement of that context, and a query is compiled into a statement of its own.
-/
namespace ObjectQuery

open World Build

/-- The statements to come may be written. -/
def Fresh (F : StatementId → Prop) (σ : World) : Prop :=
  ∀ m, σ.state.statements.length ≤ m → F m

/-- The scope that a query is to be nested in, if any, works on some statement. -/
def Placed (σ : World) (parent : Option ContextId) : Prop :=
  ∀ p, parent = some p → ∃ a, σ.Sited p a

/-- The context works on a statement, numbered from `n` on, of a query nested directly under the parent. -/
def World.Built (σ : World) (n : Nat) (parent : Option ContextId) (id : ContextId) : Prop :=
  ∃ m, n ≤ m ∧ σ.Sited id m ∧ σ.Nested parent m

/-- The path denotes something that belongs to the statement. -/
def Denotes {c : Compiler} (K : Content c) (σ : World) (m : StatementId) : Denotation → Prop
  | .table id => σ.Sited id m
  | .association id => σ.Sited id m
  | .object id _ => σ.Sited id m
  | .field id a => K.value σ m (.column id (some a))
  | .computed v => K.value σ m v

structure Calls.Respect (rec : Calls) (c : Compiler) (K : Content c) : Prop where
  value : ∀ {F σ scope m} (e : Expr), Fresh F σ → σ.Sited scope m →
    Holds c K F σ (rec.value scope e) fun v τ => K.value τ m v
  condition : ∀ {F σ scope m} (e : Expr), Fresh F σ → σ.Sited scope m →
    Holds c K F σ (rec.condition scope e) fun p τ => K.condition τ m p
  classify : ∀ {F σ id m} (steps : List String), Fresh F σ → σ.Sited id m →
    Holds c K F σ (rec.classify id steps) fun d τ => Denotes K τ m d
  members : ∀ {F σ id m} (steps : List String) (extent : Extent), Fresh F σ → σ.Sited id m →
    Holds c K F σ (rec.members id steps extent) fun items τ => ∀ i ∈ items, K.value τ m i.2
  sequence : ∀ {F} {σ : World} {parent} (node : Node), Fresh F σ → Placed σ parent →
    Holds c K F σ (rec.sequence parent node)
      fun id τ => τ.Built σ.state.statements.length parent id

theorem Calls.respect_exhausted (c : Compiler) (K : Content c) : Calls.exhausted.Respect c K :=
  ⟨fun _ _ _ => .throw, fun _ _ _ => .throw, fun _ _ _ => .throw, fun _ _ _ _ => .throw,
    fun _ _ _ => .throw⟩

section

variable {c : Compiler} {K : Content c} {F : StatementId → Prop} {σ τ : World} {m : StatementId}

theorem Fresh.mono (hf : Fresh F σ) (h : Grows σ τ) : Fresh F τ :=
  fun m hm => hf m (Nat.le_trans h.length_le hm)

theorem Placed.mono {parent : Option ContextId} (hp : Placed σ parent) (h : Grows σ τ) :
    Placed τ parent := by
  intro p he
  obtain ⟨a, ha⟩ := hp p he
  exact ⟨a, ha.mono h⟩

theorem placed_none : Placed σ none := by
  intro p hp
  cases hp

theorem World.Sited.placed {id : ContextId} (h : σ.Sited id m) : Placed σ (some id) := by
  intro p hp
  cases hp
  exact ⟨m, h⟩

theorem World.Inside.placed {parent : Option ContextId} (h : σ.Inside parent m) :
    Placed σ parent := by
  intro p hp
  obtain ⟨a, ha, -⟩ := h p hp
  exact ⟨a, ha⟩

theorem Holds.sited {id : ContextId} (h : σ.Sited id m) :
    Holds c K F σ (Build.context id)
      fun d τ => τ = σ ∧ σ.context? id = some d ∧ d.statement = m ∧ ContextOk c σ id d := by
  refine .of_valid fun hv => Holds.context.imp fun d _ _ hd => ?_
  obtain ⟨rfl, hd⟩ := hd
  obtain ⟨e, he, rfl⟩ := h
  rw [hd] at he
  cases he
  exact ⟨rfl, hd, rfl, hv.context id d hd⟩

/-- A parameter is bound to a sequence of a statement further out, or of the same one. -/
theorem sited_bindingFrom (hv : Valid c σ) {parameter : String} {fuel : Nat}
    {start : Option ContextId} {q : ContextId} (hi : σ.Inside start m)
    (h : bindingFrom σ.state.contexts parameter fuel start = .ok (some q)) :
    ∃ a, σ.Sited q a ∧ σ.Encloses a m := by
  induction fuel generalizing start m with
  | zero => cases start <;> cases h
  | succ fuel ih =>
    cases start with
    | none => cases h
    | some id =>
      obtain ⟨a, ⟨d, hd, rfl⟩, he⟩ := hi id rfl
      have hok := hv.context id d hd
      rw [bindingFrom, show σ.state.contexts[id]? = some d from hd] at h
      cases hb : d.binding? parameter with
      | none =>
        simp only [hb] at h
        obtain ⟨a, ha, hin⟩ := ih hok.inside h
        exact ⟨a, ha, hin.trans he⟩
      | some sequence =>
        simp only [hb, Except.ok.injEq, Option.some.injEq] at h
        subst h
        refine ⟨d.statement, hok.ranges _ ?_, he⟩
        cases d with
        | lambda _ _ bindings =>
          obtain ⟨l₁, l₂, rfl, -⟩ := List.lookup_eq_some_iff.mp hb
          simp [Context.ranges]
        | _ => cases hb

theorem holds_rootOf {scope : ContextId} (path : Path) (h : σ.Sited scope m) :
    Holds c K F σ (rootOf scope path)
      fun q τ => τ = σ ∧ ∃ a, σ.Sited q a ∧ σ.Encloses a m := by
  refine .of_valid fun hv => Holds.bind (P := fun r τ => τ = σ ∧
    ∀ q, r = some q → ∃ a, σ.Sited q a ∧ σ.Encloses a m) ?_ ?_
  · refine Holds.get.read fun s hs => ?_
    obtain rfl := hs
    refine Holds.orStop.imp fun r _ _ hr => ?_
    obtain ⟨rfl, hr⟩ := hr
    exact ⟨rfl, fun q hq => sited_bindingFrom hv h.inside (hq ▸ hr)⟩
  · intro r _ _ hr
    obtain ⟨rfl, hr⟩ := hr
    refine Holds.orFail.imp fun q _ _ hq => ?_
    obtain ⟨rfl, hq⟩ := hq
    exact ⟨rfl, hr q hq⟩

theorem holds_lambdaScope [Observer] {l : Lambda} {sequence : ContextId}
    {parent : Option ContextId} (h : σ.Sited sequence m) (hp : σ.Inside parent m) :
    Holds c K F σ (lambdaScope l sequence parent) fun id τ => τ.Sited id m := by
  refine Holds.orFail.read fun row _ => ?_
  refine (Holds.sited h).read fun d hok => ?_
  obtain ⟨-, rfl, hok⟩ := hok
  have hnew : ContextOk c σ σ.state.contexts.length (.lambda parent d.statement [(row, sequence)]) :=
    .of_rows?_eq_none rfl hok.known hp fun q hq => by rw [List.mem_singleton.mp hq]; exact h
  refine (Holds.addContext (.enter _ hnew fun _ hr => by cases hr)).imp fun id _ _ he => ?_
  obtain ⟨rfl, rfl⟩ := he
  exact ⟨_, context?_enter_self _ _, rfl⟩

end

end ObjectQuery
