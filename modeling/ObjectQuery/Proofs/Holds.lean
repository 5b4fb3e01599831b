import Mathlib.Logic.Relation
import ObjectQuery.Proofs.Run
import ObjectQuery.Proofs.Step

/-!
What holds of an action when it is run in a valid world: its writes are steps, however it ends, and a result
has the stated property. Each basic action has one lemma here; the others follow by `Holds.bind`.
-/
namespace ObjectQuery

open World Build

/-- Steps one after the other. -/
abbrev Steps (c : Compiler) (K : Content c) (F : StatementId → Prop) : World → World → Prop :=
  Relation.ReflTransGen (Step c K F)

section Steps

variable {c : Compiler} {K : Content c} {F : StatementId → Prop} {σ τ : World}

theorem Steps.grows (h : Steps c K F σ τ) : Grows σ τ := by
  induction h with
  | refl => exact .refl σ
  | tail _ hs ih => exact ih.trans hs.grows

/-- Statements that may not be written get no more than joins. -/
theorem Step.frame (h : Step c K F σ τ) {m : StatementId} (hm : ¬ F m) {s : Statement}
    (hs : σ.statement? m = some s) : ∃ t, τ.statement? m = some t ∧ t.core = s.core := by
  have halter : ∀ (k : StatementId) (f : Statement → Statement), (k = m → (f s).core = s.core) →
      ∃ t, (σ.alter k f).statement? m = some t ∧ t.core = s.core := by
    intro k f hf
    refine ⟨_, by rw [statement?_alter, hs]; rfl, ?_⟩
    split
    · next he => exact hf he
    · rfl
  cases h with
  | begin => exact ⟨s, statement?_begin _ _ hs, rfl⟩
  | join => exact halter _ _ fun _ => rfl
  | restrict _ _ own | select _ _ own | settle _ _ own | bind _ _ own | append _ _ own | complete _ own =>
    exact halter _ _ fun he => absurd (he ▸ own) hm
  | _ => exact ⟨s, hs, rfl⟩

theorem Steps.frame (h : Steps c K F σ τ) {m : StatementId} (hm : ¬ F m) {s : Statement}
    (hs : σ.statement? m = some s) : ∃ t, τ.statement? m = some t ∧ t.core = s.core := by
  induction h with
  | refl => exact ⟨s, hs, rfl⟩
  | tail _ hstep ih =>
    obtain ⟨t, ht, hts⟩ := ih
    obtain ⟨u, hu, hut⟩ := hstep.frame hm ht
    exact ⟨u, hu, hut.trans hts⟩

theorem Steps.mono {G : StatementId → Prop} (hg : ∀ m, F m → G m) (h : Steps c K F σ τ) :
    Steps c K G σ τ := by
  induction h with
  | refl => exact .refl
  | tail _ hs ih => exact ih.tail (hs.mono hg)

theorem Steps.valid (h : Steps c K F σ τ) (hv : Valid c σ) : Valid c τ := by
  induction h with
  | refl => exact hv
  | tail _ hs ih => exact hs.valid ih

end Steps

def Holds {α : Type} (c : Compiler) (K : Content c) (F : StatementId → Prop) (σ : World)
    (act : Build α) (post : α → World → Prop) : Prop :=
  Valid c σ → ∃ τ, Steps c K F σ τ ∧ τ.state = (act.run σ.state).2 ∧
    ∀ a, (act.run σ.state).1 = .ok a → post a τ

namespace Holds

variable {α β : Type} {c : Compiler} {K : Content c} {F : StatementId → Prop} {σ : World}
  {P Q : α → World → Prop} {R : β → World → Prop}

theorem of_valid {act : Build α} (h : Valid c σ → Holds c K F σ act P) : Holds c K F σ act P :=
  fun hv => h hv hv

theorem pure {a : α} (h : P a σ) : Holds c K F σ (pure a) P := by
  intro _
  refine ⟨σ, .refl, rfl, fun b hb => ?_⟩
  cases hb
  exact h

theorem throw {stop : Stop} : Holds c K F σ (throw stop : Build α) P :=
  fun _ => ⟨σ, .refl, rfl, fun _ h => by cases h⟩

theorem fail {e : CompileError} : Holds c K F σ (Build.fail e : Build α) P :=
  throw

theorem imp {act : Build α} (h : Holds c K F σ act P) (hq : ∀ a τ, Grows σ τ → P a τ → Q a τ) :
    Holds c K F σ act Q := by
  intro hv
  obtain ⟨τ, hs, he, hp⟩ := h hv
  exact ⟨τ, hs, he, fun a ha => hq a τ hs.grows (hp a ha)⟩

theorem bind {act : Build α} {next : α → Build β} (h : Holds c K F σ act P)
    (hn : ∀ a τ, Grows σ τ → P a τ → Holds c K F τ (next a) R) :
    Holds c K F σ (act >>= next) R := by
  intro hv
  obtain ⟨τ, hs, he, hp⟩ := h hv
  rw [run_bind]
  cases hr : act.run σ.state with
  | mk result s =>
    rw [hr] at he hp
    cases result with
    | error stop => exact ⟨τ, hs, he, fun b hb => by cases hb⟩
    | ok a =>
      obtain ⟨υ, ht, hu, hq⟩ := hn a τ hs.grows (hp a rfl) (hs.valid hv)
      rw [he] at hu hq
      exact ⟨υ, hs.trans ht, hu, hq⟩

/-- After an action that leaves the world as it is. -/
theorem read {act : Build α} {next : α → Build β} {p : α → Prop}
    (h : Holds c K F σ act fun a τ => τ = σ ∧ p a) (hn : ∀ a, p a → Holds c K F σ (next a) R) :
    Holds c K F σ (act >>= next) R := by
  refine h.bind fun a τ _ ha => ?_
  obtain ⟨rfl, hp⟩ := ha
  exact hn a hp

/-- A run that gives a result ends in a world with the stated property. -/
theorem ends {act : Build α} (h : Holds c K F σ act P) (hv : Valid c σ) {a : α} {s : BuildState}
    (hr : act.run σ.state = (.ok a, s)) : ∃ τ, Steps c K F σ τ ∧ τ.state = s ∧ P a τ := by
  obtain ⟨τ, hs, he, hp⟩ := h hv
  rw [hr] at he hp
  exact ⟨τ, hs, he, hp a rfl⟩

theorem map {act : Build α} {f : α → β} (h : Holds c K F σ act fun a τ => R (f a) τ) :
    Holds c K F σ (f <$> act) R := by
  rw [← bind_pure_comp]
  exact h.bind fun a τ _ hr => pure hr

theorem attempt {act : Build α} (h : Holds c K F σ act P) :
    Holds c K F σ (Build.attempt act) fun result τ => ∀ a, result = .ok a → P a τ := by
  intro hv
  obtain ⟨τ, hs, he, hp⟩ := h hv
  rw [run_attempt]
  cases hr : act.run σ.state with
  | mk result s =>
    rw [hr] at he hp
    cases result with
    | error stop =>
      cases stop with
      | failed e => exact ⟨τ, hs, he, fun _ h => by cases h; simp⟩
      | _ => exact ⟨τ, hs, he, fun _ h => by cases h⟩
    | ok a =>
      refine ⟨τ, hs, he, fun _ h => ?_⟩
      cases h
      intro _ hq
      cases hq
      exact hp a rfl

theorem get : Holds c K F σ get fun s τ => τ = σ ∧ s = σ.state :=
  fun _ => ⟨σ, .refl, rfl, fun s hs => ⟨rfl, by cases hs; rfl⟩⟩

theorem orDangling {o : Option α} : Holds c K F σ (Build.orDangling o) fun a τ => τ = σ ∧ o = some a := by
  cases o with
  | none => exact throw
  | some a => exact pure ⟨rfl, rfl⟩

theorem orFail {e : CompileError} {o : Option α} :
    Holds c K F σ (Build.orFail e o) fun a τ => τ = σ ∧ o = some a := by
  cases o with
  | none => exact fail
  | some a => exact pure ⟨rfl, rfl⟩

theorem orStop {r : Except Stop α} : Holds c K F σ (Build.orStop r) fun a τ => τ = σ ∧ r = .ok a := by
  cases r with
  | error => exact throw
  | ok a => exact pure ⟨rfl, rfl⟩

theorem ofExcept {r : Except CompileError α} :
    Holds c K F σ (Build.ofExcept r) fun a τ => τ = σ ∧ r = .ok a := by
  cases r with
  | error => exact fail
  | ok a => exact pure ⟨rfl, rfl⟩

theorem inContext {text : String} {act : Build α} (h : Holds c K F σ act P) :
    Holds c K F σ (Build.inContext text act) P := by
  refine h.attempt.bind fun result τ _ hp => ?_
  cases result with
  | error => exact fail
  | ok a => exact pure (hp a rfl)

theorem context {id : ContextId} :
    Holds c K F σ (Build.context id) fun d τ => τ = σ ∧ σ.context? id = some d := by
  refine get.read fun s hs => ?_
  obtain rfl := hs
  exact orDangling

theorem statement {m : StatementId} :
    Holds c K F σ (Build.statement m) fun s τ => τ = σ ∧ σ.statement? m = some s := by
  refine get.read fun s hs => ?_
  obtain rfl := hs
  exact orDangling

theorem entity {name : String} :
    Holds c K F σ (c.entity name) fun e τ => τ = σ ∧ c.schema.mapping.entity? name = some e :=
  orFail

theorem ensureComposable {id : ContextId} {operation : String} :
    Holds c K F σ (Build.ensureComposable id operation) fun _ τ =>
      τ = σ ∧ ∃ d, σ.context? id = some d ∧ d.isUpdate = false := by
  refine context.read fun d hd => ?_
  split
  · exact fail
  · next hu => exact pure ⟨rfl, d, hd, Bool.eq_false_iff.mpr hu⟩

variable [Observer]

/-- Whether or not the observer stops it, a write ends in the world of its step. -/
theorem write {τ : World} {f : BuildState → BuildState} (h : Step c K F σ τ)
    (he : τ.state = f σ.state) : Holds c K F σ (Build.write f) fun _ υ => υ = τ :=
  fun _ => ⟨τ, .single h, by rw [run_write]; exact he, fun _ _ => rfl⟩

theorem addContext {d : Context} (h : Step c K F σ (σ.enter d)) :
    Holds c K F σ (Build.addContext d) fun id τ => τ = σ.enter d ∧ id = σ.state.contexts.length := by
  refine get.read fun s hs => ?_
  obtain rfl := hs
  refine (write h rfl).bind fun _ _ _ he => ?_
  obtain rfl := he
  exact pure ⟨rfl, rfl⟩

theorem addStatement {s : Statement} {o : Option StatementId} (h : Step c K F σ (σ.begin s o)) :
    Holds c K F σ (Build.addStatement s)
      fun m τ => τ = σ.begin s o ∧ m = σ.state.statements.length := by
  refine get.read fun s hs => ?_
  obtain rfl := hs
  refine (write h rfl).bind fun _ _ _ he => ?_
  obtain rfl := he
  exact pure ⟨rfl, rfl⟩

theorem modifyContext {id : ContextId} {f : Context → Context} (h : Step c K F σ (σ.adjust id f)) :
    Holds c K F σ (Build.modifyContext id f) fun _ τ => τ = σ.adjust id f := by
  refine context.read fun d _ => ?_
  exact write h rfl

theorem modifyStatement {m : StatementId} {f : Statement → Statement}
    (h : Step c K F σ (σ.alter m f)) :
    Holds c K F σ (Build.modifyStatement m f) fun _ τ => τ = σ.alter m f := by
  refine statement.read fun s _ => ?_
  exact write h rfl

theorem nextAlias : Holds c K F σ Build.nextAlias fun a τ =>
    τ = σ.countAlias ∧ a = aliasText (σ.state.aliases + 1) := by
  refine get.read fun s hs => ?_
  obtain rfl := hs
  refine (write .countAlias rfl).bind fun _ _ _ he => ?_
  obtain rfl := he
  exact pure ⟨rfl, rfl⟩

theorem nextParameter : Holds c K F σ Build.nextParameter fun _ τ => τ = σ.countParameter := by
  refine get.read fun s hs => ?_
  obtain rfl := hs
  refine (write .countParameter rfl).bind fun _ _ _ he => ?_
  obtain rfl := he
  exact pure rfl

/-- The action runs under the other parent, and afterwards the context has its own again. -/
theorem withParent {id : ContextId} {m : StatementId} {parent : Option ContextId} {act : Build α}
    (hid : σ.Sited id m) (hp : σ.Inside parent m)
    (hact : ∀ τ, Grows σ τ → Holds c K F τ act P)
    (mono : ∀ a τ υ, Grows τ υ → P a τ → P a υ) :
    Holds c K F σ (Build.withParent id parent act) P := by
  refine of_valid fun hv => context.read fun d hd => ?_
  have hstmt : d.statement = m := by
    obtain ⟨e, he, rfl⟩ := hid
    rw [hd] at he
    cases he
    rfl
  have hin := (hv.context id d hd).inside
  rw [hstmt] at hin
  refine (modifyContext (.reparent id m parent hid hp)).bind fun _ τ h hs => ?_
  obtain rfl := hs
  refine (hact _ h).attempt.bind fun result υ hu hr => ?_
  have g := h.trans hu
  refine (modifyContext (.reparent id m d.parent (hid.mono g) (hin.mono g))).bind fun _ _ hw hs => ?_
  obtain rfl := hs
  refine ofExcept.imp fun a _ _ hq => ?_
  obtain ⟨rfl, rfl⟩ := hq
  exact mono a _ _ hw (hr a rfl)

end Holds

/-- A property of each item holds of all of them, if it is never lost. -/
theorem Holds.mapM {α β : Type} {c : Compiler} {K : Content c} {F : StatementId → Prop} {σ : World}
    {f : α → Build β} {R : β → World → Prop} (xs : List α)
    (hf : ∀ x ∈ xs, ∀ τ, Grows σ τ → Holds c K F τ (f x) R)
    (mono : ∀ b τ υ, Grows τ υ → R b τ → R b υ) :
    Holds c K F σ (xs.mapM f) fun bs τ => ∀ b ∈ bs, R b τ := by
  induction xs generalizing σ with
  | nil => exact .pure (by simp)
  | cons x xs ih =>
    rw [List.mapM_cons]
    refine (hf x List.mem_cons_self σ (.refl σ)).bind fun b τ h hb => ?_
    refine (ih fun y hy υ hu => hf y (List.mem_cons_of_mem x hy) υ (h.trans hu)).bind fun bs υ hu hbs => ?_
    exact .pure (List.forall_mem_cons.mpr ⟨mono b τ υ hu hb, hbs⟩)

end ObjectQuery
