import Mathlib.Order.Filter.AtTopBot.Basic
import ObjectQuery.Proofs.Conversions.Peers
import ObjectQuery.Proofs.Laws.Follow

/-!
An action that echoes another one. It begins in a state that is the same up to conversions, and if the first one does
not run out of fuel, it ends in the same way as soon as its calls may be nested deep enough. How deep that is does not
matter, so that a conversion, which takes one more call, can be on either side.
-/
namespace ObjectQuery

open Build

/-- Errors of the same kind, with root causes of the same kind. -/
def CompileError.Kindred (e e' : CompileError) : Prop :=
  e.ctorIdx = e'.ctorIdx ∧ e.rootCause.ctorIdx = e'.rootCause.ctorIdx

theorem CompileError.Kindred.refl (e : CompileError) : e.Kindred e :=
  ⟨rfl, rfl⟩

theorem CompileError.Kindred.inContext {e e' : CompileError} (text : String) (h : e.Kindred e') :
    (CompileError.inContext text e).Kindred (.inContext text e') :=
  ⟨rfl, h.2⟩

/-- The states are the same up to the conversions in the lambdas of projections. -/
theorem BuildState.erase_eq_iff {s t : BuildState} : s.erase = t.erase ↔ s.statements = t.statements ∧
    s.contexts.map Context.erase = t.contexts.map Context.erase ∧ s.aliases = t.aliases ∧
    s.parameters = t.parameters := by
  rw [erase, erase, BuildState.mk.injEq]

theorem BuildState.length_contexts_eq {s t : BuildState} (h : s.erase = t.erase) :
    s.contexts.length = t.contexts.length := by
  rw [← List.length_map Context.erase, (erase_eq_iff.mp h).2.1, List.length_map]

variable {α β γ δ : Type} {R : α → β → Prop} {Q : γ → δ → Prop}

/-- The end of an action, and that of its echo. -/
inductive Echoed (R : α → β → Prop) : Except Stop α × BuildState → Except Stop β × BuildState → Prop
  | gives {a b s t} (alike : s.erase = t.erase) (h : R a b) : Echoed R (.ok a, s) (.ok b, t)
  | fails {e e' s t} (alike : s.erase = t.erase) (h : e.Kindred e') :
    Echoed R (.error (.failed e), s) (.error (.failed e'), t)
  | dangles {s t} : Echoed R (.error .dangling, s) (.error .dangling, t)

def Compiler.Echoes (c : Compiler) (R : α → β → Prop) (act : Build α) (echo : Calls → Build β) : Prop :=
  ∀ s t, s.erase = t.erase → (∃ u, act.run s = (.error .outOfFuel, u)) ∨
    ∃ r, (∀ᶠ n in Filter.atTop, (echo (c.calls n)).run t = r) ∧ Echoed R (act.run s) r

/-- What attempts come to. -/
inductive Tried (R : α → β → Prop) : Except CompileError α → Except CompileError β → Prop
  | ok {a b} (h : R a b) : Tried R (.ok a) (.ok b)
  | error {e e'} (h : e.Kindred e') : Tried R (.error e) (.error e')

namespace Compiler.Echoes

variable {c : Compiler} {act : Build α} {echo : Calls → Build β} {next : α → Build γ} {next' : β → Calls → Build δ}

/-- An action without calls, on both sides. -/
theorem once {act' : Build β} (h : ∀ s t, s.erase = t.erase → Echoed R (act.run s) (act'.run t)) :
    c.Echoes R act fun _ => act' :=
  fun s t hst => .inr ⟨_, .of_forall fun _ => rfl, h s t hst⟩

theorem pure {a : α} {b : β} (h : R a b) : c.Echoes R (pure a) fun _ => pure b :=
  once fun _ _ hst => .gives hst h

theorem fail {e e' : CompileError} (h : e.Kindred e') : c.Echoes R (Build.fail e) fun _ => Build.fail e' :=
  once fun _ _ hst => .fails hst h

theorem same (e : CompileError) : c.Echoes R (Build.fail e) fun _ => Build.fail e :=
  fail (.refl e)

theorem exhausted : c.Echoes R (throw .outOfFuel) echo :=
  fun s _ _ => .inl ⟨s, rfl⟩

theorem bind (h : c.Echoes R act echo) (hn : ∀ a b, R a b → c.Echoes Q (next a) (next' b)) :
    c.Echoes Q (act >>= next) fun rec => echo rec >>= fun b => next' b rec := by
  intro s t hst
  obtain ⟨u, hu⟩ | ⟨r, hr, hends⟩ := h s t hst
  · exact .inl (stops_bind ⟨u, hu⟩)
  · rw [run_bind]
    generalize act.run s = x at hends
    cases hends with
    | gives alike hab =>
      obtain ⟨u, hu⟩ | ⟨r', hr', hends'⟩ := hn _ _ hab _ _ alike
      · exact .inl ⟨u, hu⟩
      · refine .inr ⟨r', ?_, hends'⟩
        filter_upwards [hr, hr'] with n hn hn'
        rw [run_bind, hn]
        exact hn'
    | fails alike he => exact .inr ⟨_, hr.mono fun n hn => by rw [run_bind, hn], .fails alike he⟩
    | @dangles _ u => exact .inr ⟨(.error .dangling, u), hr.mono fun n hn => by rw [run_bind, hn], .dangles⟩

theorem map {f : α → γ} {g : β → δ} (h : c.Echoes R act echo) (hf : ∀ a b, R a b → Q (f a) (g b)) :
    c.Echoes Q (f <$> act) fun rec => g <$> echo rec := by
  simp only [← bind_pure_comp]
  exact h.bind fun a b hab => .pure (hf a b hab)

theorem imp {S : α → β → Prop} (h : c.Echoes R act echo) (hS : ∀ a b, R a b → S a b) : c.Echoes S act echo := by
  intro s t hst
  obtain hu | ⟨r, hr, hends⟩ := h s t hst
  · exact .inl hu
  · refine .inr ⟨r, hr, ?_⟩
    generalize act.run s = x at hends
    cases hends with
    | gives alike hab => exact .gives alike (hS _ _ hab)
    | fails alike he => exact .fails alike he
    | dangles => exact .dangles

theorem attempt (h : c.Echoes R act echo) :
    c.Echoes (Tried R) (Build.attempt act) fun rec => Build.attempt (echo rec) := by
  intro s t hst
  obtain hu | ⟨r, hr, hends⟩ := h s t hst
  · exact .inl (outOfFuel_attempt hu)
  · rw [run_attempt]
    generalize act.run s = x at hends
    cases hends with
    | gives alike hab => exact .inr ⟨_, hr.mono fun n hn => by rw [run_attempt, hn], .gives alike (.ok hab)⟩
    | fails alike he => exact .inr ⟨_, hr.mono fun n hn => by rw [run_attempt, hn], .gives alike (.error he)⟩
    | @dangles _ u => exact .inr ⟨(.error .dangling, u), hr.mono fun n hn => by rw [run_attempt, hn], .dangles⟩

/-- A fault about a member may be answered; any other one is passed on. -/
theorem answer {next : Except CompileError α → Build γ} {next' : Except CompileError β → Calls → Build δ}
    (h : c.Echoes R act echo) (hok : ∀ a b, R a b → c.Echoes Q (next (.ok a)) (next' (.ok b)))
    (hresolve : ∀ path fault path' fault', c.Echoes Q (next (.error (.memberResolution path fault)))
      (next' (.error (.memberResolution path' fault'))))
    (hfail : ∀ e, (∀ path fault, e ≠ .memberResolution path fault) →
      next (.error e) = Build.fail e ∧ ∀ rec, next' (.error e) rec = Build.fail e) :
    c.Echoes Q (Build.attempt act >>= next) fun rec => Build.attempt (echo rec) >>= fun r => next' r rec := by
  refine h.attempt.bind fun r r' hrr => ?_
  cases hrr with
  | ok hab => exact hok _ _ hab
  | @error e e' he =>
    by_cases hresolution : ∃ path fault, e = .memberResolution path fault
    · obtain ⟨path, fault, rfl⟩ := hresolution
      have hkind := he.1
      cases e' with
      | memberResolution => exact hresolve _ _ _ _
      | _ => cases hkind
    · have hne : ∀ path fault, e ≠ .memberResolution path fault := fun path fault h => hresolution ⟨path, fault, h⟩
      have hne' : ∀ path fault, e' ≠ .memberResolution path fault := by
        rintro path fault rfl
        have hkind := he.1
        cases e with
        | memberResolution => exact hne _ _ rfl
        | _ => cases hkind
      have hecho : next' (.error e') = fun _ => Build.fail e' := funext (hfail e' hne').2
      rw [(hfail e hne).1, hecho]
      exact .fail he

theorem inContext (text : String) (h : c.Echoes R act echo) :
    c.Echoes R (Build.inContext text act) fun rec => Build.inContext text (echo rec) := by
  refine h.attempt.bind fun r r' hrr => ?_
  cases hrr with
  | ok hab => exact .pure hab
  | error he => exact .fail (he.inContext text)

theorem mapM {P : α → β → Prop} {xs : List α} {ys : List β} (h : List.Forall₂ P xs ys) {f : α → Build γ}
    {g : β → Calls → Build δ} (hf : ∀ x y, P x y → c.Echoes Q (f x) (g y)) :
    c.Echoes (List.Forall₂ Q) (xs.mapM f) fun rec => ys.mapM fun y => g y rec := by
  induction h with
  | nil => exact .pure .nil
  | cons hxy _ ih =>
    simp only [List.mapM_cons]
    exact (hf _ _ hxy).bind fun a b hab => ih.bind fun as bs hs => .pure (.cons hab hs)

theorem mapM_same (xs : List α) {f : α → Build γ} {g : α → Calls → Build γ} (hf : ∀ x, c.Echoes Eq (f x) (g x)) :
    c.Echoes Eq (xs.mapM f) fun rec => xs.mapM fun x => g x rec := by
  have hsame : List.Forall₂ Eq xs xs := List.forall₂_same.mpr fun _ _ => rfl
  refine (mapM (Q := Eq) hsame fun x y hxy => ?_).imp fun ys zs h => ?_
  · exact hxy ▸ hf x
  · rwa [List.forall₂_eq_eq_eq] at h

theorem forM (xs : List α) {f g : α → Build PUnit} (hf : ∀ x, c.Echoes Eq (f x) fun _ => g x) :
    c.Echoes Eq (xs.forM f) fun _ => xs.forM g := by
  induction xs with
  | nil => exact .pure rfl
  | cons x xs ih => exact (hf x).bind fun _ _ _ => ih

theorem orDangling (o : Option α) : c.Echoes Eq (Build.orDangling o) fun _ => Build.orDangling o := by
  cases o with
  | none => exact once fun _ _ _ => .dangles
  | some a => exact .pure rfl

theorem orFail {o : Option α} {o' : Option β} {e e' : CompileError} (h : Option.Rel R o o') (he : e.Kindred e') :
    c.Echoes R (Build.orFail e o) fun _ => Build.orFail e' o' := by
  cases h with
  | none => exact .fail he
  | some hab => exact .pure hab

theorem orFailSame (e : CompileError) (o : Option α) : c.Echoes Eq (Build.orFail e o) fun _ => Build.orFail e o := by
  cases o with
  | none => exact .same e
  | some a => exact .pure rfl

/-- One call more makes no difference. -/
theorem call {echo' : Calls → Build β} (h : c.Echoes R act echo)
    (hecho : ∀ n, echo' (c.calls (n + 1)) = echo (c.calls n)) : c.Echoes R act echo' := by
  intro s t hst
  refine (h s t hst).imp_right fun ⟨r, hr, hends⟩ => ⟨r, ?_, hends⟩
  rw [← Filter.map_add_atTop_eq_nat 1, Filter.eventually_map]
  exact hr.mono fun n hn => by rw [hecho, hn]

/-- Neither does one call less. -/
theorem open_call {echo' : Calls → Build β} (h : c.Echoes R act echo)
    (hecho : ∀ n, echo (c.calls (n + 1)) = echo' (c.calls n)) : c.Echoes R act echo' := by
  intro s t hst
  refine (h s t hst).imp_right fun ⟨r, hr, hends⟩ => ⟨r, ?_, hends⟩
  rw [← Filter.map_add_atTop_eq_nat 1, Filter.eventually_map] at hr
  exact hr.mono fun n hn => by rw [← hecho, hn]

/-! What is read from the states. -/

theorem get : c.Echoes (fun s t => s.erase = t.erase) (get : Build BuildState) fun _ => get :=
  once fun _ _ hst => .gives hst hst

theorem context (id : ContextId) : c.Echoes Context.Peers (Build.context id) fun _ => Build.context id := by
  refine get.bind fun s t hst => ?_
  have hcontexts : s.contexts[id]?.map Context.erase = t.contexts[id]?.map Context.erase := by
    rw [← List.getElem?_map, ← List.getElem?_map]
    rw [(BuildState.erase_eq_iff.mp hst).2.1]
  generalize s.contexts[id]? = d at hcontexts
  generalize t.contexts[id]? = d' at hcontexts
  cases rel_of_map_eq hcontexts with
  | none => exact once fun _ _ _ => .dangles
  | some h => exact .pure (Context.peers_of_erase_eq h)

theorem statement (m : StatementId) : c.Echoes Eq (Build.statement m) fun _ => Build.statement m := by
  refine get.bind fun s t hst => ?_
  rw [(BuildState.erase_eq_iff.mp hst).1]
  exact .orDangling _

theorem ensureComposable (id : ContextId) (operation : String) :
    c.Echoes Eq (Build.ensureComposable id operation) fun _ => Build.ensureComposable id operation := by
  refine (context id).bind fun d d' hd => ?_
  rw [hd.isUpdate_eq]
  split
  · exact .same _
  · exact .pure rfl

theorem rootOf (scope : ContextId) (path : Path) :
    c.Echoes Eq (Build.rootOf scope path) fun _ => Build.rootOf scope path := by
  refine bind (R := Eq) (get.bind fun s t hst => ?_) fun o _ ho => ho ▸ .orFailSame _ o
  have hcontexts := (BuildState.erase_eq_iff.mp hst).2.1
  have hlength := BuildState.length_contexts_eq hst
  rw [← bindingFrom_erase, hcontexts, bindingFrom_erase, hlength]
  cases hfound : bindingFrom t.contexts path.root t.contexts.length (some scope) with
  | ok o => exact .pure rfl
  | error stop =>
    cases stop with
    | failed e => exact .same e
    | outOfFuel => exact .exhausted
    | dangling => exact once fun _ _ _ => .dangles

/-! What is written to them. -/

theorem write {f g : BuildState → BuildState} (h : ∀ s t, s.erase = t.erase → (f s).erase = (g t).erase) :
    c.Echoes Eq (Build.write f) fun _ => Build.write g :=
  once fun s t hst => by
    rw [run_write, run_write]
    exact .gives (h s t hst) rfl

theorem addContext {d d' : Context} (h : d.erase = d'.erase) :
    c.Echoes Eq (Build.addContext d) fun _ => Build.addContext d' := by
  refine get.bind fun s t hst => ?_
  rw [BuildState.length_contexts_eq hst]
  refine (write fun s t hst => ?_).bind fun _ _ _ => .pure rfl
  obtain ⟨hstatements, hcontexts, hcounts⟩ := BuildState.erase_eq_iff.mp hst
  exact BuildState.erase_eq_iff.mpr ⟨hstatements, by simp [hcontexts, h], hcounts⟩

theorem modifyContext (id : ContextId) {f : Context → Context} (hf : ∀ d, (f d).erase = f d.erase) :
    c.Echoes Eq (Build.modifyContext id f) fun _ => Build.modifyContext id f := by
  refine (context id).bind fun _ _ _ => write fun s t hst => ?_
  have hmodify : ∀ ds : List Context, (ds.modify id f).map Context.erase = (ds.map Context.erase).modify id f := by
    intro ds
    apply List.ext_getElem?
    intro k
    simp only [List.getElem?_map, List.getElem?_modify]
    split <;> simp [Function.comp_def, hf]
  obtain ⟨hstatements, hcontexts, hcounts⟩ := BuildState.erase_eq_iff.mp hst
  exact BuildState.erase_eq_iff.mpr ⟨hstatements, by rw [hmodify, hmodify, hcontexts], hcounts⟩

theorem modifyStatement (m : StatementId) (f : Statement → Statement) :
    c.Echoes Eq (Build.modifyStatement m f) fun _ => Build.modifyStatement m f := by
  refine (statement m).bind fun _ _ _ => write fun s t hst => ?_
  obtain ⟨hstatements, hrest⟩ := BuildState.erase_eq_iff.mp hst
  exact BuildState.erase_eq_iff.mpr ⟨by rw [hstatements], hrest⟩

theorem addStatement (st : Statement) :
    c.Echoes Eq (Build.addStatement st) fun _ => Build.addStatement st := by
  refine get.bind fun s t hst => ?_
  rw [(BuildState.erase_eq_iff.mp hst).1]
  refine (write fun s t hst => ?_).bind fun _ _ _ => .pure rfl
  obtain ⟨hstatements, hrest⟩ := BuildState.erase_eq_iff.mp hst
  exact BuildState.erase_eq_iff.mpr ⟨by rw [hstatements], hrest⟩

theorem nextAlias : c.Echoes Eq Build.nextAlias fun _ => Build.nextAlias := by
  refine get.bind fun s t hst => ?_
  rw [(BuildState.erase_eq_iff.mp hst).2.2.1]
  refine (write fun s t hst => ?_).bind fun _ _ _ => .pure rfl
  obtain ⟨hstatements, hcontexts, haliases, hparameters⟩ := BuildState.erase_eq_iff.mp hst
  exact BuildState.erase_eq_iff.mpr ⟨hstatements, hcontexts, by rw [haliases], hparameters⟩

theorem nextParameter : c.Echoes Eq Build.nextParameter fun _ => Build.nextParameter := by
  refine get.bind fun s t hst => ?_
  rw [(BuildState.erase_eq_iff.mp hst).2.2.2]
  refine (write fun s t hst => ?_).bind fun _ _ _ => .pure rfl
  obtain ⟨hstatements, hcontexts, haliases, hparameters⟩ := BuildState.erase_eq_iff.mp hst
  exact BuildState.erase_eq_iff.mpr ⟨hstatements, hcontexts, haliases, by rw [hparameters]⟩

theorem lambdaScope {f g : Lambda} (h : f.erase = g.erase) (sequence : ContextId) (parent : Option ContextId) :
    c.Echoes Eq (Build.lambdaScope f sequence parent) fun _ => Build.lambdaScope g sequence parent := by
  unfold Build.lambdaScope
  rw [Lambda.row?_eq h]
  refine (orFailSame _ _).bind fun row _ hrow => (context sequence).bind fun d d' hd => ?_
  rw [hrow, hd.statement_eq]
  exact .addContext rfl

theorem withParent (id : ContextId) (p : Option ContextId) (h : c.Echoes R act echo) :
    c.Echoes R (Build.withParent id p act) fun rec => Build.withParent id p (echo rec) := by
  refine (context id).bind fun d d' hd => ?_
  refine (modifyContext id (Context.erase_withParent p)).bind fun _ _ _ => h.attempt.bind fun r r' hrr => ?_
  rw [hd.parent_eq]
  refine (modifyContext id (Context.erase_withParent d'.parent)).bind fun _ _ _ => ?_
  cases hrr with
  | ok hab => exact .pure hab
  | error he => exact .fail he

end Compiler.Echoes
end ObjectQuery
