import Mathlib.Order.Filter.AtTopBot.Basic
import ObjectQuery.Compile.Query
import ObjectQuery.Proofs.Halting.Preserves

/-!
Actions that come to an end. They end in one way however deep their calls may be nested, from some depth on, and that
is not for want of fuel.
-/
namespace ObjectQuery

open Build

variable {α β γ : Type}

/-- How an action ends that has fuel enough. -/
inductive Halts (l : List Context) (P : α → List Context → Prop) : Except Stop α × BuildState → Prop
  | gives {a t} (preserves : Preserves l t.contexts) (sound : Sound t.contexts) (h : P a t.contexts) :
    Halts l P (.ok a, t)
  | fails {e t} (preserves : Preserves l t.contexts) (sound : Sound t.contexts) : Halts l P (.error (.failed e), t)
  | dangles {t} : Halts l P (.error .dangling, t)

/-- With calls nested deep enough the action always ends in the same way. -/
def Compiler.Settles (c : Compiler) (s : BuildState) (act : Calls → Build α) (P : α → List Context → Prop) : Prop :=
  Sound s.contexts → ∃ r, (∀ᶠ n in Filter.atTop, (act (c.calls n)).run s = r) ∧ Halts s.contexts P r

theorem Halts.trans {l l' : List Context} {P : α → List Context → Prop} {r : Except Stop α × BuildState}
    (h : Preserves l l') (hr : Halts l' P r) : Halts l P r := by
  cases hr with
  | gives preserves sound ha => exact .gives (h.trans preserves) sound ha
  | fails preserves sound => exact .fails (h.trans preserves) sound
  | dangles => exact .dangles

theorem Halts.ne_outOfFuel {l : List Context} {P : α → List Context → Prop} {r : Except Stop α × BuildState}
    (h : Halts l P r) : r.1 ≠ .error .outOfFuel := by
  cases h <;> nofun

/-! Actions without calls. -/

/-- The contexts stay what they are, and no fuel is needed. -/
def Build.Still (act : Build α) : Prop :=
  ∀ s, (act.run s).2.contexts = s.contexts ∧ (act.run s).1 ≠ .error .outOfFuel

namespace Build.Still

theorem pure (a : α) : (pure a : Build α).Still :=
  fun _ => ⟨rfl, nofun⟩

theorem fail (e : CompileError) : (Build.fail e : Build α).Still :=
  fun _ => ⟨rfl, nofun⟩

theorem bind {act : Build α} {next : α → Build β} (h : act.Still) (hn : ∀ a, (next a).Still) :
    (act >>= next).Still := by
  intro s
  obtain ⟨hs, hr⟩ := h s
  rw [run_bind]
  generalize act.run s = r at hs hr
  obtain ⟨stop | a, t⟩ := r
  · exact ⟨hs, fun h => hr (by rw [Except.error.inj h])⟩
  · obtain ⟨ht, hr'⟩ := hn a t
    exact ⟨ht.trans hs, hr'⟩

theorem orDangling (o : Option α) : (Build.orDangling o).Still := by
  cases o <;> exact fun _ => ⟨rfl, nofun⟩

theorem orFail (e : CompileError) (o : Option α) : (Build.orFail e o).Still := by
  cases o <;> exact fun _ => ⟨rfl, nofun⟩

theorem ofExcept (r : Except CompileError α) : (Build.ofExcept r).Still := by
  cases r <;> exact fun _ => ⟨rfl, nofun⟩

theorem get : (get : Build BuildState).Still :=
  fun _ => ⟨rfl, nofun⟩

theorem context (id : ContextId) : (Build.context id).Still :=
  get.bind fun _ => orDangling _

theorem statement (m : StatementId) : (Build.statement m).Still :=
  get.bind fun _ => orDangling _

theorem ensureComposable (id : ContextId) (operation : String) : (Build.ensureComposable id operation).Still := by
  refine (context id).bind fun d => ?_
  split
  · exact .fail _
  · exact .pure ()

theorem write {f : BuildState → BuildState} (hf : ∀ s, (f s).contexts = s.contexts) : (Build.write f).Still := by
  intro s
  rw [run_write]
  exact ⟨hf s, nofun⟩

theorem nextAlias : Build.nextAlias.Still :=
  get.bind fun _ => (write fun _ => rfl).bind fun _ => .pure _

theorem nextParameter : Build.nextParameter.Still :=
  get.bind fun _ => (write fun _ => rfl).bind fun _ => .pure _

theorem addStatement (st : Statement) : (Build.addStatement st).Still :=
  get.bind fun _ => (write fun _ => rfl).bind fun _ => .pure _

theorem modifyStatement (m : StatementId) (f : Statement → Statement) : (Build.modifyStatement m f).Still :=
  (statement m).bind fun _ => write fun _ => rfl

theorem forM {f : α → Build PUnit} (xs : List α) (hf : ∀ x, (f x).Still) : (xs.forM f).Still := by
  induction xs with
  | nil => exact .pure ()
  | cons x xs ih => exact (hf x).bind fun _ => ih

end Build.Still

namespace Compiler.Settles

variable {c : Compiler} {s : BuildState} {act : Calls → Build α} {next : α → Calls → Build β}
  {P : α → List Context → Prop} {Q : β → List Context → Prop}

theorem pure {a : α} (h : P a s.contexts) : c.Settles s (fun _ => pure a) P :=
  fun hs => ⟨_, .of_forall fun _ => rfl, .gives (.refl _) hs h⟩

theorem fail (e : CompileError) : c.Settles s (fun _ => Build.fail e) P :=
  fun hs => ⟨_, .of_forall fun _ => rfl, .fails (.refl _) hs⟩

theorem still {act : Build α} (h : act.Still) : c.Settles s (fun _ => act) fun _ l => l = s.contexts := by
  intro hs
  refine ⟨_, .of_forall fun _ => rfl, ?_⟩
  obtain ⟨hcontexts, hr⟩ := h s
  generalize act.run s = r at hcontexts hr
  obtain ⟨(_ | _ | _) | a, t⟩ := r
  · exact .fails (hcontexts ▸ .refl _) (hcontexts ▸ hs)
  · exact absurd rfl hr
  · exact .dangles
  · exact .gives (hcontexts ▸ .refl _) (hcontexts ▸ hs) hcontexts

theorem bind (h : c.Settles s act P)
    (hn : ∀ a t, Preserves s.contexts t.contexts → P a t.contexts → c.Settles t (next a) Q) :
    c.Settles s (fun rec => act rec >>= fun a => next a rec) Q := by
  intro hs
  obtain ⟨r, hr, hends⟩ := h hs
  cases hends with
  | gives preserves sound ha =>
    obtain ⟨r', hr', hends'⟩ := hn _ _ preserves ha sound
    refine ⟨r', ?_, hends'.trans preserves⟩
    filter_upwards [hr, hr'] with n hn hn'
    rw [run_bind, hn]
    exact hn'
  | @fails e t preserves sound =>
    exact ⟨(.error (.failed e), t), hr.mono fun n hn => by rw [run_bind, hn], .fails preserves sound⟩
  | @dangles t => exact ⟨(.error .dangling, t), hr.mono fun n hn => by rw [run_bind, hn], .dangles⟩

theorem of_sound (h : Sound s.contexts → c.Settles s act P) : c.Settles s act P :=
  fun hs => h hs hs

theorem congr {act' : Calls → Build α} (h : c.Settles s act P) (hact : ∀ n, act' (c.calls n) = act (c.calls n)) :
    c.Settles s act' P := by
  intro hs
  obtain ⟨r, hr, hends⟩ := h hs
  exact ⟨r, hr.mono fun n hn => by rw [hact, hn], hends⟩

theorem imp {P' : α → List Context → Prop} (h : c.Settles s act P)
    (hP : ∀ a l, Preserves s.contexts l → P a l → P' a l) : c.Settles s act P' := by
  intro hs
  obtain ⟨r, hr, hends⟩ := h hs
  refine ⟨r, hr, ?_⟩
  cases hends with
  | gives preserves sound ha => exact .gives preserves sound (hP _ _ preserves ha)
  | fails preserves sound => exact .fails preserves sound
  | dangles => exact .dangles

/-- Nothing is said of the result. -/
theorem any (h : c.Settles s act P) : c.Settles s act fun _ _ => True :=
  h.imp fun _ _ _ _ => trivial

theorem map {f : α → β} (h : c.Settles s act P) (hf : ∀ a l, P a l → Q (f a) l) :
    c.Settles s (fun rec => f <$> act rec) Q := by
  simp only [← bind_pure_comp]
  exact h.bind fun a t _ ha => .pure (hf a _ ha)

theorem attempt (h : c.Settles s act P) :
    c.Settles s (fun rec => Build.attempt (act rec)) fun r l => ∀ a, r = .ok a → P a l := by
  intro hs
  obtain ⟨r, hr, hends⟩ := h hs
  cases hends with
  | @gives a t preserves sound ha =>
    exact ⟨(.ok (.ok a), t), hr.mono fun n hn => by rw [run_attempt, hn],
      .gives preserves sound fun _ h => Except.ok.inj h ▸ ha⟩
  | @fails e t preserves sound =>
    exact ⟨(.ok (.error e), t), hr.mono fun n hn => by rw [run_attempt, hn], .gives preserves sound nofun⟩
  | @dangles t => exact ⟨(.error .dangling, t), hr.mono fun n hn => by rw [run_attempt, hn], .dangles⟩

/-- A fault may be answered or passed on. -/
theorem recover {next : Except CompileError α → Calls → Build β} (h : c.Settles s act P)
    (hok : ∀ a t, Preserves s.contexts t.contexts → P a t.contexts → c.Settles t (next (.ok a)) Q)
    (herror : ∀ e t, Preserves s.contexts t.contexts → c.Settles t (next (.error e)) Q) :
    c.Settles s (fun rec => Build.attempt (act rec) >>= fun r => next r rec) Q := by
  refine h.attempt.bind fun r t ht hr => ?_
  cases r with
  | ok a => exact hok a t ht (hr a rfl)
  | error e => exact herror e t ht

theorem inContext (text : String) (h : c.Settles s act P) :
    c.Settles s (fun rec => Build.inContext text (act rec)) P := by
  unfold Build.inContext
  exact h.recover (fun _ _ _ ha => .pure ha) fun _ _ _ => .fail _

theorem mapM {f : α → Calls → Build β} (xs : List α)
    (hf : ∀ t, Preserves s.contexts t.contexts → ∀ x ∈ xs, c.Settles t (f x) fun _ _ => True) :
    c.Settles s (fun rec => xs.mapM fun x => f x rec) fun _ _ => True := by
  induction xs generalizing s with
  | nil => exact .pure trivial
  | cons x xs ih =>
    simp only [List.mapM_cons]
    refine (hf s (.refl _) x List.mem_cons_self).bind fun y t ht _ => ?_
    refine (ih fun u hu z hz => hf u (ht.trans hu) z (List.mem_cons_of_mem x hz)).bind fun ys u hu _ => ?_
    exact .pure trivial

/-- One call more. -/
theorem call (act : Calls → Build α) {act' : Calls → Build α} (h : c.Settles s act P)
    (hact : ∀ n, act' (c.calls (n + 1)) = act (c.calls n)) :
    c.Settles s act' P := by
  intro hs
  obtain ⟨r, hr, hends⟩ := h hs
  obtain ⟨N, hN⟩ := Filter.eventually_atTop.mp hr
  refine ⟨r, Filter.eventually_atTop.mpr ⟨N + 1, fun n hn => ?_⟩, hends⟩
  obtain ⟨n, rfl⟩ := Nat.exists_eq_succ_of_ne_zero (Nat.ne_zero_of_lt hn)
  rw [hact]
  exact hN n (Nat.le_of_succ_le_succ hn)

theorem context {id : ContextId} {next : Context → Calls → Build β}
    (hn : ∀ d, s.contexts[id]? = some d → c.Settles s (next d) Q) :
    c.Settles s (fun rec => Build.context id >>= fun d => next d rec) Q := by
  intro hs
  simp only [run_bind, run_context]
  cases hd : s.contexts[id]? with
  | none => exact ⟨_, .of_forall fun _ => rfl, .dangles⟩
  | some d => exact hn d hd hs

theorem addContext {d : Context} (hd : d.rows?.elim [] Rows.followed = []) :
    c.Settles s (fun _ => Build.addContext d) fun id l => id = s.contexts.length ∧ l = s.contexts ++ [d] := by
  intro hs
  refine ⟨_, .of_forall fun _ => run_addContext d s, ?_⟩
  exact .gives (sustains_concat _ d).preserves (hs.enter hd) ⟨rfl, rfl⟩

theorem follow {owner id : ContextId} {name : String} (h : Associated s.contexts id) :
    c.Settles s (fun _ => modifyContext owner (Context.follow name id)) fun _ _ => True := by
  intro hs
  refine ⟨_, .of_forall fun _ => run_modifyContext owner _ s, ?_⟩
  cases s.contexts[owner]? with
  | none => exact .dangles
  | some d => exact .gives (sustains_follow _ owner name id).preserves (hs.follow h) trivial

/-- While the context is under another parent, a projection goes on to see what it saw. -/
theorem withParent {id : ContextId} {d : Context} {p : Option ContextId} (hd : s.contexts[id]? = some d)
    (hscope : d.isScope = false)
    (hsees : ∀ q m k f scalar, d = .projection q m k f scalar →
      ∀ x ∈ f.free, ∀ r, Finds s.contexts x q r → Finds s.contexts x p r)
    (h : c.Settles (s.adjust id (Context.withParent p)) act P) :
    c.Settles s (fun rec => Build.withParent id p (act rec)) fun _ _ => True := by
  have hpreserves := preserves_reparent p hd hscope hsees
  have hrun : ∀ act : Build α, (Build.withParent id p act).run s =
      (Build.attempt act >>= fun r => do
        modifyContext id (Context.withParent d.parent)
        Build.ofExcept r).run (s.adjust id (Context.withParent p)) := by
    intro act
    rw [Build.withParent, run_bind, run_context, hd]
    dsimp only [Option.elim_some]
    rw [run_bind, run_modifyContext, hd]
    rfl
  -- the context is there when its parent is restored
  have hrestore : ∀ {t : BuildState} (r : Except CompileError α),
      Preserves (s.contexts.modify id (Context.withParent p)) t.contexts → Sound t.contexts →
      Halts s.contexts (fun _ _ => True)
        ((do modifyContext id (Context.withParent d.parent); Build.ofExcept r : Build α).run t) := by
    intro t r ht hsound
    obtain ⟨e, he, hpersists⟩ := ht.persists id (d.withParent p) (by rw [List.getElem?_modify, hd]; simp)
    have hback := preserves_restore hd hscope ht
    have hsound' : Sound (t.contexts.modify id (Context.withParent d.parent)) := by
      refine hsound.withParent (supports_withParent _ _ fun e' he' => ?_)
      obtain rfl := Option.some.inj (he.symm.trans he')
      exact hpersists.isScope (by cases d <;> first | rfl | cases hscope)
    rw [run_bind, run_modifyContext, he]
    cases r with
    | ok a => exact .gives hback hsound' trivial
    | error e => exact .fails hback hsound'
  intro hs
  obtain ⟨r, hr, hends⟩ := h.attempt (hs.withParent hpreserves.supports)
  cases hends with
  | @gives r t preserves sound =>
    exact ⟨_, hr.mono fun n hn => by rw [hrun, run_bind, hn], hrestore r preserves sound⟩
  | @fails e t preserves sound =>
    exact ⟨(.error (.failed e), t), hr.mono fun n hn => by rw [hrun, run_bind, hn],
      .fails (hpreserves.trans preserves) sound⟩
  | @dangles t => exact ⟨(.error .dangling, t), hr.mono fun n hn => by rw [hrun, run_bind, hn], .dangles⟩

end Compiler.Settles
end ObjectQuery
