import ObjectQuery.Proofs.Laws.Follow
import ObjectQuery.Proofs.Twins.Lookup

/-!
Two actions run side by side, each from a state of its own compilation. They end alike, unless the one that may have
less fuel has run out of it.
-/
namespace ObjectQuery

/-- The side that may have less fuel. -/
inductive Side where
  | left | right

/-- So much fuel that only this side can run out of it where the other does not. -/
def Side.Covers : Side → Nat → Nat → Prop
  | .left, n, n' => n ≤ n'
  | .right, n, n' => n' ≤ n

theorem Side.Covers.pred {side : Side} {n n' : Nat} (h : side.Covers (n + 1) (n' + 1)) : side.Covers n n' := by
  cases side <;> exact Nat.le_of_succ_le_succ h

namespace Build

variable {α β γ δ : Type}

/-- Both end with a result, or both stop for the same reason; and the states they end in are as said. -/
inductive Agrees (side : Side) (post : α → BuildState → β → BuildState → Prop)
    (stuck : BuildState → BuildState → Prop) :
    Except Stop α × BuildState → Except Stop β × BuildState → Prop
  | left {s y} (h : side = .left) : Agrees side post stuck (.error .outOfFuel, s) y
  | right {x t} (h : side = .right) : Agrees side post stuck x (.error .outOfFuel, t)
  | gives {a s b t} (h : post a s b t) : Agrees side post stuck (.ok a, s) (.ok b, t)
  | stops {stop s t} (h : stuck s t) : Agrees side post stuck (.error stop, s) (.error stop, t)

/-- From states alike, the actions end alike, with results that are related by then. -/
def Twins (side : Side) (free : StatementId → Prop) (w : Pairing) (P : Pairing → α → β → Prop) (act : Build α)
    (act' : Build β) : Prop :=
  ∀ s t, s.Alike free w t →
    Agrees side (fun a s b t => ∃ v, w.Within v ∧ s.Alike free v t ∧ P v a b)
      (fun s t => ∃ v, w.Within v ∧ s.Alike free v t) (act.run s) (act'.run t)

/-- The results are the same, whatever is paired. -/
def Equal (_ : Pairing) (a b : α) : Prop :=
  a = b

variable {side : Side} {free : StatementId → Prop} {w : Pairing} {act : Build α} {act' : Build β} {next : α → Build γ}
  {next' : β → Build δ} {P : Pairing → α → β → Prop} {Q : Pairing → γ → δ → Prop} {s t : BuildState}

theorem Agrees.bind {post : α → BuildState → β → BuildState → Prop} {stuck after : BuildState → BuildState → Prop}
    {final : γ → BuildState → δ → BuildState → Prop} (h : Agrees side post stuck (act.run s) (act'.run t))
    (hn : ∀ a s' b t', act.run s = (.ok a, s') → act'.run t = (.ok b, t') → post a s' b t' →
      Agrees side final after ((next a).run s') ((next' b).run t'))
    (hs : ∀ s t, stuck s t → after s t) : Agrees side final after ((act >>= next).run s) ((act' >>= next').run t) := by
  rw [run_bind, run_bind]
  generalize hl : act.run s = x at h hn
  generalize hr : act'.run t = y at h hn
  cases h with
  | left h => exact .left h
  | right h => exact .right h
  | gives h => exact hn _ _ _ _ rfl rfl h
  | stops h => exact .stops (hs _ _ h)

theorem Agrees.imp {post : α → BuildState → β → BuildState → Prop} {stuck after : BuildState → BuildState → Prop}
    {final : α → BuildState → β → BuildState → Prop} {x : Except Stop α × BuildState} {y : Except Stop β × BuildState}
    (h : Agrees side post stuck x y) (hf : ∀ a s b t, post a s b t → final a s b t)
    (hs : ∀ s t, stuck s t → after s t) : Agrees side final after x y := by
  cases h with
  | left h => exact .left h
  | right h => exact .right h
  | gives h => exact .gives (hf _ _ _ _ h)
  | stops h => exact .stops (hs _ _ h)

theorem Twins.pure {a : α} {b : β} (h : P w a b) : Twins side free w P (pure a) (pure b) :=
  fun _ _ hst => .gives ⟨w, .refl w, hst, h⟩

theorem Twins.throw (stop : Stop) : Twins side free w P (throw stop) (throw stop) :=
  fun _ _ hst => .stops ⟨w, .refl w, hst⟩

theorem Twins.fail (e : CompileError) : Twins side free w P (fail e) (fail e) :=
  .throw _

theorem Twins.bind (h : Twins side free w P act act')
    (hn : ∀ v, w.Within v → ∀ a b, P v a b → Twins side free v Q (next a) (next' b)) :
    Twins side free w Q (act >>= next) (act' >>= next') := by
  refine fun s t hst => (h s t hst).bind (fun a s' b t' _ _ ⟨v, hv, hst, hab⟩ => ?_) fun _ _ h => h
  refine (hn v hv a b hab s' t' hst).imp (fun _ _ _ _ => ?_) fun _ _ => ?_
  · rintro ⟨x, hx, hrest⟩
    exact ⟨x, hv.trans hx, hrest⟩
  · rintro ⟨x, hx, hrest⟩
    exact ⟨x, hv.trans hx, hrest⟩

/-- Both give the same result, and go on from there. -/
theorem Twins.then {act' : Build α} {next' : α → Build δ} (h : Twins side free w Equal act act')
    (hn : ∀ v, w.Within v → ∀ a, Twins side free v Q (next a) (next' a)) :
    Twins side free w Q (act >>= next) (act' >>= next') :=
  h.bind fun v hv a b hab => by
    obtain rfl : a = b := hab
    exact hn v hv a

theorem Twins.map {f : α → γ} {g : β → δ} (h : Twins side free w P act act')
    (hf : ∀ v a b, P v a b → Q v (f a) (g b)) : Twins side free w Q (f <$> act) (g <$> act') := by
  rw [← bind_pure_comp, ← bind_pure_comp]
  exact h.bind fun v _ a b hab => .pure (hf v a b hab)

/-- A fault may be answered or passed on, and it is the same on both sides. -/
theorem Twins.recover {next : Except CompileError α → Build γ} {next' : Except CompileError β → Build δ}
    (h : Twins side free w P act act')
    (hok : ∀ v, w.Within v → ∀ a b, P v a b → Twins side free v Q (next (.ok a)) (next' (.ok b)))
    (herror : ∀ v, w.Within v → ∀ e, Twins side free v Q (next (.error e)) (next' (.error e))) :
    Twins side free w Q (attempt act >>= next) (attempt act' >>= next') := by
  have hattempt : Twins side free w (fun v r r' => (∃ a b, r = .ok a ∧ r' = .ok b ∧ P v a b) ∨
      ∃ e, r = .error e ∧ r' = .error e) (attempt act) (attempt act') := by
    intro s t hst
    have hs := h s t hst
    rw [run_attempt, run_attempt]
    generalize act.run s = x at hs
    generalize act'.run t = y at hs
    cases hs with
    | left h => exact .left h
    | right h => exact .right h
    | gives h =>
      obtain ⟨v, hv, hst, hab⟩ := h
      exact .gives ⟨v, hv, hst, .inl ⟨_, _, rfl, rfl, hab⟩⟩
    | @stops stop _ _ h =>
      obtain ⟨v, hv, hst⟩ := h
      cases stop with
      | outOfFuel | dangling => exact .stops ⟨v, hv, hst⟩
      | failed e => exact .gives ⟨v, hv, hst, .inr ⟨e, rfl, rfl⟩⟩
  refine hattempt.bind fun v hv r r' hr => ?_
  obtain ⟨a, b, rfl, rfl, hab⟩ | ⟨e, rfl, rfl⟩ := hr
  · exact hok v hv a b hab
  · exact herror v hv e

theorem Twins.inContext {text : String} (h : Twins side free w P act act') :
    Twins side free w P (inContext text act) (inContext text act') :=
  h.recover (fun _ _ _ _ hab => .pure hab) fun _ _ _ => .fail _

theorem Twins.mapM {f g : α → Build β} (xs : List α)
    (hf : ∀ v, w.Within v → ∀ x ∈ xs, Twins side free v Equal (f x) (g x)) :
    Twins side free w Equal (xs.mapM f) (xs.mapM g) := by
  induction xs generalizing w with
  | nil => exact .pure rfl
  | cons x xs ih =>
    rw [List.mapM_cons, List.mapM_cons]
    refine (hf w (.refl w) x (by simp)).then fun v hv b => ?_
    refine (ih fun u hu y hy => hf u (hv.trans hu) y (by simp [hy])).then fun _ _ bs => .pure rfl

theorem Twins.forM {f g : α → Build PUnit} (xs : List α)
    (hf : ∀ v, w.Within v → ∀ x ∈ xs, Twins side free v Equal (f x) (g x)) :
    Twins side free w Equal (xs.forM f) (xs.forM g) := by
  induction xs generalizing w with
  | nil => exact .pure rfl
  | cons x xs ih =>
    exact (hf w (.refl w) x (by simp)).then fun v hv _ => ih fun u hu y hy => hf u (hv.trans hu) y (by simp [hy])

theorem Twins.orFail (e : CompileError) (o : Option α) : Twins side free w Equal (orFail e o) (orFail e o) := by
  cases o
  · exact .fail e
  · exact .pure rfl

theorem Twins.orFailRel {R : α → β → Prop} {o : Option α} {o' : Option β} (e : CompileError) (h : Option.Rel R o o') :
    Twins side free w (fun _ => R) (Build.orFail e o) (Build.orFail e o') := by
  cases h with
  | none => exact .fail e
  | some hab => exact .pure hab

theorem Twins.orDangling (o : Option α) : Twins side free w Equal (orDangling o) (orDangling o) := by
  cases o
  · exact .throw _
  · exact .pure rfl

theorem Twins.ofExcept (r : Except CompileError α) : Twins side free w Equal (ofExcept r) (ofExcept r) := by
  cases r
  · exact .fail _
  · exact .pure rfl

/-! Looking at paired contexts. -/

variable {i j : ContextId} {m : StatementId}

theorem Twins.context {next : Context → Build γ} {next' : Context → Build δ} (hij : w.same i j)
    (hn : ∀ d e, d.Alike w.same e → Twins side free w Q (next d) (next' e)) :
    Twins side free w Q (context i >>= next) (context j >>= next') := by
  intro s t hst
  obtain ⟨d, e, hd, he, hde⟩ := hst.contexts hij
  rw [run_bind, run_bind, run_context, run_context, hd, he]
  exact hn d e hde s t hst

/-- What is no scope has no other counterpart. -/
theorem Twins.contextTwin {next : Context → Build γ} {next' : Context → Build δ} (hij : w.same i j)
    (hn : ∀ d e, d.Alike w.same e → (d.isScope = false → w.twin i j) → Twins side free w Q (next d) (next' e)) :
    Twins side free w Q (Build.context i >>= next) (Build.context j >>= next') := by
  intro s t hst
  obtain ⟨d, e, hd, he, hde⟩ := hst.contexts hij
  rw [run_bind, run_bind, run_context, run_context, hd, he]
  exact hn d e hde (hst.twins hij hd).mpr s t hst

/-- The statement of a context of one's own is not free. -/
theorem Twins.contextOwn {next : Context → Build γ} {next' : Context → Build δ} (hij : w.own i j)
    (hn : ∀ d e, d.Alike w.same e → ¬ free d.statement → Twins side free w Q (next d) (next' e)) :
    Twins side free w Q (Build.context i >>= next) (Build.context j >>= next') := by
  intro s t hst
  obtain ⟨d, e, hd, he, hde⟩ := hst.contexts (w.same_of_own hij)
  rw [run_bind, run_bind, run_context, run_context, hd, he]
  exact hn d e hde (hst.own hij hd) s t hst

theorem Twins.statement (m : StatementId) :
    Twins side free w (fun _ st st' => st.Alike (free m) st') (statement m) (statement m) := by
  intro s t hst
  rw [run_statement, run_statement]
  cases hm : s.statements[m]? with
  | none =>
    have hle := List.getElem?_eq_none_iff.mp hm
    rw [← hst.length] at hle
    rw [List.getElem?_eq_none hle]
    exact .stops ⟨w, .refl w, hst⟩
  | some st =>
    obtain ⟨st', hst', halike⟩ := hst.statements hm
    rw [hst']
    exact .gives ⟨w, .refl w, hst, halike⟩

theorem Twins.ensureComposable (hij : w.same i j) (operation : String) :
    Twins side free w Equal (ensureComposable i operation) (ensureComposable j operation) := by
  refine .context hij fun d e hde => ?_
  rw [hde.isUpdate]
  split
  · exact .fail _
  · exact .pure rfl

theorem Twins.rootOf (hij : w.same i j) (path : Path) :
    Twins side free w Pairing.same (rootOf i path) (rootOf j path) := by
  have hfind : Twins side free w (fun v => Option.Rel v.same) (findBinding? i path.root)
      (findBinding? j path.root) := by
    intro s t hst
    change Agrees _ _ _ ((orStop (bindingFrom s.contexts path.root s.contexts.length (some i))).run s)
      ((orStop (bindingFrom t.contexts path.root t.contexts.length (some j))).run t)
    obtain ⟨stop, hl, hr⟩ | ⟨x, y, hl, hr, hxy⟩ := hst.lookup path.root hij
    · rw [hl, hr]
      exact .stops ⟨w, .refl w, hst⟩
    · rw [hl, hr]
      exact .gives ⟨w, .refl w, hst, hxy⟩
  refine hfind.bind fun v _ x y hxy => ?_
  cases hxy with
  | none => exact .fail _
  | some hxy => exact .pure hxy

/-! Changes on both sides. -/

variable {d e : Context}

theorem Twins.addContext (hde : d.Alike w.same e) :
    Twins side free w Pairing.same (addContext d) (addContext e) := by
  intro s t hst
  obtain ⟨v, hv, hst, hij, -⟩ := hst.enter hde False False.elim
  rw [run_addContext, run_addContext]
  exact .gives ⟨v, hv, hst, hij⟩

theorem Twins.addOwn (hde : d.Alike w.same e) (hs : d.isScope = false) (hf : ¬ free d.statement) :
    Twins side free w Pairing.own (Build.addContext d) (Build.addContext e) := by
  intro s t hst
  obtain ⟨v, hv, hst, -, hij⟩ := hst.enter hde True fun _ => ⟨hs, hf⟩
  rw [run_addContext, run_addContext]
  exact .gives ⟨v, hv, hst, hij trivial⟩

theorem Twins.lambdaScope {p q : Option ContextId} (l : Lambda) (hij : w.same i j) (hp : Option.Rel w.same p q) :
    Twins side free w Pairing.same (lambdaScope l i p) (lambdaScope l j q) := by
  refine (Twins.orFail _ l.row?).then fun v hv row => .context (hv.same hij) fun d e hde => ?_
  rw [hde.statement]
  exact .addContext (.lambda (rel_imp (fun _ _ => hv.same) hp) (.cons ⟨rfl, hv.same hij⟩ .nil))

theorem Twins.addStatement (st : Statement) :
    Twins side free w (fun _ m n => m = n ∧ ¬ free m) (addStatement st) (addStatement st) := by
  intro s t hst
  rw [run_addStatement, run_addStatement]
  exact .gives ⟨w, .refl w, hst.begin st, hst.length.symm, hst.not_free_length⟩

theorem Twins.modifyStatement {f : Statement → Statement} (hf : Statement.Blind f) :
    Twins side free w Equal (modifyStatement m f) (modifyStatement m f) := by
  intro s t hst
  rw [run_modifyStatement, run_modifyStatement]
  cases hm : s.statements[m]? with
  | none =>
    have hle := List.getElem?_eq_none_iff.mp hm
    rw [← hst.length] at hle
    rw [List.getElem?_eq_none hle]
    exact .stops ⟨w, .refl w, hst⟩
  | some st =>
    obtain ⟨st', hst', -⟩ := hst.statements hm
    rw [hst']
    exact .gives ⟨w, .refl w, hst.alter m hf, rfl⟩

theorem Twins.nextAlias : Twins side free w Equal nextAlias nextAlias := by
  intro s t hst
  rw [run_nextAlias, run_nextAlias, hst.aliases]
  exact .gives ⟨w, .refl w, hst.countAlias, rfl⟩

theorem Twins.nextParameter : Twins side free w Equal nextParameter nextParameter := by
  intro s t hst
  have hrun : ∀ s : BuildState, Build.nextParameter.run s =
      (.ok ("p" ++ toString (s.parameters + 1)), { s with parameters := s.parameters + 1 }) := fun _ => rfl
  rw [hrun, hrun]
  exact .gives ⟨w, .refl w, hst.countParameter, by rw [Equal, hst.parameters]⟩

/-- The scopes that an association is followed from remember nothing of it. -/
theorem Twins.follow {k l : ContextId} (hij : w.same i j) (hkl : w.same k l) (name : String) :
    Twins side free w Equal (modifyContext i (Context.follow name k)) (modifyContext j (Context.follow name l)) := by
  intro s t hst
  obtain ⟨d, e, hd, he, hde⟩ := hst.contexts hij
  rw [run_modifyContext, run_modifyContext, hd, he]
  refine .gives ⟨w, .refl w, ?_, rfl⟩
  cases hs : d.isScope with
  | false =>
    refine hst.adjust ((hst.twins hij hd).mpr hs) (fun _ _ h => h.follow name hkl) fun d => ?_
    cases d <;> exact ⟨rfl, rfl⟩
  | true =>
    have hself : ∀ (d : Context) (k : ContextId), d.isScope = true → d.follow name k = d := by
      intro d k hs
      cases d <;> first | rfl | cases hs
    rw [BuildState.adjust_eq_self hd (hself d k hs), BuildState.adjust_eq_self he (hself e l (hde.isScope.trans hs))]
    exact hst

theorem Twins.reparent {p q : Option ContextId} (hij : w.own i j) (hp : Option.Rel w.same p q) :
    Twins side free w Equal (modifyContext i (Context.withParent p)) (modifyContext j (Context.withParent q)) := by
  intro s t hst
  obtain ⟨d, e, hd, he, -⟩ := hst.contexts (w.same_of_own hij)
  rw [run_modifyContext, run_modifyContext, hd, he]
  refine .gives ⟨w, .refl w, hst.adjust (w.twin_of_own hij) (fun _ _ h => h.withParent hp) fun d => ?_, rfl⟩
  cases d <;> exact ⟨rfl, rfl⟩

theorem Twins.withParent {p q : Option ContextId} {act act' : Build α} (hij : w.own i j) (hp : Option.Rel w.same p q)
    (h : ∀ v, w.Within v → Twins side free v Equal act act') :
    Twins side free w Equal (withParent i p act) (withParent j q act') := by
  refine .context (w.same_of_own hij) fun d e hde => (Twins.reparent hij hp).then fun v hv _ => ?_
  have hback : ∀ x, v.Within x → ∀ r : Except CompileError α, Twins side free x Equal
      (do modifyContext i (Context.withParent d.parent); Build.ofExcept r)
      (do modifyContext j (Context.withParent e.parent); Build.ofExcept r) := fun x hx r =>
    (Twins.reparent (hx.own (hv.own hij)) (rel_imp (fun _ _ h => hx.same (hv.same h)) hde.parent)).then
      fun _ _ _ => .ofExcept r
  refine (h v hv).recover (fun x hx a b hab => ?_) fun x hx e => hback x hx (.error e)
  obtain rfl : a = b := hab
  exact hback x hx (.ok a)

end Build
end ObjectQuery
