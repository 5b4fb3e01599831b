import ObjectQuery.Proofs.Enumeration.Recurs
import ObjectQuery.Proofs.Fusion.Moment
import ObjectQuery.Proofs.Parts

/-!
An action of the compilation with the projection, and the one that keeps up with it in the compilation without. Nothing
is said of an action that gives no result.
-/
namespace ObjectQuery

open Build

namespace Fusion

variable {φ : Fusion} {α β γ δ : Type} {m n : φ.Moment} {i j a b : ContextId} {p q : Option ContextId} {d e : Context}
  {mode : Mode}

namespace Moment

/-- Where the one context binds a name so does the other, and where it does not, both lead on to contexts that stand for
each other, or the one leads nowhere. -/
theorem Pair.binding? (h : m.Pair d e) {y : String} (hy : y ≠ φ.parameter) :
    (∃ x z, d.binding? y = some x ∧ e.binding? y = some z ∧ m.same x z) ∨
      d.binding? y = none ∧ (d.parent = none ∨ e.binding? y = none ∧ m.Sees d.parent e.parent) := by
  cases h with
  | table parent => exact .inr ⟨rfl, .inr ⟨rfl, parent⟩⟩
  | association owner => exact .inr ⟨rfl, .inr ⟨rfl, .same owner⟩⟩
  | projection mode _ parent => exact .inr ⟨rfl, .inr ⟨rfl, parent.sees⟩⟩
  | @lambda _ _ _ bs cs parent bindings =>
    have hlookup := Entry.lookup bindings y
    generalize hx : bs.lookup y = x at hlookup
    generalize hz : cs.lookup y = z at hlookup
    cases hlookup with
    | none => exact .inr ⟨hx, .inr ⟨hz, parent⟩⟩
    | some hxz => exact .inl ⟨_, _, hx, hz, hxz⟩
  | read =>
    refine .inr ⟨?_, .inl rfl⟩
    rw [Context.binding?, List.lookup_cons, beq_false_of_ne hy, List.lookup_nil]

/-- What is found on the left is found on the right, if only because it is looked for long enough. -/
theorem Alike.exists_bindingFrom (h : m.Alike) {y : String} (hy : y ≠ φ.parameter) (hpq : m.Sees p q) {k : Nat}
    (hfound : bindingFrom m.left.contexts y k p = .ok (some i)) :
    ∃ l j, bindingFrom m.right.contexts y l q = .ok (some j) ∧ m.same i j := by
  induction k generalizing p q with
  | zero => cases p <;> cases hfound
  | succ k ih =>
    cases hpq with
    | none => cases hfound
    | inside hinside =>
      obtain ⟨σ, number, hσ, ha, hb, -⟩ := hinside
      have hrow : i = σ.rows ∧ y = φ.row := by
        simp only [bindingFrom, ha, Context.binding?, Context.parent, List.lookup_cons, List.lookup_nil] at hfound
        by_cases hyr : y = φ.row
        · rw [hyr, beq_self_eq_true] at hfound
          exact ⟨(Option.some.inj (Except.ok.inj hfound)).symm, hyr⟩
        · rw [beq_false_of_ne hyr] at hfound
          cases k <;> cases hfound
      obtain ⟨rfl, rfl⟩ := hrow
      exact ⟨_, _, hb.bindingFrom _ hb.lt_length, (h.site hσ).1⟩
    | @same a b hab =>
      obtain ⟨d, e, hd, he, hde⟩ := h.contexts hab
      rw [bindingFrom, hd] at hfound
      dsimp only at hfound
      rcases hde.binding? hy with ⟨x, z, hx, hz, hxz⟩ | ⟨hdy, htop | ⟨hey, hparent⟩⟩
      · rw [hx] at hfound
        cases hfound
        exact ⟨1, z, by rw [bindingFrom, he]; simp only [hz], hxz⟩
      · rw [hdy, htop] at hfound
        cases k <;> cases hfound
      · rw [hdy] at hfound
        obtain ⟨l, j, hl, hij⟩ := ih hparent hfound
        exact ⟨l + 1, j, by rw [bindingFrom, he]; simp only [hey, hl], hij⟩

/-- The contexts of the right side that stand for one of the left side lead on to others. -/
theorem Alike.exists_same_parent (h : m.Alike) (hij : m.same i j) (he : m.right.contexts[j]? = some e) {l : ContextId}
    (hl : e.parent = some l) : ∃ k, m.same k l := by
  obtain ⟨d, e', -, he', hde⟩ := h.contexts hij
  obtain rfl := Option.some.inj (he'.symm.trans he)
  cases hde with
  | table parent =>
    cases hl
    exact parent.exists_same
  | association owner =>
    cases hl
    exact ⟨_, owner⟩
  | projection mode _ parent =>
    cases hl
    exact parent.sees.exists_same
  | lambda parent =>
    cases hl
    exact parent.exists_same
  | read => cases hl

theorem Alike.lookup (h : m.Alike) {y : String} (hy : y ≠ φ.parameter) (hpq : m.Sees (some a) (some b))
    (hfound : bindingFrom m.left.contexts y m.left.contexts.length (some a) = .ok (some i)) :
    ∃ j, bindingFrom m.right.contexts y m.right.contexts.length (some b) = .ok (some j) ∧ m.same i j := by
  obtain ⟨l, j, hl, hij⟩ := h.exists_bindingFrom hy hpq hfound
  have hright := bindingFrom_eq_of_length_le y (S := fun j => ∃ i, m.same i j) (fun _ ⟨_, hij⟩ => (h.lt_length hij).2)
    (fun _ _ _ ⟨_, hij⟩ he hl => h.exists_same_parent hij he hl) hpq.exists_same
    (Nat.le_add_left m.right.contexts.length l)
  refine ⟨j, ?_, hij⟩
  rw [← hright, bindingFrom_add, hl]
  rw [hl]
  nofun

/-- Below the scopes of a lambda that is compiled on both sides. -/
theorem Alike.holds_enter (h : m.Alike) (hij : m.same i j) (hpq : m.Holds mode p q) {row : String}
    (hrow : mode = .fused → row ≠ φ.parameter → row ≠ φ.row) (number : StatementId) :
    (m.enter (.lambda p number [(row, i)]) (.lambda q number [(row, j)])).Holds (mode.under φ (some row))
      (some m.left.contexts.length) (some m.right.contexts.length) := by
  have hsees : (m.enter (.lambda p number [(row, i)]) (.lambda q number [(row, j)])).Sees
      (some m.left.contexts.length) (some m.right.contexts.length) := .same (.inr ⟨rfl, rfl⟩)
  by_cases hx : row = φ.parameter
  · subst hx
    have hkept : mode.under φ (some φ.parameter) = .kept := by cases mode <;> simp [Mode.under]
    rw [hkept]
    exact ⟨hsees, some i, .entered (h.lt_length hij).1, fun _ hi =>
      ⟨j, .entered (h.lt_length hij).2, .inl (Option.some.inj hi ▸ hij)⟩⟩
  · have hunder : mode.under φ (some row) = mode := by cases mode <;> simp [Mode.under, hx]
    rw [hunder]
    cases mode with
    | kept =>
      obtain ⟨-, r, hr, hsame⟩ := hpq
      refine ⟨hsees, r, hr.enter hx, fun i' hi => ?_⟩
      obtain ⟨j', hj, hij'⟩ := hsame i' hi
      exact ⟨j', hj.enter hx, .inl hij'⟩
    | absent => exact hsees
    | fused =>
      obtain ⟨-, σ, hσ, hl, hr⟩ := hpq
      exact ⟨hsees, σ, hσ, hl.enter hx, hr.enter (hrow rfl hx)⟩

end Moment

/-- Where the action on the left gives a result, so does the one on the right, and the results belong together. -/
def Tracks (m : φ.Moment) (P : φ.Moment → α → β → Prop) (act : Build α) (act' : Build β) : Prop :=
  m.Alike → ∀ a s, act.run m.left = (.ok a, s) →
    ∃ (n : φ.Moment) (b : β), n.left = s ∧ m.Later n ∧ n.Alike ∧ act'.run m.right = (.ok b, n.right) ∧ P n a b

/-- The results are the same. -/
def Equal (_ : φ.Moment) (a b : α) : Prop :=
  a = b

namespace Tracks

variable {P : φ.Moment → α → β → Prop} {Q : φ.Moment → γ → δ → Prop} {R : φ.Moment → α → δ → Prop}
  {act : Build α} {act' : Build β} {next : α → Build γ} {next' : β → Build δ}

theorem pure {a : α} {b : β} (h : P m a b) : Tracks m P (pure a) (pure b) := by
  rintro halike _ _ ⟨⟩
  exact ⟨m, b, rfl, .refl m, halike, rfl, h⟩

theorem throw (stop : Stop) : Tracks m P (throw stop) act' :=
  fun _ _ _ => nofun

theorem fail (e : CompileError) : Tracks m P (fail e) act' :=
  throw _

theorem bind (h : Tracks m P act act')
    (hn : ∀ n, m.Later n → ∀ a b, P n a b → Tracks n Q (next a) (next' b)) :
    Tracks m Q (act >>= next) (act' >>= next') := by
  intro halike c s hrun
  obtain ⟨a, t, hact, hnext⟩ := exists_of_run_bind hrun
  obtain ⟨n, b, rfl, hmn, hnow, hact', hab⟩ := h halike a t hact
  obtain ⟨o, c', rfl, hno, hend, hnext', hc⟩ := hn n hmn a b hab hnow c s hnext
  exact ⟨o, c', rfl, hmn.trans hno, hend, by rw [run_bind_of hact', hnext'], hc⟩

/-- Both give the same result, and go on from there. -/
theorem «then» {act' : Build α} {next' : α → Build δ} (h : Tracks m Equal act act')
    (hn : ∀ n, m.Later n → ∀ a, Tracks n Q (next a) (next' a)) : Tracks m Q (act >>= next) (act' >>= next') :=
  h.bind fun n hmn a b hab => by
    obtain rfl : a = b := hab
    exact hn n hmn a

theorem imp {P' : φ.Moment → α → β → Prop} (h : Tracks m P act act') (hP : ∀ n, m.Later n → ∀ a b, P n a b → P' n a b) :
    Tracks m P' act act' := by
  intro halike a s hrun
  obtain ⟨n, b, hs, hmn, hnow, hrun', hab⟩ := h halike a s hrun
  exact ⟨n, b, hs, hmn, hnow, hrun', hP n hmn a b hab⟩

theorem map {f : α → γ} {g : β → δ} (h : Tracks m P act act') (hf : ∀ n, m.Later n → ∀ a b, P n a b → Q n (f a) (g b)) :
    Tracks m Q (f <$> act) (g <$> act') := by
  rw [← bind_pure_comp, ← bind_pure_comp]
  exact h.bind fun n hmn a b hab => .pure (hf n hmn a b hab)

/-- Where the right side never gives a result, the left side does not either. -/
theorem of_never {act'' : Build δ} (h : Tracks m P act act') (hnever : ∀ s b t, act'.run s ≠ (.ok b, t)) :
    Tracks m R act act'' := by
  intro halike a s hrun
  obtain ⟨n, b, -, -, -, hrun', -⟩ := h halike a s hrun
  exact (hnever _ _ _ hrun').elim

/-- A failure is answered by another one. -/
theorem answer {next : Except CompileError α → Build γ} {next' : Except CompileError β → Build δ}
    (h : Tracks m P act act') (hfail : ∀ e, ∃ e', next (.error e) = Build.fail e')
    (hn : ∀ n, m.Later n → ∀ a b, P n a b → Tracks n Q (next (.ok a)) (next' (.ok b))) :
    Tracks m Q (attempt act >>= next) (attempt act' >>= next') := by
  intro halike c s hrun
  obtain ⟨n, c', hs, hmn, hnow, hrun', hc⟩ := h.bind hn halike c s (of_run_attempt_bind hfail hrun)
  exact ⟨n, c', hs, hmn, hnow, run_attempt_bind_of hrun', hc⟩

theorem inContext {text : String} (h : Tracks m P act act') :
    Tracks m P (inContext text act) (inContext text act') :=
  h.answer (fun e => ⟨.inContext text e, rfl⟩) fun _ _ _ _ hab => .pure hab

theorem mapM {f : α → Build γ} {g : β → Build γ} {R : α → β → Prop} {xs : List α} {ys : List β}
    (h : List.Forall₂ R xs ys) (hf : ∀ n, m.Later n → ∀ x y, R x y → Tracks n Equal (f x) (g y)) :
    Tracks m Equal (xs.mapM f) (ys.mapM g) := by
  induction h generalizing m with
  | nil => exact .pure rfl
  | cons hxy _ ih =>
    rw [List.mapM_cons, List.mapM_cons]
    refine (hf m (.refl m) _ _ hxy).then fun n hmn a => ?_
    exact (ih fun o hno => hf o (hmn.trans hno)).then fun _ _ as => .pure rfl

theorem orFail (e e' : CompileError) (o : Option α) : Tracks m Equal (Build.orFail e o) (Build.orFail e' o) := by
  cases o with
  | none => exact .fail e
  | some a => exact .pure rfl

theorem orFailRel {R : α → β → Prop} {o : Option α} {o' : Option β} (e e' : CompileError) (h : Option.Rel R o o') :
    Tracks m (fun _ => R) (Build.orFail e o) (Build.orFail e' o') := by
  cases h with
  | none => exact .fail e
  | some hab => exact .pure hab

theorem orDangling (o : Option α) : Tracks m Equal (Build.orDangling o) (Build.orDangling o) := by
  cases o with
  | none => exact .throw _
  | some a => exact .pure rfl

/-! Looking at contexts that stand for each other, and at statements. -/

theorem contexts {next : Context → Build γ} {next' : Context → Build δ} (hd : m.left.contexts[i]? = some d)
    (he : m.right.contexts[j]? = some e) (hn : Tracks m Q (next d) (next' e)) :
    Tracks m Q (Build.context i >>= next) (Build.context j >>= next') := by
  intro halike
  rw [run_bind_of (run_context_of hd), run_bind_of (run_context_of he)]
  exact hn halike

theorem context {next : Context → Build γ} {next' : Context → Build δ} (hij : m.same i j)
    (hn : ∀ d e, m.left.contexts[i]? = some d → m.right.contexts[j]? = some e → m.Pair d e →
      Tracks m Q (next d) (next' e)) : Tracks m Q (Build.context i >>= next) (Build.context j >>= next') := by
  intro halike
  obtain ⟨d, e, hd, he, hde⟩ := halike.contexts hij
  exact contexts hd he (hn d e hd he hde) halike

theorem statement (number : StatementId) : Tracks m Equal (Build.statement number) (Build.statement number) := by
  intro halike st s hrun
  obtain ⟨hst, rfl⟩ := of_run_statement hrun
  refine ⟨m, st, rfl, .refl m, halike, ?_, rfl⟩
  rw [run_statement, halike.statements, hst]
  rfl

theorem ensureComposable (hij : m.same i j) (operation operation' : String) :
    Tracks m Equal (Build.ensureComposable i operation) (Build.ensureComposable j operation') := by
  refine .context hij fun d e _ _ hde => ?_
  rw [hde.isUpdate.1, hde.isUpdate.2]
  exact .pure rfl

/-- A path that is not replaced has the same root on both sides. -/
theorem rootOf (hpq : m.Holds mode (some a) (some b)) {path : Path}
    (hroot : mode ≠ .kept → path.root ≠ φ.parameter) :
    Tracks m (fun n i j => n.same i j) (rootOf a path) (Build.rootOf b path) := by
  intro halike i s hrun
  obtain ⟨hfound, rfl⟩ := of_run_rootOf hrun
  have hright : ∃ j, bindingFrom m.right.contexts path.root m.right.contexts.length (some b) = .ok (some j) ∧
      m.same i j := by
    by_cases hx : path.root = φ.parameter
    · cases mode with
      | absent | fused => exact (hroot nofun hx).elim
      | kept =>
        obtain ⟨-, r, hr, hsame⟩ := hpq
        rw [hx, hr.bindingFrom _ hr.lt_length] at hfound
        obtain ⟨j, hj, hij⟩ := hsame i (Except.ok.inj hfound)
        exact ⟨j, by rw [hx, hj.bindingFrom _ hj.lt_length], hij⟩
    · exact halike.lookup hx hpq.sees hfound
  obtain ⟨j, hj, hij⟩ := hright
  exact ⟨m, j, rfl, .refl m, halike, by rw [run_rootOf hj]; rfl, hij⟩

/-! Changes of both states. -/

theorem addContext (hde : m.Alike → (m.enter d e).Pair d e) :
    Tracks m (fun n i j => n.same i j ∧ n.left.contexts[i]? = some d ∧ n.right.contexts[j]? = some e)
      (Build.addContext d) (Build.addContext e) := by
  intro halike i s hrun
  rw [run_addContext] at hrun
  cases hrun
  refine ⟨m.enter d e, m.right.contexts.length, rfl, m.later_enter d e, halike.enter (hde halike), ?_, .inr ⟨rfl, rfl⟩,
    m.left.getElem?_enter_self d, m.right.getElem?_enter_self e⟩
  rw [run_addContext]
  rfl

/-- A lambda is compiled on both sides, each time below a scope of its own. -/
theorem under {f : Lambda} {next : ContextId → Build γ} {next' : ContextId → Build δ} (hij : m.same i j)
    (hpq : m.Holds mode p q) (hf : mode.TakesLambda φ f)
    (hn : ∀ n, m.Later n → ∀ a b, n.Holds (mode.under φ f.row?) (some a) (some b) → Tracks n Q (next a) (next' b)) :
    Tracks m Q (lambdaScope f i p >>= next) (lambdaScope (mode.lambda φ f) j q >>= next') := by
  cases hrow : f.row? with
  | none =>
    intro _ c s hrun
    obtain ⟨_, _, hscope, -⟩ := exists_of_run_bind hrun
    obtain ⟨_, _, hfound, -⟩ := exists_of_run_bind hscope
    rw [hrow] at hfound
    cases hfound
  | some row =>
    intro halike
    obtain ⟨d, e, hd, he, hde⟩ := halike.contexts hij
    have hrow' : (mode.lambda φ f).row? = some row := (Mode.row?_lambda mode f).trans hrow
    rw [run_bind_of (run_lambdaScope hrow hd p), run_bind_of (run_lambdaScope hrow' he q), hde.statement]
    have hlater := m.later_enter (.lambda p d.statement [(row, i)]) (.lambda q d.statement [(row, j)])
    have hpair : (m.enter (.lambda p d.statement [(row, i)]) (.lambda q d.statement [(row, j)])).Pair
        (.lambda p d.statement [(row, i)]) (.lambda q d.statement [(row, j)]) :=
      .lambda (hpq.sees.keep hlater.keeps) (.cons ⟨rfl, .inl hij⟩ .nil)
    have hapart : mode = .fused → row ≠ φ.parameter → row ≠ φ.row := by
      rintro rfl hx rfl
      refine hf.row_not_mem_names (fun hp => hx ?_) hrow Mode.row_mem_names
      exact Option.some.inj (hrow.symm.trans hp)
    have hholds := halike.holds_enter hij hpq hapart d.statement
    intro c s hrun
    rw [hrow] at hn
    obtain ⟨n, c', hs, hmn, hnow, hrun', hc⟩ := hn _ hlater _ _ hholds (halike.enter hpair) c s hrun
    exact ⟨n, c', hs, hlater.trans hmn, hnow, hrun', hc⟩

theorem addStatement (st : Statement) : Tracks m Equal (Build.addStatement st) (Build.addStatement st) := by
  intro halike number s hrun
  rw [run_addStatement] at hrun
  cases hrun
  refine ⟨m.restate fun s => { s with statements := s.statements ++ [st] }, m.right.statements.length, rfl,
    m.later_restate fun _ => rfl, ?_, ?_, ?_⟩
  · exact halike.restate (fun _ => rfl) (fun _ _ h => h) fun s t h => congrArg (· ++ [st]) h
  · rw [run_addStatement]
    rfl
  · exact congrArg List.length halike.statements.symm

theorem nextAlias : Tracks m Equal Build.nextAlias Build.nextAlias := by
  intro halike text s hrun
  rw [run_nextAlias] at hrun
  cases hrun
  refine ⟨m.restate BuildState.countAlias, aliasText (m.right.aliases + 1), rfl, m.later_restate fun _ => rfl, ?_, ?_,
    ?_⟩
  · exact halike.restate (fun _ => rfl) (fun _ _ h => congrArg (· + 1) h) fun _ _ h => h
  · rw [run_nextAlias]
    rfl
  · rw [Equal, halike.aliases]

theorem modifyStatement (number : StatementId) (f : Statement → Statement) :
    Tracks m Equal (Build.modifyStatement number f) (Build.modifyStatement number f) := by
  intro halike u s hrun
  rw [run_modifyStatement] at hrun
  cases hst : m.left.statements[number]? with
  | none =>
    rw [hst] at hrun
    cases hrun
  | some st =>
    rw [hst] at hrun
    cases hrun
    refine ⟨m.restate fun s => s.alter number f, (), rfl, m.later_restate fun _ => rfl, ?_, ?_, rfl⟩
    · exact halike.restate (fun _ => rfl) (fun _ _ h => h) fun s t h => congrArg (·.modify number f) h
    · rw [run_modifyStatement, halike.statements, hst]
      rfl

theorem follow (hij : m.same i j) (hab : m.same a b) (name : String) :
    Tracks m Equal (modifyContext i (Context.follow name a)) (modifyContext j (Context.follow name b)) := by
  intro halike u s hrun
  obtain ⟨d, e, hd, he, -⟩ := halike.contexts hij
  rw [run_modifyContext, hd] at hrun
  cases hrun
  refine ⟨m.adjust i j (Context.follow name a) (Context.follow name b), (), rfl, m.later_follow i j name a b,
    halike.follow hij hab name, ?_, rfl⟩
  rw [run_modifyContext, he]
  rfl

end Tracks

end Fusion
end ObjectQuery
