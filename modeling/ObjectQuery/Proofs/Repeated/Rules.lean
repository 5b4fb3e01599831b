import ObjectQuery.Proofs.Assigned.Appends
import ObjectQuery.Proofs.Parts
import ObjectQuery.Proofs.Repeated.Changes

/-!
An action made again. Where the first one gives a result, so does the second, and both leave their states in step.
-/
namespace ObjectQuery

open Build

namespace Replay

variable {R : Replay} {α β γ δ : Type} {c : Compiler} {m n : R.Moment} {ℓ : Prop} {i j : ContextId}
  {p q : Option ContextId} {d e : Context}

namespace Moment

/-- Where a parameter is found on the left, its image is found on the right, if only because it is looked for long
enough. -/
theorem Paired.exists_bindingFrom (h : m.Paired c) {x : String} (hpq : Option.Rel (m.At ℓ) p q) {k : Nat}
    (hfound : bindingFrom m.left.contexts x k p = .ok (some i)) :
    ∃ l j, bindingFrom m.right.contexts x l q = .ok (some j) ∧ m.At ℓ i j := by
  induction k generalizing p q with
  | zero => cases p <;> cases hfound
  | succ k ih =>
    cases hpq with
    | none => cases hfound
    | @some a b hab =>
      obtain ⟨d, hd⟩ : ∃ d, m.left.contexts[a]? = some d := ⟨_, List.getElem?_eq_getElem (h.lt_length hab).1⟩
      obtain ⟨e, he, hde, -⟩ := h.image_of_getElem? hab hd
      rw [bindingFrom, hd] at hfound
      dsimp only at hfound
      have hbinding := hde.binding? x
      generalize hx : d.binding? x = u at hbinding
      generalize hy : e.binding? x = v at hbinding
      rw [hx] at hfound
      cases hbinding with
      | @some u v huv =>
        cases hfound
        exact ⟨1, v, by rw [bindingFrom, he]; simp only [hy], huv⟩
      | none =>
        obtain ⟨l, j, hl, hij⟩ := ih hde.parent hfound
        exact ⟨l + 1, j, by rw [bindingFrom, he]; simp only [hy, hl], hij⟩

theorem Paired.exists_at_parent (h : m.Paired c) (hij : m.At False i j) (he : m.right.contexts[j]? = some e)
    {l : ContextId} (hl : e.parent = some l) : ∃ k, m.At False k l := by
  obtain ⟨d, e', -, he', hde, -⟩ := h.image hij
  obtain rfl := Option.some.inj (he.symm.trans he')
  have hparent := hde.parent
  rw [hl] at hparent
  generalize d.parent = u at hparent
  cases hparent with
  | some hkl => exact ⟨_, hkl.weaken False.elim⟩

theorem Paired.lookup (h : m.Paired c) {a b : ContextId} (hab : m.At ℓ a b) {x : String}
    (hfound : bindingFrom m.left.contexts x m.left.contexts.length (some a) = .ok (some i)) :
    ∃ j, bindingFrom m.right.contexts x m.right.contexts.length (some b) = .ok (some j) ∧ m.At ℓ i j := by
  obtain ⟨l, j, hl, hij⟩ := h.exists_bindingFrom (.some hab) hfound
  have hright := bindingFrom_eq_of_length_le x (S := fun j => ∃ i, m.At False i j)
    (fun _ ⟨_, hij⟩ => (h.lt_length hij).2) (fun _ _ _ ⟨_, hij⟩ he hl => h.exists_at_parent hij he hl)
    ⟨a, hab.weaken False.elim⟩ (Nat.le_add_left m.right.contexts.length l)
  refine ⟨j, ?_, hij⟩
  rw [← hright, bindingFrom_add, hl]
  rw [hl]
  nofun

end Moment

/-- Where the first action gives a result, so does the second, and the results belong together. -/
def Repeats (c : Compiler) (m : R.Moment) (P : R.Moment → α → β → Prop) (act : Build α) (act' : Build β) : Prop :=
  m.InStep c → ∀ a s, act.run m.left = (.ok a, s) →
    ∃ (n : R.Moment) (b : β), n.left = s ∧ m.Later n ∧ n.InStep c ∧ act'.run m.right = (.ok b, n.right) ∧ P n a b

/-- The results are the same. -/
def Equal (_ : R.Moment) (a b : α) : Prop :=
  a = b

/-- Nothing is known of the results. -/
def Whatever (_ : R.Moment) (_ : α) (_ : β) : Prop :=
  True

namespace Repeats

variable {P : R.Moment → α → β → Prop} {Q : R.Moment → γ → δ → Prop} {act : Build α} {act' : Build β}
  {next : α → Build γ} {next' : β → Build δ}

theorem pure {a : α} {b : β} (h : P m a b) : Repeats c m P (pure a) (pure b) := by
  rintro hstep _ _ ⟨⟩
  exact ⟨m, b, rfl, .refl m, hstep, rfl, h⟩

theorem throw (stop : Stop) : Repeats c m P (throw stop) act' :=
  fun _ _ _ => nofun

theorem fail (e : CompileError) : Repeats c m P (fail e) act' :=
  throw _

theorem bind (h : Repeats c m P act act')
    (hn : ∀ n, m.Later n → ∀ a b, P n a b → Repeats c n Q (next a) (next' b)) :
    Repeats c m Q (act >>= next) (act' >>= next') := by
  intro hstep x s hrun
  obtain ⟨a, t, hact, hnext⟩ := exists_of_run_bind hrun
  obtain ⟨n, b, rfl, hmn, hnow, hact', hab⟩ := h hstep a t hact
  obtain ⟨o, y, rfl, hno, hend, hnext', hxy⟩ := hn n hmn a b hab hnow x s hnext
  exact ⟨o, y, rfl, hmn.trans hno, hend, by rw [run_bind_of hact', hnext'], hxy⟩

theorem imp {P' : R.Moment → α → β → Prop} (h : Repeats c m P act act')
    (hP : ∀ n, m.Later n → ∀ a b, P n a b → P' n a b) : Repeats c m P' act act' := by
  intro hstep a s hrun
  obtain ⟨n, b, hs, hmn, hnow, hrun', hab⟩ := h hstep a s hrun
  exact ⟨n, b, hs, hmn, hnow, hrun', hP n hmn a b hab⟩

/-- Both give the same result, and go on from there. -/
theorem «then» {act' : Build α} {next' : α → Build δ} (h : Repeats c m Equal act act')
    (hn : ∀ n, m.Later n → ∀ a, Repeats c n Q (next a) (next' a)) : Repeats c m Q (act >>= next) (act' >>= next') :=
  h.bind fun n hmn a b hab => by
    obtain rfl : a = b := hab
    exact hn n hmn a

theorem map {f : α → γ} {g : β → δ} (h : Repeats c m P act act')
    (hf : ∀ n, m.Later n → ∀ a b, P n a b → Q n (f a) (g b)) : Repeats c m Q (f <$> act) (g <$> act') := by
  rw [← bind_pure_comp, ← bind_pure_comp]
  exact h.bind fun n hmn a b hab => .pure (hf n hmn a b hab)

/-- A failure is answered by another one. -/
theorem answer {next : Except CompileError α → Build γ} {next' : Except CompileError β → Build δ}
    (h : Repeats c m P act act') (hfail : ∀ e, ∃ e', next (.error e) = Build.fail e')
    (hn : ∀ n, m.Later n → ∀ a b, P n a b → Repeats c n Q (next (.ok a)) (next' (.ok b))) :
    Repeats c m Q (attempt act >>= next) (attempt act' >>= next') := by
  intro hstep x s hrun
  obtain ⟨n, y, hs, hmn, hnow, hrun', hxy⟩ := h.bind hn hstep x s (of_run_attempt_bind hfail hrun)
  exact ⟨n, y, hs, hmn, hnow, run_attempt_bind_of hrun', hxy⟩

theorem inContext {text : String} (h : Repeats c m P act act') :
    Repeats c m P (inContext text act) (inContext text act') :=
  h.answer (fun e => ⟨.inContext text e, rfl⟩) fun _ _ _ _ hab => .pure hab

theorem mapM {f : α → Build γ} {g : α → Build δ} (xs : List α) (hQ : ∀ n o, n.Later o → ∀ a b, Q n a b → Q o a b)
    (hf : ∀ n, m.Later n → ∀ x ∈ xs, Repeats c n Q (f x) (g x)) :
    Repeats c m (fun n => List.Forall₂ (Q n)) (xs.mapM f) (xs.mapM g) := by
  induction xs generalizing m with
  | nil => exact .pure .nil
  | cons x xs ih =>
    rw [List.mapM_cons, List.mapM_cons]
    refine (hf m (.refl m) x List.mem_cons_self).bind fun n hmn a b hab => ?_
    refine (ih fun o hno y hy => hf o (hmn.trans hno) y (List.mem_cons_of_mem x hy)).bind fun o hno as bs h => ?_
    exact .pure (.cons (hQ n o hno a b hab) h)

theorem orFail (e e' : CompileError) (o : Option α) : Repeats c m Equal (Build.orFail e o) (Build.orFail e' o) := by
  cases o with
  | none => exact .fail e
  | some a => exact .pure rfl

theorem orFailRel {S : α → β → Prop} {o : Option α} {o' : Option β} (e e' : CompileError) (h : Option.Rel S o o') :
    Repeats c m (fun _ a b => S a b ∧ o = some a ∧ o' = some b) (Build.orFail e o) (Build.orFail e' o') := by
  cases h with
  | none => exact .fail e
  | some hab => exact .pure ⟨hab, rfl, rfl⟩

theorem orDangling (o : Option α) : Repeats c m Equal (Build.orDangling o) (Build.orDangling o) := by
  cases o with
  | none => exact .throw _
  | some a => exact .pure rfl

/-! Looking at contexts and their images, and at new statements. -/

theorem context {next : Context → Build γ} {next' : Context → Build δ} (hij : m.At ℓ i j)
    (hn : ∀ d e, m.left.contexts[i]? = some d → m.right.contexts[j]? = some e → m.Image ℓ d e →
      e.statement = R.slot d.statement → Repeats c m Q (next d) (next' e)) :
    Repeats c m Q (Build.context i >>= next) (Build.context j >>= next') := by
  intro hstep
  obtain ⟨d, e, hd, he, hde, hs⟩ := hstep.paired.image hij
  rw [run_bind_of (run_context_of hd), run_bind_of (run_context_of he)]
  exact hn d e hd he (hde.weaken hij.2) hs hstep

theorem contextOwn {next : Context → Build γ} {next' : Context → Build δ} (hij : m.Own i j)
    (hn : ∀ d e, m.left.contexts[i]? = some d → R.first.statements.length ≤ d.statement →
      e.statement = R.slot d.statement → Repeats c m Q (next d) (next' e)) :
    Repeats c m Q (Build.context i >>= next) (Build.context j >>= next') := by
  obtain ⟨hij, d, hd, hnew, -⟩ := hij
  refine context hij fun d' e hd' _ _ hs => hn d' e hd' ?_ hs
  rwa [Option.some.inj (hd'.symm.trans hd)]

theorem statement {k : StatementId} (hk : R.first.statements.length ≤ k) :
    Repeats c m (fun _ st st' => st'.update.target = st.update.target) (Build.statement k)
      (Build.statement (R.slot k)) := by
  intro hstep st s hrun
  obtain ⟨hst, rfl⟩ := of_run_statement hrun
  obtain ⟨st', hst', htarget⟩ := hstep.counted.targets hk hst
  refine ⟨m, st', rfl, .refl m, hstep, ?_, htarget⟩
  rw [run_statement, slot_of_le hk, hst']
  rfl

theorem ensureComposable (hij : m.At ℓ i j) (operation operation' : String) :
    Repeats c m Equal (Build.ensureComposable i operation) (Build.ensureComposable j operation') := by
  refine .context hij fun d e _ _ hde _ => ?_
  rw [hde.isUpdate]
  split
  · exact .fail _
  · exact .pure rfl

theorem rootOf {a b : ContextId} (hab : m.At ℓ a b) (path : Path) :
    Repeats c m (fun n => n.At ℓ) (Build.rootOf a path) (Build.rootOf b path) := by
  intro hstep i s hrun
  obtain ⟨hfound, rfl⟩ := of_run_rootOf hrun
  obtain ⟨j, hj, hij⟩ := hstep.paired.lookup hab hfound
  exact ⟨m, j, rfl, .refl m, hstep, by rw [run_rootOf hj]; rfl, hij⟩

/-! Changes of both states. -/

theorem addContext (hde : m.Image ℓ d e) (hs : e.statement = R.slot d.statement)
    (hold : ℓ → d.statement < R.first.statements.length ∧ d.rows? = none)
    (hrows : ∀ r, e.rows? = some r → r.followed = []) :
    Repeats c m (fun n i j => n.At ℓ i j ∧ n.left.contexts[i]? = some d) (Build.addContext d) (Build.addContext e) := by
  intro hstep i s hrun
  rw [run_addContext] at hrun
  cases hrun
  have hright := hstep.paired.enterRight hrows
  have hentered := m.right.getElem?_enter_self e
  have hpaired := hright.enterLeft hentered (hde.imp fun _ _ => id) hs (fun h => (hold h).1) fun _ hmem => by
    obtain ⟨k, hk⟩ := List.mem_iff_getElem?.mp hmem
    exact Nat.lt_irrefl _ (hstep.paired.image_lt hk)
  refine ⟨(m.enterRight e).enterLeft d m.right.contexts.length ℓ, m.right.contexts.length, rfl,
    (m.later_enterRight e).trans (Moment.later_enterLeft _ d _ ℓ), ⟨hpaired, hstep.counted.congr rfl rfl rfl rfl, ?_⟩,
    ?_, ⟨?_, fun h => .inr ⟨h, rfl⟩⟩, m.left.getElem?_enter_self d⟩
  · exact Moment.Noted.enterLeft (hstep.noted.congr (n := m.enterRight e) rfl rfl) hright fun h => (hold h).2
  · rw [run_addContext]
    rfl
  · change (m.images ++ [_])[m.left.contexts.length]? = _
    rw [← hstep.paired.length]
    exact List.getElem?_concat_length

/-- A scope over rows outside, under a scope outside, is outside too. -/
theorem lambdaScope (f : Lambda) (hij : m.At ℓ i j) (hpq : Option.Rel (m.At ℓ) p q) :
    Repeats c m (fun n => n.At ℓ) (Build.lambdaScope f i p) (Build.lambdaScope f j q) := by
  refine (orFail _ _ f.row?).then fun n hn row => ?_
  intro hstep
  refine context (hij.mono hn) (fun d e hd _ _ hs => ?_) hstep
  have hscope : n.Image ℓ (.lambda p d.statement [(row, i)]) (.lambda q e.statement [(row, j)]) :=
    .lambda (rel_imp (fun _ _ h => h.mono hn) hpq) (.cons ⟨rfl, hij.mono hn⟩ .nil)
  exact (addContext hscope hs (fun h => ⟨(hstep.paired.statement_lt ((hij.mono hn).2 h) hd :), rfl⟩) nofun).imp
    fun _ _ _ _ h => h.1

theorem addStatement {st st' : Statement} (hst : st'.update.target = st.update.target) :
    Repeats c m (fun _ k l => R.first.statements.length ≤ k ∧ l = R.slot k) (Build.addStatement st)
      (Build.addStatement st') := by
  intro hstep k s hrun
  rw [run_addStatement] at hrun
  cases hrun
  have hbegun := hstep.counted.begun
  refine ⟨m.restate { m.left with statements := m.left.statements ++ [st] }
    { m.right with statements := m.right.statements ++ [st'] }, m.right.statements.length, rfl, ?_,
    hstep.restate rfl rfl (hstep.counted.begin hst), ?_, hbegun, ?_⟩
  · exact Moment.later_restate rfl rfl (by simp) (Nat.le_refl _)
  · rw [run_addStatement]
    rfl
  · rw [slot_of_le hbegun, hstep.counted.length]

/-- The aliases have nothing to do with each other. -/
theorem nextAlias : Repeats c m Whatever Build.nextAlias Build.nextAlias := by
  intro hstep text s hrun
  rw [run_nextAlias] at hrun
  cases hrun
  refine ⟨m.restate m.left.countAlias m.right.countAlias, aliasText (m.right.aliases + 1), rfl,
    Moment.later_restate rfl rfl (Nat.le_refl _) (Nat.le_refl _),
    hstep.restate rfl rfl (hstep.counted.congr rfl rfl rfl rfl), ?_, trivial⟩
  rw [run_nextAlias]
  rfl

theorem nextParameter : Repeats c m (fun n a b => ∃ k, a = parameterText k ∧ b = parameterText (k + R.offset) ∧
    R.first.parameters < n.left.parameters) Build.nextParameter Build.nextParameter := by
  intro hstep text s hrun
  cases hrun
  refine ⟨m.restate { m.left with parameters := m.left.parameters + 1 }
    { m.right with parameters := m.right.parameters + 1 }, parameterText m.right.parameters, rfl,
    Moment.later_restate rfl rfl (Nat.le_refl _) (Nat.le_succ _),
    hstep.restate rfl rfl hstep.counted.parameter, rfl, m.left.parameters, rfl, ?_,
    Nat.lt_succ_of_le hstep.counted.known⟩
  rw [← hstep.counted.parameters]

theorem modifyStatement (k : StatementId) {f g : Statement → Statement}
    (hfg : ∀ st st', st'.update.target = st.update.target → (g st').update.target = (f st).update.target) :
    Repeats c m (fun n _ _ => k < n.left.statements.length) (Build.modifyStatement k f)
      (Build.modifyStatement (R.slot k) g) := by
  intro hstep u s hrun
  rw [run_modifyStatement] at hrun
  cases hst : m.left.statements[k]? with
  | none =>
    rw [hst] at hrun
    cases hrun
  | some st =>
    rw [hst] at hrun
    cases hrun
    have hlt := (List.getElem?_eq_some_iff.mp hst).1
    have hlength := m.left.length_alter k f
    refine ⟨m.restate (m.left.alter k f) (m.right.alter (R.slot k) g), (), rfl,
      Moment.later_restate rfl rfl (Nat.le_of_eq hlength.symm) (Nat.le_refl _),
      hstep.restate rfl rfl (hstep.counted.alter k hfg), ?_, Nat.lt_of_lt_of_eq hlt hlength.symm⟩
    rw [run_modifyStatement, List.getElem?_eq_getElem (hstep.counted.slot_lt hlt)]
    rfl

/-- An association that has been followed on the right is not followed again there. -/
theorem followAssociation {r : Rows} {entity : Entity} {name : String} {a : Association} (hij : m.At ℓ i j)
    (hd : m.left.contexts[i]? = some d) (hr : d.rows? = some r)
    (he : c.schema.mapping.entity? r.entity = some entity) (ha : entity.member? name = some (.association a)) :
    Repeats c m (fun n => n.At ℓ) (c.followAssociation i name a) (c.followAssociation j name a) := by
  intro hstep k s hrun
  obtain ⟨d', e, hd', he', hde, hs⟩ := hstep.paired.image hij
  obtain rfl := Option.some.inj (hd.symm.trans hd')
  obtain ⟨r', hr', hrows⟩ : ∃ r', e.rows? = some r' ∧ m.RowsImage (m.outer i) r r' := by
    have hrows := hde.rows?
    rw [hr] at hrows
    generalize e.rows? = y at hrows
    cases hrows with
    | some hrows => exact ⟨_, rfl, hrows⟩
  obtain ⟨⟨d', q, hd', hq, hk⟩, rfl⟩ | ⟨target, hnew, hst, rfl, rfl⟩ :=
    Compiler.of_run_followAssociation hd hr he ha hrun
  · obtain rfl := Option.some.inj (hd.symm.trans hd')
    obtain rfl := Option.some.inj (hr.symm.trans hq)
    obtain ⟨l, hl, hkl⟩ := hrows.followed name k hk
    exact ⟨m, l, rfl, .refl m, hstep, Compiler.run_followAssociation ⟨e, r', he', hr', hl⟩ a, hkl.weaken hij.2⟩
  have hentity := hrows.entity.symm ▸ he
  cases hl : r'.followed.lookup name with
  | some l =>
    have hfollows : m.right.Follows j name l := ⟨e, r', he', hr', hl⟩
    obtain ⟨q, hq, hname, htable⟩ := hstep.exists_landed hfollows he' hr' hentity ha hnew.leads
    have hmid : m.Later (m.restate (m.left.joinSource d.statement r a target.table) m.right) :=
      Moment.later_restate rfl rfl (Nat.le_of_eq (BuildState.length_alter ..).symm) (Nat.le_refl _)
    have hjoined := hstep.joinSourceLeft d.statement r a target.table
    obtain ⟨n, hleft, hright, hlater, hnow, hkl⟩ := hjoined.noteLeft hij hd hr hnew.unfollowed hfollows hq hs
      (y := m.left.nextRows target) hname htable rfl
    refine ⟨n, l, hleft, hmid.trans hlater, hnow, ?_, hkl.weaken hij.2⟩
    rw [hright]
    exact Compiler.run_followAssociation hfollows a
  | none =>
    have hnew' : c.Unfollowed m.right j name e r' a target :=
      ⟨he', hr', hl, ⟨entity, hentity, ha⟩, hnew.leads⟩
    have hrun' := hnew'.run_followAssociation (hs ▸ hstep.counted.slot_lt hst)
    have hmid : m.Later (m.restate (m.left.joinSource d.statement r a target.table)
        (m.right.joinSource e.statement r' a target.table)) :=
      Moment.later_restate rfl rfl (Nat.le_of_eq (BuildState.length_alter ..).symm) (Nat.le_refl _)
    have hnoted := (hstep.joinSource hs r r' a target.table).noteRight (fun _ h => by cases h; rfl) hnew'.lands
    have hfollows := Compiler.follows_followAssociation he' hr' hrun'
    obtain ⟨n, hleft, hright, hlater, hnow, hkl⟩ := hnoted.noteLeft hij hd hr hnew.unfollowed hfollows
      hnew'.getElem?_note hs (y := m.left.nextRows target) rfl rfl rfl
    refine ⟨n, m.right.contexts.length, hleft, hmid.trans ?_, hnow, ?_, hkl.weaken hij.2⟩
    · exact (Moment.later_enterRight _ _).trans ((Moment.later_adjustRight _ j (Context.core_follow _ _)).trans hlater)
    · rw [hright]
      exact hrun'

/-- An action during which what a query is compiled to is under other scopes. -/
theorem withParent {a b : ContextId} (hij : m.Own i j) (hab : m.At False a b)
    (hP : ∀ n o, n.Later o → ∀ a b, P n a b → P o a b) (h : ∀ n, m.Later n → Repeats c n P act act') :
    Repeats c m P (Build.withParent i (some a) act) (Build.withParent j (some b) act') := by
  intro hstep v s hrun
  obtain ⟨d, t, hd, hact, rfl⟩ := exists_of_run_withParent hrun trivial
  obtain ⟨e, he, hde, -⟩ := hstep.paired.image_of_getElem? hij.1 hd
  have hmoved := m.later_withParent i j (some a) (some b)
  obtain ⟨n, v', rfl, hlater, hnow, hact', hv⟩ :=
    h _ hmoved (hstep.withParent hij (.some hab)) v t hact
  obtain ⟨y, hy, -⟩ := (hmoved.trans hlater).right j e he
  have hrestored := hnow.withParent (hij.mono (hmoved.trans hlater))
    (rel_imp (fun _ _ h => h.mono (hmoved.trans hlater)) hde.parent)
  have hback := n.later_withParent i j d.parent e.parent
  exact ⟨_, v', rfl, (hmoved.trans hlater).trans hback, hrestored, run_withParent_of he hact' ⟨y, hy⟩,
    hP n _ hback v v' hv⟩

end Repeats
end Replay
end ObjectQuery
