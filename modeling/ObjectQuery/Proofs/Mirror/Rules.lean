import ObjectQuery.Proofs.Mirror.Moment

/-!
Two actions in step, each in its own compilation. They end in the same way, with results and errors that have to do with
each other, or stop for a reason that is no fault of the query.
-/
namespace ObjectQuery

open Build

namespace Mirror

variable {c c' : Compiler} {M : Mirror c c'} {α β γ δ : Type} {m n : M.Moment}

/-- How two actions end that were begun in step. -/
inductive Ends (m : M.Moment) (P : M.Moment → α → β → Prop) :
    Except Stop α × BuildState → Except Stop β × BuildState → Prop
  | gives {n : M.Moment} {a b} (later : m.Later n) (alike : M.Alike n) (h : P n a b) :
    Ends m P (.ok a, n.left) (.ok b, n.right)
  | fails {n : M.Moment} {e e'} (later : m.Later n) (alike : M.Alike n) (h : M.error e e') :
    Ends m P (.error (.failed e), n.left) (.error (.failed e'), n.right)
  | halts {stop s t} (h : ∀ e, stop ≠ .failed e) : Ends m P (.error stop, s) (.error stop, t)

/-- In step at the start, and so at the end. -/
def Steps (m : M.Moment) (P : M.Moment → α → β → Prop) (act : Build α) (act' : Build β) : Prop :=
  M.Alike m → Ends m P (act.run m.left) (act'.run m.right)

/-- The results are the same. -/
def Equal (_ : M.Moment) (a b : α) : Prop :=
  a = b

variable {P : M.Moment → α → β → Prop} {Q : M.Moment → γ → δ → Prop} {act : Build α} {act' : Build β}

theorem Ends.trans {x : Except Stop γ × BuildState} {y : Except Stop δ × BuildState} (h : m.Later n)
    (hn : Ends n Q x y) : Ends m Q x y := by
  cases hn with
  | gives later alike hab => exact .gives (h.trans later) alike hab
  | fails later alike he => exact .fails (h.trans later) alike he
  | halts hstop => exact .halts hstop

theorem Steps.pure {a : α} {b : β} (h : P m a b) : Steps m P (pure a) (pure b) :=
  fun halike => .gives (.refl m) halike h

theorem Steps.fail {e e' : CompileError} (h : M.error e e') : Steps m P (Build.fail e) (Build.fail e') :=
  fun halike => .fails (.refl m) halike h

theorem Steps.same (e : CompileError) : Steps m P (Build.fail e) (Build.fail e) :=
  .fail (M.same e)

theorem Steps.throw {stop : Stop} (h : ∀ e, stop ≠ .failed e) : Steps m P (throw stop) (throw stop) :=
  fun _ => .halts h

theorem Steps.bind {next : α → Build γ} {next' : β → Build δ} (h : Steps m P act act')
    (hn : ∀ n, m.Later n → ∀ a b, P n a b → Steps n Q (next a) (next' b)) :
    Steps m Q (act >>= next) (act' >>= next') := by
  intro halike
  have h := h halike
  rw [run_bind, run_bind]
  generalize act.run m.left = x at h
  generalize act'.run m.right = y at h
  cases h with
  | gives later alike hab => exact (hn _ later _ _ hab alike).trans later
  | fails later alike he => exact .fails later alike he
  | halts hstop => exact .halts hstop

/-- Both give the same result, and go on from there. -/
theorem Steps.then {act' : Build α} {next : α → Build γ} {next' : α → Build δ} (h : Steps m Equal act act')
    (hn : ∀ n, m.Later n → ∀ a, Steps n Q (next a) (next' a)) : Steps m Q (act >>= next) (act' >>= next') :=
  h.bind fun n hle a b hab => by
    obtain rfl : a = b := hab
    exact hn n hle a

theorem Steps.map {f : α → γ} {g : β → δ} (h : Steps m P act act') (hf : ∀ n a b, P n a b → Q n (f a) (g b)) :
    Steps m Q (f <$> act) (g <$> act') := by
  rw [← bind_pure_comp, ← bind_pure_comp]
  exact h.bind fun n _ a b hab => .pure (hf n a b hab)

theorem Steps.imp {P' : M.Moment → α → β → Prop} (h : Steps m P act act')
    (hP : ∀ n, m.Later n → ∀ a b, P n a b → P' n a b) :
    Steps m P' act act' := by
  intro halike
  have h := h halike
  generalize act.run m.left = x at h
  generalize act'.run m.right = y at h
  cases h with
  | gives later alike hab => exact .gives later alike (hP _ later _ _ hab)
  | fails later alike he => exact .fails later alike he
  | halts hstop => exact .halts hstop

/-- A fault may be answered or passed on. -/
theorem Steps.recover {next : Except CompileError α → Build γ} {next' : Except CompileError β → Build δ}
    (h : Steps m P act act') (hok : ∀ n, m.Later n → ∀ a b, P n a b → Steps n Q (next (.ok a)) (next' (.ok b)))
    (herror : ∀ n, m.Later n → ∀ e e', M.error e e' → Steps n Q (next (.error e)) (next' (.error e'))) :
    Steps m Q (attempt act >>= next) (attempt act' >>= next') := by
  intro halike
  have h := h halike
  rw [run_bind, run_bind, run_attempt, run_attempt]
  generalize act.run m.left = x at h
  generalize act'.run m.right = y at h
  cases h with
  | gives later alike hab => exact (hok _ later _ _ hab alike).trans later
  | fails later alike he => exact (herror _ later _ _ he alike).trans later
  | @halts stop _ _ hstop =>
    cases stop with
    | failed e => exact absurd rfl (hstop e)
    | outOfFuel | dangling => exact .halts hstop

theorem Steps.inContext {text : String} (h : Steps m P act act') :
    Steps m P (Build.inContext text act) (Build.inContext text act') :=
  h.recover (fun _ _ _ _ hab => .pure hab) fun _ _ _ _ he => .fail (M.within text he)

theorem Steps.mapM {f : α → Build γ} {g : β → Build δ} {R : α → β → Prop} {xs : List α} {ys : List β}
    (h : List.Forall₂ R xs ys) (hf : ∀ n, m.Later n → ∀ x y, R x y → Steps n Q (f x) (g y))
    (hQ : ∀ n k : M.Moment, n.Later k → ∀ a b, Q n a b → Q k a b) :
    Steps m (fun n => List.Forall₂ (Q n)) (xs.mapM f) (ys.mapM g) := by
  induction h generalizing m with
  | nil => exact .pure .nil
  | cons hxy _ ih =>
    rw [List.mapM_cons, List.mapM_cons]
    refine (hf m (.refl m) _ _ hxy).bind fun n hn a b hab => ?_
    refine (ih fun k hk => hf k (hn.trans hk)).bind fun k hk as bs hs => ?_
    exact .pure (.cons (hQ n k hk a b hab) hs)

theorem Steps.forM {f : α → Build PUnit} {g : β → Build PUnit} {R : α → β → Prop} {xs : List α} {ys : List β}
    (h : List.Forall₂ R xs ys) (hf : ∀ n, m.Later n → ∀ x y, R x y → Steps n Equal (f x) (g y)) :
    Steps m Equal (xs.forM f) (ys.forM g) := by
  induction h generalizing m with
  | nil => exact .pure rfl
  | cons hxy _ ih => exact (hf m (.refl m) _ _ hxy).then fun n hn _ => ih fun k hk => hf k (hn.trans hk)

theorem Steps.orDangling (o : Option α) : Steps m Equal (Build.orDangling o) (Build.orDangling o) := by
  cases o with
  | none => exact .throw nofun
  | some a => exact .pure rfl

theorem Steps.orFail {o : Option α} {o' : Option β} {R : α → β → Prop} {e e' : CompileError} (h : Option.Rel R o o')
    (he : M.error e e') : Steps m (fun _ => R) (Build.orFail e o) (Build.orFail e' o') := by
  cases h with
  | none => exact .fail he
  | some hab => exact .pure hab

theorem Steps.orFailSame (e : CompileError) (o : Option α) : Steps m Equal (Build.orFail e o) (Build.orFail e o) := by
  cases o with
  | none => exact .same e
  | some a => exact .pure rfl

theorem Steps.context {id : ContextId} {next : Context → Build γ} {next' : Context → Build δ}
    (hn : ∀ d e, m.left.contexts[id]? = some d → m.right.contexts[id]? = some e →
      M.lexicon.Pair m.left.contexts m.right.contexts id d e → Steps m Q (next d) (next' e)) :
    Steps m Q (Build.context id >>= next) (Build.context id >>= next') := by
  intro halike
  rw [run_bind, run_bind, run_context, run_context]
  rcases halike.contexts.cases id with ⟨hd, he⟩ | ⟨d, e, hd, he, hde⟩
  · rw [hd, he]
    exact .halts nofun
  · rw [hd, he]
    exact hn d e hd he hde halike

theorem Steps.statement {number : StatementId} {next : Statement → Build γ} {next' : Statement → Build δ}
    (hn : ∀ st st', M.Matches m.ghost st st' → Steps m Q (next st) (next' st')) :
    Steps m Q (Build.statement number >>= next) (Build.statement number >>= next') := by
  intro halike
  rw [run_bind, run_bind, run_statement, run_statement]
  by_cases hlt : number < m.left.statements.length
  · have hlt' : number < m.right.statements.length := halike.statements.length_eq ▸ hlt
    rw [List.getElem?_eq_getElem hlt, List.getElem?_eq_getElem hlt']
    exact hn _ _ (halike.statements.get hlt hlt') halike
  · have hle := Nat.le_of_not_lt hlt
    rw [List.getElem?_eq_none hle, List.getElem?_eq_none (halike.statements.length_eq ▸ hle)]
    exact .halts nofun

theorem Steps.ensureComposable (id : ContextId) (operation : String) :
    Steps m Equal (Build.ensureComposable id operation) (Build.ensureComposable id operation) := by
  refine .context fun d e _ _ hde => ?_
  rw [hde.isUpdate]
  split
  · exact .same _
  · exact .pure rfl

/-! Names in the texts of errors. -/

theorem eq_or_error {p : Option ContextId} {ρ : Names} {e e' : Expr} (hρ : m.Knows p ρ)
    (h : e.Alike M.lexicon.likeness ρ e') :
    e = e' ∨ ∀ x y : CompileError, y.isResolution = x.isResolution → M.error x y := by
  rcases M.texts with ⟨hbinder, hagree⟩ | hall
  · exact .inl (h.eq hbinder fun x y hxy => hagree (hρ x y hxy))
  · exact .inr hall

theorem path_eq_or_error {p : Option ContextId} {ρ : Names} {path path' : Path} (hρ : m.Knows p ρ)
    (h : path.Alike ρ path') : path = path' ∨ ∀ x y : CompileError, y.isResolution = x.isResolution → M.error x y := by
  rcases M.texts with ⟨-, hagree⟩ | hall
  · obtain ⟨x, steps⟩ := path
    obtain ⟨y, steps'⟩ := path'
    exact .inl (by rw [show steps' = steps from h.steps, show x = y from hagree (hρ _ _ h.root)])
  · exact .inr hall

theorem error_unresolved {p : Option ContextId} {ρ : Names} {path path' : Path} (hρ : m.Knows p ρ)
    (h : path.Alike ρ path') (fault : Path → ResolutionFault) :
    M.error (.memberResolution path.text (fault path)) (.memberResolution path'.text (fault path')) := by
  rcases path_eq_or_error hρ h with rfl | hall
  · exact M.same _
  · exact hall _ _ rfl

theorem bindingFrom_ne_failed {contexts : List Context} {parameter : String} {e : CompileError} {n : Nat}
    {start : Option ContextId} : bindingFrom contexts parameter n start ≠ .error (.failed e) := by
  induction n generalizing start with
  | zero => cases start <;> nofun
  | succ n ih =>
    cases start with
    | none => nofun
    | some id =>
      rw [bindingFrom]
      split
      · nofun
      · split
        · nofun
        · exact ih

/-- Roots that stand for each other range over the same sequence. -/
theorem Steps.rootOf {scope : ContextId} {ρ : Names} {path path' : Path} (hρ : m.Knows (some scope) ρ)
    (h : path.Alike ρ path') : Steps m Equal (rootOf scope path) (rootOf scope path') := by
  have hfind : Steps m Equal (findBinding? scope path.root) (findBinding? scope path'.root) := by
    intro halike
    have hrun : ∀ (name : String) (s : BuildState), (findBinding? scope name).run s =
        (bindingFrom s.contexts name s.contexts.length (some scope), s) := by
      intro name s
      change (orStop (bindingFrom s.contexts name s.contexts.length (some scope))).run s = _
      cases bindingFrom s.contexts name s.contexts.length (some scope) <;> rfl
    rw [hrun, hrun, ← M.lawful.lookup halike.contexts (hρ _ _ h.root)]
    cases hr : bindingFrom m.left.contexts path.root m.left.contexts.length (some scope) with
    | ok => exact .gives (.refl m) halike rfl
    | error stop =>
      refine .halts ?_
      rintro e rfl
      exact bindingFrom_ne_failed hr
  refine hfind.then fun n hn sequence => ?_
  have herror := error_unresolved (hρ.mono hn) h fun path => .notInScope path.root
  cases sequence with
  | none => exact .fail herror
  | some => exact .pure rfl

/-! Changes of the states. -/

theorem Steps.addContext {d e : Context}
    (h : M.lexicon.Pairs m.left.contexts m.right.contexts →
      M.lexicon.Pair (m.left.contexts ++ [d]) (m.right.contexts ++ [e]) m.left.contexts.length d e) :
    Steps m (fun n a b => a = b ∧ n.left.contexts[a]? = some d ∧ n.right.contexts[a]? = some e)
      (Build.addContext d) (Build.addContext e) := by
  intro halike
  have hlength := halike.contexts.length
  rw [run_addContext, run_addContext]
  refine .gives (n := ⟨m.ghost, m.left.enter d, m.right.enter e⟩) ?_ ?_ ⟨hlength.symm, ?_, ?_⟩
  · exact ⟨M.reading.refl _, sustains_concat _ d, sustains_concat _ e⟩
  · exact ⟨halike.aliases, halike.counts, halike.statements, halike.contexts.enter M.lawful (h halike.contexts)⟩
  · exact BuildState.getElem?_enter_self m.left d
  · rw [← hlength]
    exact BuildState.getElem?_enter_self m.right e

theorem Steps.addStatement {st st' : Statement} (h : M.Matches m.ghost st st') :
    Steps m Equal (Build.addStatement st) (Build.addStatement st') := by
  intro halike
  rw [run_addStatement, run_addStatement]
  refine .gives (n := ⟨m.ghost, { m.left with statements := m.left.statements ++ [st] },
    { m.right with statements := m.right.statements ++ [st'] }⟩) ?_ ?_ halike.statements.length_eq
  · exact ⟨M.reading.refl _, .refl _, .refl _⟩
  · exact ⟨halike.aliases, halike.counts, List.rel_append halike.statements (.cons h .nil), halike.contexts⟩

theorem Steps.nextAlias : Steps m Equal Build.nextAlias Build.nextAlias := by
  intro halike
  rw [run_nextAlias, run_nextAlias, halike.aliases]
  refine .gives (n := ⟨m.ghost, m.left.countAlias, m.right.countAlias⟩) ?_ ?_ rfl
  · exact ⟨M.reading.refl _, .refl _, .refl _⟩
  · exact ⟨congrArg (· + 1) halike.aliases, halike.counts, halike.statements, halike.contexts⟩

theorem forall₂_modify {R : α → β → Prop} {xs : List α} {ys : List β} (h : List.Forall₂ R xs ys) (k : Nat)
    {f : α → α} {g : β → β} (hf : ∀ x y, R x y → R (f x) (g y)) : List.Forall₂ R (xs.modify k f) (ys.modify k g) := by
  induction h generalizing k with
  | nil => cases k <;> exact .nil
  | cons hxy hs ih =>
    cases k with
    | zero => exact .cons (hf _ _ hxy) hs
    | succ k => exact .cons hxy (ih k)

theorem Steps.modifyStatement {number : StatementId} {f g : Statement → Statement}
    (h : ∀ st st', M.Matches m.ghost st st' → M.Matches m.ghost (f st) (g st')) :
    Steps m Equal (Build.modifyStatement number f) (Build.modifyStatement number g) := by
  intro halike
  have hlength := halike.statements.length_eq
  rw [run_modifyStatement, run_modifyStatement]
  by_cases hlt : number < m.left.statements.length
  · rw [List.getElem?_eq_getElem hlt, List.getElem?_eq_getElem (hlength ▸ hlt)]
    refine .gives (n := ⟨m.ghost, m.left.alter number f, m.right.alter number g⟩) ?_ ?_ rfl
    · exact ⟨M.reading.refl _, .refl _, .refl _⟩
    · exact ⟨halike.aliases, halike.counts, forall₂_modify halike.statements number h, halike.contexts⟩
  · have hle := Nat.le_of_not_lt hlt
    rw [List.getElem?_eq_none hle, List.getElem?_eq_none (hlength ▸ hle)]
    exact .halts nofun

/-- A lambda scope that was entered on both sides. -/
structure Entered (m n : M.Moment) (f g : Lambda) (q : ContextId) (p : Option ContextId) (id : ContextId) : Prop where
  intro ::
  exists_scope : ∃ x y number, f.row? = some x ∧ g.row? = some y ∧ M.lexicon.likeness.binder x y ∧
    n.left.contexts = m.left.contexts ++ [.lambda p number [(x, q)]] ∧
    n.right.contexts = m.right.contexts ++ [.lambda p number [(y, q)]]
  id_eq : id = m.left.contexts.length
  length : m.right.contexts.length = m.left.contexts.length
  lt : q < m.left.contexts.length

theorem Steps.lambdaScope {f g : Lambda} (row : Option.Rel M.lexicon.likeness.binder f.row? g.row?) (q : ContextId)
    (p : Option ContextId) :
    Steps m (fun n a b => a = b ∧ Entered m n f g q p a) (lambdaScope f q p) (lambdaScope g q p) := by
  intro halike
  unfold Build.lambdaScope
  generalize hf : f.row? = x at row
  generalize hg : g.row? = y at row
  cases row with
  | none => exact .fails (.refl m) halike (M.same _)
  | @some x y hxy =>
    refine Steps.context (fun d e hd _ hde => ?_) halike
    have hlt := (List.getElem?_eq_some_iff.mp hd).1
    rw [hde.statement]
    intro halike
    have hlength := halike.contexts.length
    rw [run_addContext, run_addContext]
    refine .gives (n := ⟨m.ghost, m.left.enter _, m.right.enter _⟩) ?_ ?_ ⟨hlength.symm, ?_⟩
    · exact ⟨M.reading.refl _, sustains_concat _ _, sustains_concat _ _⟩
    · exact ⟨halike.aliases, halike.counts, halike.statements,
        halike.contexts.enter M.lawful (.lambda (.cons ⟨hxy, rfl⟩ .nil))⟩
    · exact ⟨⟨x, y, d.statement, hf, hg, hxy, rfl, rfl⟩, rfl, hlength, hlt⟩

/-- Below the scope, its own parameters stand for each other as well. -/
theorem Entered.knows {f g : Lambda} {q : ContextId} {p : Option ContextId} {id : ContextId} {ρ : Names}
    (h : Entered m n f g q p id) (hρ : m.Knows p ρ) : n.Knows (some id) (ρ.under f.row? g.row?) := by
  obtain ⟨⟨a, b, number, hf, hg, hab, hl, hr⟩, rfl, hlength, hlt⟩ := h
  intro x y hxy
  have hle : m.left.contexts.length ≤ n.left.contexts.length := by simp [hl]
  rw [hf, hg] at hxy
  refine M.lawful.widen hle ?_
  rw [hl, hr]
  rcases hxy with ⟨hx, hy⟩ | ⟨hx, hy, hxy⟩
  · cases hx
    cases hy
    exact M.lawful.here hlength hlt hab
  · exact M.lawful.outer hlength (fun h => hx (by rw [h])) (fun h => hy (by rw [h])) (hρ x y hxy)

/-- What a lambda states of the rows of a sequence is seen from a scope of its own. -/
theorem Steps.under {f g : Lambda} {ρ : Names} {q : ContextId} {p : Option ContextId} {next : ContextId → Build γ}
    {next' : ContextId → Build δ} (row : Option.Rel M.lexicon.likeness.binder f.row? g.row?) (hρ : m.Knows p ρ)
    (hn : ∀ n, m.Later n → ∀ id, n.Knows (some id) (ρ.under f.row? g.row?) → Steps n Q (next id) (next' id)) :
    Steps m Q (Build.lambdaScope f q p >>= next) (Build.lambdaScope g q p >>= next') := by
  refine (Steps.lambdaScope row q p).bind fun n hle a b hab => ?_
  obtain ⟨rfl, hentered⟩ := hab
  exact hn n hle a (hentered.knows hρ)

theorem Steps.follow {owner : ContextId} {name : String} {id : ContextId} (h : Associated m.left.contexts id) :
    Steps m Equal (Build.modifyContext owner (Context.follow name id))
      (Build.modifyContext owner (Context.follow name id)) := by
  intro halike
  rw [run_modifyContext, run_modifyContext]
  rcases halike.contexts.cases owner with ⟨hd, he⟩ | ⟨d, e, hd, he, hde⟩
  · rw [hd, he]
    exact .halts nofun
  · rw [hd, he]
    have hl := sustains_follow m.left.contexts owner name id
    have hr := sustains_follow m.right.contexts owner name id
    refine .gives (n := ⟨m.ghost, m.left.adjust owner _, m.right.adjust owner _⟩) ⟨M.reading.refl _, hl, hr⟩ ?_ rfl
    refine ⟨halike.aliases, halike.counts, halike.statements, ?_⟩
    refine halike.contexts.modify M.lawful hl.supports hr.supports fun d e hd he => ?_
    exact ((halike.contexts.pair hd he).follow h).keep M.lawful hl.supports hr.supports

/-! Another parent for a while. -/

/-- The context has another parent on both sides. -/
def Moment.reparent (m : M.Moment) (id : ContextId) (p : Option ContextId) : M.Moment :=
  ⟨m.ghost, m.left.adjust id (Context.withParent p), m.right.adjust id (Context.withParent p)⟩

theorem Context.withParent_withParent (p q : Option ContextId) (d : Context) :
    (d.withParent p).withParent q = d.withParent q := by
  cases d <;> rfl

theorem Context.withParent_parent (d : Context) : d.withParent d.parent = d := by
  cases d <;> rfl

theorem Context.bare_withParent {d e : Context} (h : e.bare = d.bare) (p : Option ContextId) :
    (e.withParent p).bare = (d.withParent p).bare := by
  cases d <;> cases e <;> simp_all [Context.bare, Context.withParent]

/-- Contexts that were kept while one of them had another parent are all kept when it has its own again. -/
theorem sustains_restore {l l' : List Context} {id : ContextId} {p : Option ContextId} {d : Context}
    (hd : l[id]? = some d) (h : Sustains (l.modify id (Context.withParent p)) l') :
    Sustains l (l'.modify id (Context.withParent d.parent)) := by
  intro k e he
  obtain ⟨e', he', hbare⟩ := h k (if id = k then e.withParent p else e) (by
    rw [List.getElem?_modify, he]
    split <;> rfl)
  rw [List.getElem?_modify, he']
  by_cases hk : id = k
  · subst hk
    rw [hd, Option.some.injEq] at he
    subst he
    rw [if_pos rfl] at hbare
    refine ⟨e'.withParent d.parent, by simp, ?_⟩
    rw [Context.bare_withParent hbare, Context.withParent_withParent, Context.withParent_parent]
  · rw [if_neg hk] at hbare
    exact ⟨e', by simp [hk], hbare⟩

theorem supports_reparent_right (halike : M.Alike m) {id : ContextId} (p : Option ContextId)
    (hscope : ∀ d, m.left.contexts[id]? = some d → d.isScope = false) :
    Supports m.right.contexts (m.right.contexts.modify id (Context.withParent p)) := by
  refine supports_withParent _ p fun e he => ?_
  rcases halike.contexts.cases id with ⟨-, hnone⟩ | ⟨d, e', hd, he', hde⟩
  · rw [hnone] at he
    cases he
  · rw [he'] at he
    cases he
    rw [hde.isScope, hscope d hd]

theorem Alike.reparent (halike : M.Alike m) {id : ContextId} {p : Option ContextId}
    (hscope : ∀ d, m.left.contexts[id]? = some d → d.isScope = false)
    (hclosure : ∀ {q k r f g scalar}, m.left.contexts[id]? = some (.projection q k r f scalar) →
      m.right.contexts[id]? = some (.projection q k r g scalar) →
      M.lexicon.Closure m.left.contexts m.right.contexts id p f g) : M.Alike (m.reparent id p) := by
  have hl := supports_withParent m.left.contexts p hscope
  have hr := supports_reparent_right halike p hscope
  refine ⟨halike.aliases, halike.counts, halike.statements, ?_⟩
  refine halike.contexts.modify M.lawful hl hr fun d e hd he => ?_
  refine ((halike.contexts.pair hd he).withParent ?_).keep M.lawful hl hr
  rintro q k r f g scalar rfl rfl
  exact hclosure hd he

theorem Context.projection_of_bare {d e : Context} {p q : Option ContextId} {k : StatementId} {r : ContextId}
    {f : Lambda}
    {scalar : Bool} (h : e.bare = (d.withParent p).bare) (he : e = .projection q k r f scalar) :
    d = .projection d.parent k r f scalar := by
  subst he
  cases d <;> cases h
  rfl

/-- The context gets its own parent back. -/
theorem Alike.restore (halike : M.Alike m) {id : ContextId} {p : Option ContextId}
    (hscope : ∀ d, m.left.contexts[id]? = some d → d.isScope = false) {d e : Context}
    (hd : m.left.contexts[id]? = some d) (he : m.right.contexts[id]? = some e) (hn : (m.reparent id p).Later n)
    (hnow : M.Alike n) : m.Later (n.reparent id d.parent) ∧ M.Alike (n.reparent id d.parent) := by
  have hde := halike.contexts.pair hd he
  have hl := sustains_restore hd hn.left
  have hr := sustains_restore he hn.right
  rw [hde.parent] at hr
  obtain ⟨d', hd', hbare⟩ := hn.left id (d.withParent p) (by simp [Moment.reparent, BuildState.adjust, hd])
  obtain ⟨e', he', hbare'⟩ := hn.right id (e.withParent p) (by simp [Moment.reparent, BuildState.adjust, he])
  refine ⟨⟨hn.ghost, hl, hr⟩, hnow.reparent ?_ ?_⟩
  · intro d'' hd''
    obtain rfl : d' = d'' := Option.some.inj (hd'.symm.trans hd'')
    have hkeeps : (d.withParent p).isScope = d.isScope := by cases d <;> rfl
    rw [Context.isScope_of_bare hbare, hkeeps, hscope d hd]
  · intro q k r f g scalar hf hg
    have hdp := Context.projection_of_bare hbare (Option.some.inj (hd'.symm.trans hf))
    have hep := Context.projection_of_bare hbare' (Option.some.inj (he'.symm.trans hg))
    rw [hde.parent] at hep
    have hclosure : M.lexicon.Closure m.left.contexts m.right.contexts id d.parent f g := by
      generalize d.parent = parent at hdp hep
      subst hdp hep
      cases hde with
      | projection _ closure => exact closure
    exact hclosure.keep M.lawful ((supports_withParent _ p hscope).trans hn.left.supports)
      ((supports_reparent_right halike p hscope).trans hn.right.supports)

/-- An action during which a context has another parent. What corresponds in its results must not depend on parents. -/
theorem Steps.withParent {R : M.reading.Ghost → α → β → Prop} {id : ContextId} {p : Option ContextId}
    (hscope : ∀ d, m.left.contexts[id]? = some d → d.isScope = false)
    (hclosure : ∀ {q k r f g scalar}, m.left.contexts[id]? = some (.projection q k r f scalar) →
      m.right.contexts[id]? = some (.projection q k r g scalar) →
      M.lexicon.Closure m.left.contexts m.right.contexts id p f g)
    (h : Steps (m.reparent id p) (fun n => R n.ghost) act act') :
    Steps m (fun n => R n.ghost) (Build.withParent id p act) (Build.withParent id p act') := by
  refine .context fun d e hd he hde halike => ?_
  have hmeanwhile := h (halike.reparent hscope hclosure)
  rw [run_bind, run_bind, run_modifyContext, run_modifyContext, hd, he, hde.parent]
  change Ends m _ (Build.run _ (m.reparent id p).left) (Build.run _ (m.reparent id p).right)
  rw [run_bind, run_bind, run_attempt, run_attempt]
  generalize act.run (m.reparent id p).left = x at hmeanwhile
  generalize act'.run (m.reparent id p).right = y at hmeanwhile
  have hrestore : ∀ {γ : Type} (r : Except CompileError γ) (s : BuildState) {d' : Context}, s.contexts[id]? = some d' →
      (do modifyContext id (Context.withParent d.parent); Build.ofExcept r).run s =
        (r.mapError .failed, s.adjust id (Context.withParent d.parent)) := by
    intro γ r s d' hd'
    rw [run_bind, run_modifyContext, hd']
    cases r <;> rfl
  cases hmeanwhile with
  | gives later alike hab =>
    obtain ⟨hlater, hnow⟩ := halike.restore hscope hd he later alike
    obtain ⟨_, hd', -⟩ := later.left id (d.withParent p) (by simp [Moment.reparent, BuildState.adjust, hd])
    obtain ⟨_, he', -⟩ := later.right id (e.withParent p) (by simp [Moment.reparent, BuildState.adjust, he])
    dsimp only
    rw [hrestore _ _ hd', hrestore _ _ he']
    exact .gives hlater hnow hab
  | fails later alike herror =>
    obtain ⟨hlater, hnow⟩ := halike.restore hscope hd he later alike
    obtain ⟨_, hd', -⟩ := later.left id (d.withParent p) (by simp [Moment.reparent, BuildState.adjust, hd])
    obtain ⟨_, he', -⟩ := later.right id (e.withParent p) (by simp [Moment.reparent, BuildState.adjust, he])
    dsimp only
    rw [hrestore _ _ hd', hrestore _ _ he']
    exact .fails hlater hnow herror
  | @halts stop _ _ hstop =>
    cases stop with
    | failed e => exact absurd rfl (hstop e)
    | outOfFuel | dangling => exact .halts hstop

/-! Constants. -/

/-- A constant becomes a parameter, or it stays one. -/
theorem Steps.constant (v : Literal) (rec rec' : Calls) (scope : ContextId) :
    Steps m (fun n => M.reading.value n.ghost) (c.value rec scope (.literal v)) (c'.value rec' scope (.literal v)) := by
  intro halike
  have hrun : ∀ (c : Compiler) (rec : Calls) (s : BuildState), (c.value rec scope (.literal v)).run s =
      (.ok (c.constant s.parameters v), { s with parameters := c.counted s.parameters }) := by
    intro c rec s
    simp only [Compiler.value, Compiler.constant, Compiler.counted]
    split <;> rfl
  obtain ⟨g, hg, hcounts, hvalue⟩ := M.reading.constant v halike.counts
  rw [hrun, hrun]
  refine .gives (n := ⟨g, { m.left with parameters := c.counted m.left.parameters },
    { m.right with parameters := c'.counted m.right.parameters }⟩) ⟨hg, .refl _, .refl _⟩ ?_ hvalue
  exact ⟨halike.aliases, hcounts, halike.statements.imp fun _ _ h => h.mono hg, halike.contexts⟩

end Mirror
end ObjectQuery
