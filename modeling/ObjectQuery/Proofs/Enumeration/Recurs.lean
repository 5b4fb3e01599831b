import ObjectQuery.Proofs.Assigned.Denotes
import ObjectQuery.Proofs.Enumeration.Session
import ObjectQuery.Proofs.Twins.Lookup

/-!
What has been compiled once is compiled to the same again. The associations on the way have been followed by then, and
new scopes see what the old ones saw; only a query nested in a value would become another statement every time.
-/
namespace ObjectQuery

open Build

/-! Parameters keep what they are bound to. -/

namespace BuildState

variable {s t u : BuildState} {x : String} {r : Option ContextId}

theorem Later.length_le (h : s.Later t) : s.contexts.length ≤ t.contexts.length := by
  refine Nat.le_of_not_lt fun hlt => ?_
  obtain ⟨_, ht⟩ := h t.contexts.length _ (List.getElem?_eq_getElem hlt)
  exact Nat.lt_irrefl _ (List.getElem?_eq_some_iff.mp ht).1

theorem Later.bindingFrom (h : s.Later t) {m n : Nat} (hmn : m ≤ n) {p : Option ContextId}
    (hr : ObjectQuery.bindingFrom s.contexts x m p = .ok r) : ObjectQuery.bindingFrom t.contexts x n p = .ok r := by
  have hfound : ObjectQuery.bindingFrom t.contexts x m p = .ok r := by
    clear hmn
    induction m generalizing p with
    | zero => cases p <;> exact hr
    | succ m ih =>
      cases p with
      | none => exact hr
      | some id =>
        rw [ObjectQuery.bindingFrom] at hr ⊢
        cases hd : s.contexts[id]? with
        | none =>
          rw [hd] at hr
          cases hr
        | some d =>
          obtain ⟨more, ht⟩ := h id d hd
          simp only [hd, ht, Context.binding?_followAll, Context.parent_followAll] at hr ⊢
          cases hb : d.binding? x with
          | some q =>
            rw [hb] at hr
            exact hr
          | none =>
            rw [hb] at hr
            exact ih hr
  obtain ⟨k, rfl⟩ := Nat.exists_eq_add_of_le hmn
  rw [bindingFrom_add k (by simp [hfound]), hfound]

/-- A scope of the one state and a scope of the other see the same: they are one, or bind the same under one parent. -/
inductive Twin (s u : BuildState) : ContextId → ContextId → Prop
  | same (id : ContextId) : Twin s u id id
  | entered {id id' : ContextId} {parent : Option ContextId} {m m' : StatementId} {bindings : List (String × ContextId)}
    (left : s.contexts[id]? = some (.lambda parent m bindings))
    (right : u.contexts[id']? = some (.lambda parent m' bindings)) : Twin s u id id'

theorem Twin.mono {s' u' : BuildState} {p p' : ContextId} (h : Twin s u p p') (hs : s.Later s') (hu : u.Later u') :
    Twin s' u' p p' := by
  cases h with
  | same => exact .same _
  | entered left right =>
    obtain ⟨_, hleft⟩ := hs _ _ left
    obtain ⟨_, hright⟩ := hu _ _ right
    exact .entered hleft hright

theorem Twin.bindingFrom {p p' q : ContextId} (h : Twin s u p p') (hsu : s.Later u)
    (hq : ObjectQuery.bindingFrom s.contexts x s.contexts.length (some p) = .ok (some q)) :
    ObjectQuery.bindingFrom u.contexts x u.contexts.length (some p') = .ok (some q) := by
  cases h with
  | same => exact hsu.bindingFrom hsu.length_le hq
  | entered left right =>
    have hlength := hsu.length_le
    obtain ⟨m, hm⟩ := Nat.exists_eq_succ_of_ne_zero (Nat.ne_zero_of_lt (List.getElem?_eq_some_iff.mp left).1)
    obtain ⟨n, hn⟩ := Nat.exists_eq_succ_of_ne_zero (Nat.ne_zero_of_lt (List.getElem?_eq_some_iff.mp right).1)
    rw [hm, ObjectQuery.bindingFrom, left] at hq
    rw [hn, ObjectQuery.bindingFrom, right]
    simp only [Context.binding?, Context.parent] at hq ⊢
    split at hq
    · next hb => simpa [hb] using hq
    · next hb => simpa [hb] using hsu.bindingFrom (by omega) hq

end BuildState

namespace Build

open BuildState

variable {α β : Type} {named : String → Prop} {s u : BuildState} {act act' : Build α} {next next' : α → Build β}

theorem run_bind_of {a : α} {t : BuildState} (h : act.run s = (.ok a, t)) :
    (act >>= next).run s = (next a).run t := by
  rw [run_bind, h]

/-- A result cannot come from a failure that is answered by another one. -/
theorem of_run_attempt_bind {next : Except CompileError α → Build β} {b : β} {t : BuildState}
    (hfail : ∀ e, ∃ e', next (.error e) = fail e') (h : (attempt act >>= next).run s = (.ok b, t)) :
    (act >>= fun a => next (.ok a)).run s = (.ok b, t) := by
  rw [run_bind, run_attempt] at h
  rw [run_bind]
  cases hr : act.run s with
  | mk result u =>
    rw [hr] at h
    cases result with
    | ok a => exact h
    | error stop =>
      cases stop with
      | outOfFuel | dangling => cases h
      | failed e =>
        obtain ⟨e', he⟩ := hfail e
        simp only [he] at h
        cases h

theorem run_attempt_bind_of {next : Except CompileError α → Build β} {b : β} {t : BuildState}
    (h : (act >>= fun a => next (.ok a)).run s = (.ok b, t)) : (attempt act >>= next).run s = (.ok b, t) := by
  obtain ⟨a, u, hact, hnext⟩ := exists_of_run_bind h
  rw [run_bind, run_attempt, hact]
  exact hnext

/-- From `s`, the action does nothing to the contexts but follow associations and enter new ones. If it gives a result
and `u` is later than its end, the other action gives the same from there, and follows no association. -/
def Recurs (named : String → Prop) (s u : BuildState) (act act' : Build α) : Prop :=
  s.Unnested named → ∀ a t, act.run s = (.ok a, t) →
    s.Later t ∧ t.Unnested named ∧ (t.Later u → ∃ w, act'.run u = (.ok a, w) ∧ u.Later w)

namespace Recurs

theorem pure (a : α) : Recurs named s u (pure a) (pure a) := by
  rintro hs _ _ ⟨⟩
  exact ⟨.refl s, hs, fun _ => ⟨u, rfl, .refl u⟩⟩

theorem throw (stop : Stop) : Recurs named s u (throw stop) act' :=
  fun _ _ _ => nofun

theorem fail (e : CompileError) : Recurs named s u (fail e) act' :=
  throw _

theorem bind (h : Recurs named s u act act')
    (hn : ∀ a s₁ u₁, s.Later s₁ → u.Later u₁ → Recurs named s₁ u₁ (next a) (next' a)) :
    Recurs named s u (act >>= next) (act' >>= next') := by
  intro hs b t hrun
  obtain ⟨a, s₁, hact, hnext⟩ := exists_of_run_bind hrun
  obtain ⟨hs₁, hu₁, hagain⟩ := h hs a s₁ hact
  obtain ⟨ht, hut, -⟩ := hn a s₁ u hs₁ (.refl u) hu₁ b t hnext
  refine ⟨hs₁.trans ht, hut, fun htu => ?_⟩
  obtain ⟨u₁, hrun₁, hlater₁⟩ := hagain (ht.trans htu)
  obtain ⟨-, -, hlast⟩ := hn a s₁ u₁ hs₁ hlater₁ hu₁ b t hnext
  obtain ⟨w, hrun₂, hlater₂⟩ := hlast (htu.trans hlater₁)
  exact ⟨w, by rw [run_bind_of hrun₁, hrun₂], hlater₁.trans hlater₂⟩

theorem map {f : α → β} (h : Recurs named s u act act') : Recurs named s u (f <$> act) (f <$> act') := by
  rw [← bind_pure_comp, ← bind_pure_comp]
  exact h.bind fun _ _ _ _ _ => .pure _

theorem mapM {f f' : α → Build β} (xs : List α)
    (hf : ∀ x ∈ xs, ∀ s₁ u₁, s.Later s₁ → u.Later u₁ → Recurs named s₁ u₁ (f x) (f' x)) :
    Recurs named s u (xs.mapM f) (xs.mapM f') := by
  induction xs generalizing s u with
  | nil => exact .pure []
  | cons x xs ih =>
    simp only [List.mapM_cons]
    refine (hf x List.mem_cons_self s u (.refl s) (.refl u)).bind fun b s₁ u₁ hs₁ hu₁ => ?_
    refine (ih fun y hy s₂ u₂ hs₂ hu₂ => ?_).bind fun bs _ _ _ _ => .pure _
    exact hf y (List.mem_cons_of_mem x hy) s₂ u₂ (hs₁.trans hs₂) (hu₁.trans hu₂)

theorem orFail {e e' : CompileError} {o o' : Option α}
    (hn : ∀ a, o = some a → ∃ a', o' = some a' ∧ Recurs named s u (next a) (next' a')) :
    Recurs named s u (orFail e o >>= next) (Build.orFail e' o' >>= next') := by
  cases o with
  | none => exact fun _ _ _ => nofun
  | some a =>
    obtain ⟨a', rfl, ha⟩ := hn a rfl
    exact ha

/-- A failure is answered by another one. -/
theorem answer {next next' : Except CompileError α → Build β} (h : Recurs named s u act act')
    (hn : ∀ a s₁ u₁, s.Later s₁ → u.Later u₁ → Recurs named s₁ u₁ (next (.ok a)) (next' (.ok a)))
    (hfail : ∀ e, ∃ e', next (.error e) = Build.fail e') :
    Recurs named s u (attempt act >>= next) (attempt act' >>= next') := by
  intro hs b t hrun
  obtain ⟨ht, hut, hagain⟩ := h.bind hn hs b t (of_run_attempt_bind hfail hrun)
  refine ⟨ht, hut, fun htu => ?_⟩
  obtain ⟨w, hrun', hw⟩ := hagain htu
  exact ⟨w, run_attempt_bind_of hrun', hw⟩

theorem context {id : ContextId} {next next' : Context → Build β}
    (hn : ∀ d more, s.contexts[id]? = some d → (s.Unnested named → d.Unnested named) →
      Recurs named s u (next d) (next' (d.followAll more))) :
    Recurs named s u (context id >>= next) (Build.context id >>= next') := by
  intro hs b t hrun
  obtain ⟨d, _, hcontext, hnext⟩ := exists_of_run_bind hrun
  obtain ⟨hd, rfl⟩ := of_run_context hcontext
  have hdu := fun hs : BuildState.Unnested named _ => hs d (List.mem_of_getElem? hd)
  obtain ⟨ht, hut, -⟩ := hn d [] hd hdu hs b t hnext
  refine ⟨ht, hut, fun htu => ?_⟩
  obtain ⟨more, hd'⟩ := ht.trans htu id d hd
  obtain ⟨-, -, hlast⟩ := hn d more hd hdu hs b t hnext
  obtain ⟨w, hrun', hw⟩ := hlast htu
  exact ⟨w, by rw [run_bind_of (run_context_of hd'), hrun'], hw⟩

/-- The root of a path is looked up in scopes that see the same. -/
theorem rootOf {p p' : ContextId} (hp : Twin s u p p') {path : Path} {next next' : ContextId → Build β}
    (hn : ∀ q, Recurs named s u (next q) (next' q)) :
    Recurs named s u (rootOf p path >>= next) (Build.rootOf p' path >>= next') := by
  intro hs b t hrun
  obtain ⟨q, s₁, hroot, hnext⟩ := exists_of_run_bind hrun
  obtain ⟨o, s₂, hfind, hsome⟩ := exists_of_run_bind hroot
  obtain ⟨rfl, rfl⟩ := of_run_orFail hsome
  have hfound : ObjectQuery.bindingFrom s.contexts path.root s.contexts.length (some p) = .ok (some q) ∧ s₁ = s := by
    change (orStop _).run s = _ at hfind
    cases hb : ObjectQuery.bindingFrom s.contexts path.root s.contexts.length (some p) <;> rw [hb] at hfind <;>
      cases hfind
    exact ⟨rfl, rfl⟩
  obtain ⟨hfound, rfl⟩ := hfound
  obtain ⟨ht, hut, hagain⟩ := hn q hs b t hnext
  refine ⟨ht, hut, fun htu => ?_⟩
  obtain ⟨w, hrun', hw⟩ := hagain htu
  have hroot' : (Build.rootOf p' path).run u = (.ok q, u) := by
    have hfind' : (findBinding? p' path.root).run u = (.ok (some q), u) := by
      change (orStop _).run u = _
      rw [hp.bindingFrom (ht.trans htu) hfound]
      rfl
    rw [Build.rootOf, run_bind, hfind']
    rfl
  exact ⟨w, by rw [run_bind_of hroot', hrun'], hw⟩

theorem addContext {d d' : Context} (hd : d.Unnested named) {next next' : ContextId → Build β}
    (hn : Recurs named (s.enter d) (u.enter d') (next s.contexts.length) (next' u.contexts.length)) :
    Recurs named s u (addContext d >>= next) (Build.addContext d' >>= next') := by
  have henter : ∀ (e : Context) (v : BuildState), (Build.addContext e).run v = (.ok v.contexts.length, v.enter e) := by
    intro e v
    rw [run_addContext]
    rfl
  intro hs b t hrun
  rw [run_bind_of (henter d s)] at hrun
  have hs' : (s.enter d).Unnested named := by
    intro e he
    rcases List.mem_append.mp he with he | he
    · exact hs e he
    · rwa [List.mem_singleton.mp he]
  obtain ⟨ht, hut, hagain⟩ := hn hs' b t hrun
  refine ⟨(later_enter s d).trans ht, hut, fun htu => ?_⟩
  obtain ⟨w, hrun', hw⟩ := hagain (htu.trans (later_enter u d'))
  exact ⟨w, by rw [run_bind_of (henter d' u), hrun'], (later_enter u d').trans hw⟩

/-- The scopes that are entered see the same. -/
theorem lambdaScope {l : Lambda} {sequence : ContextId} {parent : Option ContextId} {next next' : ContextId → Build β}
    (hn : ∀ p p' s₁ u₁, s.Later s₁ → u.Later u₁ → Twin s₁ u₁ p p' → Recurs named s₁ u₁ (next p) (next' p')) :
    Recurs named s u (lambdaScope l sequence parent >>= next) (Build.lambdaScope l sequence parent >>= next') := by
  simp only [Build.lambdaScope, bind_assoc]
  refine .orFail fun row hrow => ⟨row, hrow, .context fun d more hd _ => ?_⟩
  have hscope : Context.Unnested named (.lambda parent d.statement [(row, sequence)]) := trivial
  refine .addContext hscope (hn _ _ _ _ (later_enter s _) (later_enter u _) ?_)
  exact .entered (getElem?_enter_self _ _) (getElem?_enter_self _ _)

end Recurs

end Build
/-- What the calls have given once, the other ones give again. -/
structure Calls.Recur (rec rec' : Calls) (named : String → Prop) : Prop where
  value : ∀ {any : String → Prop} {s u : BuildState} {p p' : ContextId} {e : Expr}, s.Twin u p p' → e.Unnested any →
    Recurs named s u (rec.value p e) (rec'.value p' e)
  condition : ∀ {any : String → Prop} {s u : BuildState} {p p' : ContextId} {e : Expr}, s.Twin u p p' →
    e.Unnested any → Recurs named s u (rec.condition p e) (rec'.condition p' e)
  classify : ∀ {s u : BuildState} (id : ContextId) (steps : List String),
    Recurs named s u (rec.classify id steps) (rec'.classify id steps)

namespace Compiler

open BuildState

variable {c : Compiler} {rec rec' : Calls} {named any : String → Prop} {s u : BuildState}

/-- An association that has been followed is not followed again. -/
theorem recurs_followAssociation {owner : ContextId} {d : Context} {r : Rows} {e : Entity} {name : String}
    {a : Association} {β : Type} {next next' : ContextId → Build β} (hd : s.contexts[owner]? = some d)
    (hr : d.rows? = some r) (he : c.schema.mapping.entity? r.entity = some e)
    (hm : e.member? name = some (.association a))
    (hn : ∀ target s₁, s.Later s₁ → Recurs named s₁ u (next target) (next' target)) :
    Recurs named s u (c.followAssociation owner name a >>= next) (c.followAssociation owner name a >>= next') := by
  intro hs b t hrun
  obtain ⟨target, s₁, hfollow, hnext⟩ := exists_of_run_bind hrun
  have hs₁ : s.Later s₁ := by
    have hext := (ends_followAssociation hd hr he hm).extends
    rw [hfollow] at hext
    exact hext.later
  have hu₁ : s₁.Unnested named := by
    have hstays := stays_followAssociation (c := c) owner name a s hs
    rwa [hfollow] at hstays
  obtain ⟨ht, hut, hagain⟩ := hn target s₁ hs₁ hu₁ b t hnext
  refine ⟨hs₁.trans ht, hut, fun htu => ?_⟩
  obtain ⟨w, hrun', hw⟩ := hagain htu
  have hfollows := (follows_followAssociation hd hr hfollow).mono (ht.trans htu)
  exact ⟨w, by rw [run_bind_of (run_followAssociation hfollows a), hrun'], hw⟩

theorem recurs_classifyMember (hc : c.schema.Unnested) (h : rec.Recur rec' named) (id : ContextId)
    (steps : List String) : Recurs named s u (c.classifyMember rec id steps) (c.classifyMember rec' id steps) := by
  refine .context fun d more hd _ => ?_
  cases steps with
  | nil => cases d <;> exact .pure _
  | cons step steps =>
    refine .orFail fun r hr => ⟨_, Context.rows?_followAll_of hr more, .orFail fun e he => ⟨e, he, ?_⟩⟩
    split
    · exact .pure _
    · next l hl =>
      have hl := hc _ _ _ _ he (member?_of_longestMember? hl)
      exact .lambdaScope fun p p' s₁ u₁ _ _ hp => .map (h.value hp hl)
    · next name a rest hl =>
      exact recurs_followAssociation hd hr he (member?_of_longestMember? hl) fun target s₁ _ => h.classify target rest
    · exact .fail _
    · split
      · exact .pure _
      · exact .fail _

theorem recurs_classifyValue (h : rec.Recur rec' named) (projection sequence : ContextId) (l : Lambda) {e : Expr}
    (he : e.Unnested any) (steps : List String) :
    Recurs named s u (classifyValue rec projection sequence l e steps)
      (classifyValue rec' projection sequence l e steps) := by
  unfold classifyValue
  split
  · exact h.classify _ _
  · cases steps with
    | nil =>
      refine .context fun d more hd _ => ?_
      rw [Context.parent_followAll]
      exact .lambdaScope fun p p' s₁ u₁ _ _ hp => .map (h.value hp he)
    | cons step steps => exact .fail _

theorem recurs_classifyProjected (h : rec.Recur rec' named) (projection sequence : ContextId) (l : Lambda) {e : Expr}
    (he : e.Unnested any) (steps : List String) :
    Recurs named s u (classifyProjected rec projection sequence l e steps)
      (classifyProjected rec' projection sequence l e steps) := by
  induction steps generalizing e with
  | nil =>
    unfold classifyProjected
    split
    · exact .pure _
    · exact recurs_classifyValue h _ _ l he.strip _
  | cons name rest ih =>
    unfold classifyProjected
    split
    · exact recurs_classifyValue h _ _ l he.strip _
    · next bindings hb =>
      split
      · exact .fail _
      · next value hl =>
        refine (ih (he.lookup hb hl)).bind fun d s₁ u₁ _ _ => ?_
        cases d with
        | object context steps =>
          dsimp only
          split <;> exact .pure _
        | table | association | field | computed => exact .pure _

theorem recurs_classify (hc : c.schema.Unnested) (h : rec.Recur rec' named) (id : ContextId) (steps : List String) :
    Recurs named s u (c.classify rec id steps) (c.classify rec' id steps) := by
  refine fun hs => Recurs.context (fun d more hd hu => ?_) hs
  cases d with
  | table | association => exact recurs_classifyMember hc h id steps
  | projection parent number sequence l scalar =>
    have hbody : l.body.Unnested named := hu hs
    dsimp only [Context.followAll]
    split
    · exact recurs_classifyValue h id sequence l hbody.strip steps
    · exact recurs_classifyProjected h id sequence l hbody.strip steps
  | lambda | update => exact .fail _

theorem recurs_resolve (h : rec.Recur rec' named) {p p' : ContextId} (hp : s.Twin u p p') (path : Path) :
    Recurs named s u (resolve rec p path) (resolve rec' p' path) := by
  refine .rootOf hp fun q => .answer (h.classify q path.steps) (fun d _ _ _ _ => .pure d) fun e => ?_
  cases e <;> exact ⟨_, rfl⟩

theorem recurs_pathValue (h : rec.Recur rec' named) {p p' : ContextId} (hp : s.Twin u p p') (e : Expr) :
    Recurs named s u (pathValue rec p e) (pathValue rec' p' e) := by
  refine .orFail fun path hpath => ⟨path, hpath, (recurs_resolve h hp path).bind fun d _ _ _ _ => ?_⟩
  cases d with
  | field | computed => exact .pure _
  | table | association | object => exact .fail _

theorem recurs_value (hp : c.settings.parameterizeConstants = false) (h : rec.Recur rec' named) {p p' : ContextId}
    (hpp : s.Twin u p p') {e : Expr} (he : e.Unnested any) :
    Recurs named s u (c.value rec p e) (c.value rec' p' e) := by
  have hcondition : ∀ {e : Expr}, e.Unnested any →
      Recurs named s u (SqlExpr.condition <$> rec.condition p e) (SqlExpr.condition <$> rec'.condition p' e) :=
    fun he => .map (h.condition hpp he)
  cases e with
  | literal v =>
    simp only [Compiler.value, hp]
    exact .pure _
  | «external» | null => exact .pure _
  | convert inner =>
    have hinner : inner.Unnested any := he
    exact h.value hpp hinner
  | parameter | member => exact recurs_pathValue h hpp _
  | binary op lhs rhs =>
    cases op with
    | arithmetic op =>
      refine (h.value hpp he.1).bind fun v s₁ u₁ hs₁ hu₁ => ?_
      exact (h.value (hpp.mono hs₁ hu₁) he.2).bind fun w _ _ _ _ => .pure _
    | and | or | comparison => exact hcondition he
  | not inner => exact hcondition he
  | call function args =>
    refine .map (.mapM args fun e hmem s₁ u₁ hs₁ hu₁ => ?_)
    exact h.value (hpp.mono hs₁ hu₁) (Expr.unnestedAll_iff.mp he e hmem)
  | construct bindings => exact .fail _
  | aggregate function source selector => exact he.elim

theorem recurs_condition (h : rec.Recur rec' named) {p p' : ContextId} (hp : s.Twin u p p') {e : Expr}
    (he : e.Unnested any) : Recurs named s u (condition rec p e) (condition rec' p' e) := by
  have he := he.strip
  have hboth : ∀ {a b : Expr} (f : Predicate → Predicate → Predicate), a.Unnested any → b.Unnested any →
      Recurs named s u (do pure (f (← rec.condition p a) (← rec.condition p b)))
        (do pure (f (← rec'.condition p' a) (← rec'.condition p' b))) := by
    intro a b f ha hb
    refine (h.condition hp ha).bind fun v s₁ u₁ hs₁ hu₁ => ?_
    exact (h.condition (hp.mono hs₁ hu₁) hb).bind fun w _ _ _ _ => .pure _
  unfold condition
  split
  · next hs =>
    rw [hs] at he
    exact hboth _ he.1 he.2
  · next hs =>
    rw [hs] at he
    exact hboth _ he.1 he.2
  · next hs =>
    rw [hs] at he
    refine (h.value hp he.1).bind fun v s₁ u₁ hs₁ hu₁ => ?_
    exact (h.value (hp.mono hs₁ hu₁) he.2).bind fun w _ _ _ _ => .pure _
  · exact .fail _
  · next inner hs =>
    rw [hs] at he
    have hinner : inner.Unnested any := he
    exact .map (h.condition hp hinner)
  · exact .pure _
  · refine (h.value hp he).bind fun v _ _ _ _ => ?_
    cases v <;> exact .pure _

/-- More calls may be nested the second time. -/
theorem calls_recur (hc : c.schema.Unnested) (hp : c.settings.parameterizeConstants = false) {m n : Nat} (hmn : m ≤ n) :
    (c.calls m).Recur (c.calls n) named := by
  induction m generalizing n with
  | zero => exact ⟨fun _ _ => .throw _, fun _ _ => .throw _, fun _ _ => .throw _⟩
  | succ m ih =>
    obtain ⟨n, rfl⟩ := Nat.exists_eq_succ_of_ne_zero (Nat.ne_zero_of_lt hmn)
    have h := ih (Nat.le_of_succ_le_succ hmn)
    exact ⟨fun hpp he => recurs_value hp h hpp he, fun hpp he => recurs_condition h hpp he, recurs_classify hc h⟩

end Compiler
end ObjectQuery
