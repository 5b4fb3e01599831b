import ObjectQuery.Compile.Query
import ObjectQuery.Proofs.Intact.State

/-!
Actions that keep states intact. They come upon no number that names nothing, and upon no fault that the choice of a
builder rules out.
-/
namespace ObjectQuery

open Build

/-- The fault is one that is looked for in vain: the builder that was chosen, and what sequences are made of, rule it
out. No compilation states a fault in words of its own. -/
def ShapeFault.isDefensive : ShapeFault → Bool
  | .missingSequence _ | .sourceArguments | .filterArguments | .projectionArguments | .updateArguments
  | .setArguments | .setValue | .lambdaNotSequence | .updateNotReadable | .updateNotQueryable
  | .noTableMembers _ | .noColumns _ | .stated _ => true
  | _ => false

def CompileError.isDefensive (e : CompileError) : Bool :=
  match e.rootCause with
  | .unsupportedShape fault => fault.isDefensive
  | _ => false

/-- The query is to blame, or the fuel. -/
def Stop.Proper : Stop → Prop
  | .failed e => e.isDefensive = false
  | .outOfFuel => True
  | .dangling => False

variable {α β : Type} {c : Compiler} {s t : BuildState}

/-- Where an action ends that keeps states intact. -/
structure Build.Lands (c : Compiler) (s : BuildState) (P : α → BuildState → Prop) (r : Except Stop α × BuildState) :
    Prop where
  intact : r.2.Intact c
  widens : s.Widens r.2
  result : ∀ a, r.1 = .ok a → P a r.2
  stop : ∀ stop, r.1 = .error stop → c.Ready → stop.Proper

/-- From that state, if it is intact, the action ends in an intact one, for a good reason if it stops. -/
def Build.Secures (c : Compiler) (s : BuildState) (P : α → BuildState → Prop) (act : Build α) : Prop :=
  s.Intact c → Lands c s P (act.run s)

/-- Nothing is said of the result. -/
def Build.anything (_ : α) (_ : BuildState) : Prop :=
  True

namespace Build.Secures

variable {P : α → BuildState → Prop} {Q : β → BuildState → Prop} {act : Build α} {next : α → Build β}
  {id : ContextId} {m : StatementId}

theorem of_intact (h : s.Intact c → Secures c s P act) : Secures c s P act :=
  fun hs => h hs hs

theorem pure {a : α} (h : P a s) : Secures c s P (pure a) :=
  fun hs => ⟨hs, .refl s, by rintro _ ⟨⟩; exact h, by rintro _ ⟨⟩⟩

theorem done {a : α} : Secures c s anything (Pure.pure a) :=
  pure trivial

theorem throw {stop : Stop} (h : c.Ready → stop.Proper) : Secures c s P (throw stop : Build α) :=
  fun hs => ⟨hs, .refl s, by rintro _ ⟨⟩, by rintro _ ⟨⟩; exact h⟩

theorem fail {e : CompileError} (h : c.Ready → e.isDefensive = false) : Secures c s P (fail e : Build α) :=
  throw h

theorem imp {P' : α → BuildState → Prop} (h : Secures c s P act) (hp : ∀ a t, s.Widens t → P a t → P' a t) :
    Secures c s P' act := by
  intro hs
  obtain ⟨hi, hw, ha, hstop⟩ := h hs
  exact ⟨hi, hw, fun a hr => hp a _ hw (ha a hr), hstop⟩

theorem any (h : Secures c s P act) : Secures c s anything act :=
  h.imp fun _ _ _ _ => trivial

theorem bind_of_run (h : Secures c s P act)
    (hn : ∀ a t, act.run s = (.ok a, t) → s.Widens t → P a t → Secures c t Q (next a)) :
    Secures c s Q (act >>= next) := by
  intro hs
  obtain ⟨hi, hw, ha, hstop⟩ := h hs
  rw [run_bind]
  cases hr : act.run s with
  | mk result t =>
    rw [hr] at hi hw ha hstop
    cases result with
    | error stop => exact ⟨hi, hw, by rintro _ ⟨⟩, by rintro _ ⟨⟩; exact hstop stop rfl⟩
    | ok a =>
      obtain ⟨hi', hw', ha', hstop'⟩ := hn a t hr hw (ha a rfl) hi
      exact ⟨hi', hw.trans hw', ha', hstop'⟩

theorem bind (h : Secures c s P act) (hn : ∀ a t, s.Widens t → P a t → Secures c t Q (next a)) :
    Secures c s Q (act >>= next) :=
  h.bind_of_run fun a t _ => hn a t

theorem map {f : α → β} (h : Secures c s P act) (hf : ∀ a t, P a t → Q (f a) t) : Secures c s Q (f <$> act) := by
  rw [← bind_pure_comp]
  exact h.bind fun a t _ ha => pure (hf a t ha)

/-- An action that only looks at the state, and finds what it looks for unless the query is to blame. -/
theorem of_reads (hr : act.Reads) (ha : ∀ a, act.run s = (.ok a, s) → P a s)
    (hstop : ∀ stop, act.run s = (.error stop, s) → c.Ready → stop.Proper) : Secures c s P act := by
  intro hs
  have hstate := hr s
  cases hrun : act.run s with
  | mk result t =>
    rw [hrun] at hstate
    obtain rfl : t = s := hstate
    refine ⟨hs, .refl t, ?_, ?_⟩
    · rintro a rfl
      exact ha a hrun
    · rintro stop rfl
      exact hstop stop hrun

theorem read {p : α → Prop} (h : Secures c s (fun a t => t = s ∧ p a) act)
    (hn : ∀ a, p a → Secures c s Q (next a)) : Secures c s Q (act >>= next) := by
  refine h.bind fun a t _ ha => ?_
  obtain ⟨rfl, hp⟩ := ha
  exact hn a hp

theorem orFail {e : CompileError} {o : Option α} (h : o = none → c.Ready → e.isDefensive = false) :
    Secures c s (fun a t => t = s ∧ o = some a) (orFail e o) := by
  cases o with
  | none => exact fail (h rfl)
  | some a => exact pure ⟨rfl, rfl⟩

theorem orDangling {o : Option α} (h : c.Ready → o.isSome) :
    Secures c s (fun a t => t = s ∧ o = some a) (orDangling o) := by
  cases o with
  | none => exact throw fun hc => nomatch h hc
  | some a => exact pure ⟨rfl, rfl⟩

theorem ofExcept {r : Except CompileError α} (h : ∀ e, r = .error e → c.Ready → e.isDefensive = false) :
    Secures c s (fun a t => t = s ∧ r = .ok a) (ofExcept r) := by
  cases r with
  | error e => exact fail (h e rfl)
  | ok a => exact pure ⟨rfl, rfl⟩

theorem context (h : s.Has id) : Secures c s (fun d t => t = s ∧ s.contexts[id]? = some d) (context id) := by
  obtain ⟨d, hd⟩ := h
  refine of_reads (reads_context id) (fun e he => ⟨rfl, (of_run_context he).1⟩) fun stop he => ?_
  rw [run_context_of hd] at he
  cases he

theorem statement (h : m < s.statements.length) :
    Secures c s (fun st t => t = s ∧ s.statements[m]? = some st) (statement m) := by
  refine of_reads (reads_statement m) (fun st hst => ⟨rfl, (of_run_statement hst).1⟩) fun stop he => ?_
  rw [run_statement, List.getElem?_eq_getElem h] at he
  cases he

theorem ensureComposable (h : s.Has id) (operation : String) :
    Secures c s (fun _ t => t = s ∧ ∃ d, s.contexts[id]? = some d ∧ d.isUpdate = false)
      (ensureComposable id operation) := by
  refine (context h).read fun d hd => ?_
  split
  · exact fail fun _ => rfl
  · next hu => exact pure ⟨rfl, d, hd, Bool.eq_false_iff.mpr hu⟩

/-- A fault may be answered or passed on. It is no defensive one. -/
theorem recover_of_run {next : Except CompileError α → Build β} (h : Secures c s P act)
    (hok : ∀ a t, (act.run s).2 = t → s.Widens t → P a t → Secures c t Q (next (.ok a)))
    (herror : ∀ e t, (act.run s).2 = t → s.Widens t → (c.Ready → e.isDefensive = false) →
      Secures c t Q (next (.error e))) :
    Secures c s Q (attempt act >>= next) := by
  intro hs
  obtain ⟨hi, hw, ha, hstop⟩ := h hs
  rw [run_bind, run_attempt]
  cases hr : act.run s with
  | mk result t =>
    rw [hr] at hi hw ha hstop hok herror
    cases result with
    | ok a =>
      obtain ⟨hi', hw', ha', hstop'⟩ := hok a t rfl hw (ha a rfl) hi
      exact ⟨hi', hw.trans hw', ha', hstop'⟩
    | error stop =>
      cases stop with
      | failed e =>
        obtain ⟨hi', hw', ha', hstop'⟩ := herror e t rfl hw (hstop _ rfl) hi
        exact ⟨hi', hw.trans hw', ha', hstop'⟩
      | outOfFuel | dangling => exact ⟨hi, hw, by rintro _ ⟨⟩, by rintro _ ⟨⟩; exact hstop _ rfl⟩

theorem recover {next : Except CompileError α → Build β} (h : Secures c s P act)
    (hok : ∀ a t, s.Widens t → P a t → Secures c t Q (next (.ok a)))
    (herror : ∀ e t, s.Widens t → (c.Ready → e.isDefensive = false) → Secures c t Q (next (.error e))) :
    Secures c s Q (attempt act >>= next) :=
  h.recover_of_run (fun a t _ => hok a t) fun e t _ => herror e t

theorem inContext {text : String} (h : Secures c s P act) : Secures c s P (inContext text act) :=
  h.recover (fun _ _ _ ha => pure ha) fun _ _ _ he => fail he

/-- What each action keeps to, the list does. -/
theorem mapM {f : α → Build β} (xs : List α) (hf : ∀ x ∈ xs, ∀ t, s.Widens t → Secures c t Q (f x))
    (hq : ∀ b t u, t.Widens u → Q b t → Q b u) : Secures c s (fun bs t => ∀ b ∈ bs, Q b t) (xs.mapM f) := by
  induction xs generalizing s with
  | nil => exact pure (by simp)
  | cons x xs ih =>
    rw [List.mapM_cons]
    refine (hf x (by simp) s (.refl s)).bind fun b t ht hb => ?_
    refine (ih fun y hy u hu => hf y (by simp [hy]) u (ht.trans hu)).bind fun bs u hu hbs => pure ?_
    exact List.forall_mem_cons.mpr ⟨hq b t u hu hb, hbs⟩

theorem forM {f : α → Build PUnit} (xs : List α) (hf : ∀ x ∈ xs, ∀ t, s.Widens t → Secures c t anything (f x)) :
    Secures c s anything (xs.forM f) := by
  induction xs generalizing s with
  | nil => exact pure trivial
  | cons x xs ih =>
    exact (hf x (by simp) s (.refl s)).bind fun _ t ht _ => ih fun y hy u hu => hf y (by simp [hy]) u (ht.trans hu)

/-- The root of a path is looked up in vain if it is not in scope, never for ever. -/
theorem rootOf {scope : ContextId} (h : s.Has scope) (path : Path) :
    Secures c s (fun q t => t = s ∧ s.Sequence q) (rootOf scope path) := by
  refine of_intact fun hs => ?_
  obtain ⟨r, hr⟩ := hs.exists_binding h path.root
  have hfind : (findBinding? scope path.root).run s = (.ok r, s) := by
    change (orStop (ObjectQuery.bindingFrom s.contexts path.root s.contexts.length (some scope))).run s = _
    rw [hr]
    rfl
  refine of_reads (reads_rootOf scope path) (fun q hq => ⟨rfl, ?_⟩) fun stop he => ?_
  · rw [Build.rootOf, run_bind, hfind] at hq
    obtain ⟨rfl, -⟩ := of_run_orFail hq
    exact hs.sequence_of_bindingFrom hr
  · rw [Build.rootOf, run_bind, hfind] at he
    cases r with
    | some => cases he
    | none =>
      cases he
      exact fun _ => rfl

theorem get : Secures c s (fun u t => t = s ∧ u = s) (get : Build BuildState) := by
  refine of_reads reads_get ?_ ?_
  · rintro u ⟨⟩
    exact ⟨rfl, rfl⟩
  · rintro stop ⟨⟩

variable [Observer]

theorem write {f : BuildState → BuildState} (ht : f s = t) (hi : s.Intact c → t.Intact c) (hw : s.Widens t) :
    Secures c s (fun _ u => u = t) (write f) := by
  intro hs
  rw [run_write, ht]
  refine ⟨hi hs, hw, fun _ _ => rfl, fun stop hr _ => ?_⟩
  split at hr <;> cases hr
  trivial

theorem addContext {d : Context} (hd : s.Refers c d) (hp : ∀ id, d.parent = some id → s.Has id) :
    Secures c s (fun id t => t = s.enter d ∧ id = s.contexts.length) (addContext d) := by
  refine get.read fun u hu => ?_
  subst hu
  exact (write rfl (fun hs => hs.enter hd hp) (u.widens_enter d)).bind fun _ t _ ht => pure ⟨ht, rfl⟩

theorem addStatement {st : Statement} (hst : st.update.Intact c) :
    Secures c s (fun m t => t = { s with statements := s.statements ++ [st] } ∧ m = s.statements.length)
      (addStatement st) := by
  refine get.read fun u hu => ?_
  subst hu
  have hw : u.Widens { u with statements := u.statements ++ [st] } := ⟨.refl u, by simp⟩
  exact (write rfl (fun hs => hs.begin hst) hw).bind fun _ t _ ht => pure ⟨ht, rfl⟩

theorem nextAlias : Secures c s (fun _ t => t = s.countAlias) nextAlias := by
  refine get.read fun u hu => ?_
  subst hu
  have hw : u.Widens u.countAlias := ⟨.refl u, Nat.le_refl _⟩
  exact (write rfl (fun hs => hs.restate rfl (Nat.le_refl _) hs.assigns) hw).bind fun _ t _ ht => pure ht

theorem nextParameter : Secures c s anything nextParameter := by
  refine get.read fun u hu => ?_
  subst hu
  have hw : u.Widens { u with parameters := u.parameters + 1 } := ⟨.refl u, Nat.le_refl _⟩
  exact (write rfl (fun hs => hs.restate rfl (Nat.le_refl _) hs.assigns) hw).bind fun _ _ _ _ => pure trivial

theorem modifyStatement (hm : m < s.statements.length) {f : Statement → Statement}
    (hf : ∀ st, s.statements[m]? = some st → (f st).update.Intact c) :
    Secures c s (fun _ t => t = s.alter m f) (modifyStatement m f) := by
  have hw : s.Widens (s.alter m f) := ⟨.refl s, Nat.le_of_eq (BuildState.length_alter s m f).symm⟩
  exact (statement hm).read fun st hst => write rfl (fun hs => hs.alter m hf) hw

/-- The assignments of the statement stay as they are. -/
theorem edit (hm : m < s.statements.length) {f : Statement → Statement} (hf : ∀ st, (f st).update = st.update) :
    Secures c s (fun _ t => t = s.alter m f) (Build.modifyStatement m f) := by
  refine of_intact fun hs => modifyStatement hm fun st hst => ?_
  rw [hf]
  exact hs.assigns m st hst

theorem follow {owner : ContextId} {name : String} (ho : s.Has owner) (hid : s.Tabled id) :
    Secures c s anything (modifyContext owner (Context.follow name id)) :=
  (context ho).read fun _ _ =>
    (write rfl (fun hs => hs.follow hid) (s.widens_adjust owner (Context.core_follow name id))).any

/-- A scope over a sequence, under a parent that is there. -/
theorem lambdaScope {sequence : ContextId} (hs : s.Sequence sequence) (l : Lambda) {parent : Option ContextId}
    (hp : ∀ p, parent = some p → s.Has p) :
    Secures c s (fun id t => ∃ m row, t = s.enter (.lambda parent m [(row, sequence)]) ∧ id = s.contexts.length)
      (lambdaScope l sequence parent) := by
  refine of_intact fun hi => (orFail fun _ _ => rfl).read fun row _ => (context hs.has).read fun d hd => ?_
  have hrefers : s.Refers c (.lambda parent d.statement [(row, sequence)]) := by
    refine .of_ranges (hi.refers sequence d hd).statement rfl fun q hq => ?_
    obtain rfl := List.mem_singleton.mp hq
    exact hs
  exact (addContext hrefers hp).imp fun id t _ h => ⟨_, _, h⟩

/-- The scope is there afterwards. -/
theorem scope {sequence : ContextId} (hs : s.Sequence sequence) (l : Lambda) {parent : Option ContextId}
    (hp : ∀ p, parent = some p → s.Has p) :
    Secures c s (fun id t => t.Has id) (Build.lambdaScope l sequence parent) := by
  refine (lambdaScope hs l hp).imp fun id t _ h => ?_
  obtain ⟨m, row, rfl, rfl⟩ := h
  exact ⟨_, s.getElem?_enter_self _⟩

/-- The parent is put back, whatever the action has come to. -/
theorem withParent {d : Context} {p : Option ContextId} (hd : s.contexts[id]? = some d) (hp : s.Ends (· ≠ id) p)
    (h : Secures c (s.adjust id (Context.withParent p)) P act)
    (hext : ∀ t, (act.run (s.adjust id (Context.withParent p))).2 = t →
      (s.adjust id (Context.withParent p)).Extends t) :
    Secures c s anything (withParent id p act) := by
  refine of_intact fun hs => (context ⟨d, hd⟩).read fun e he => ?_
  obtain rfl : d = e := Option.some.inj (hd.symm.trans he)
  have hcore := Context.core_withParent p
  have hthere : s.Widens (s.adjust id (Context.withParent p)) := s.widens_adjust id hcore
  have hmodify : Secures c s (fun _ t => t = s.adjust id (Context.withParent p))
      (modifyContext id (Context.withParent p)) :=
    (context ⟨d, hd⟩).read fun _ _ => write rfl (fun _ => hs.reparent hd hp) hthere
  have hback : ∀ t, (act.run (s.adjust id (Context.withParent p))).2 = t → s.Widens t →
      ∀ result : Except CompileError α, (∀ e, result = .error e → c.Ready → e.isDefensive = false) →
      Secures c t anything (modifyContext id (Context.withParent d.parent) >>= fun _ => Build.ofExcept result) := by
    intro t ht hw result hresult
    have hrestore : Secures c t anything (modifyContext id (Context.withParent d.parent)) :=
      (context (BuildState.Has.mono ⟨d, hd⟩ hw)).read fun _ _ => (write rfl
        (fun hi => hi.restore hs hd ((hext t ht).keepsParents_restored hd))
        (t.widens_adjust id (Context.core_withParent _))).any
    exact hrestore.bind fun _ u _ _ => (ofExcept hresult).any
  refine hmodify.bind fun _ t _ ht => ?_
  subst ht
  refine h.recover_of_run (fun a t ht hw _ => ?_) fun e t ht hw he => ?_
  · exact hback t ht (hthere.trans hw) (.ok a) nofun
  · refine hback t ht (hthere.trans hw) (.error e) fun e' he' => ?_
    cases he'
    exact he

end Build.Secures

end ObjectQuery
