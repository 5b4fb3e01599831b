import ObjectQuery.Proofs.Nested.Extends

/-!
Actions that derive values: they extend the state from which they start, and the sub-queries of what they give were
known before or have been compiled by the action itself. Actions that work on a statement of their own may change it,
but only by what they have derived.
-/
namespace ObjectQuery

open Build

variable {α β : Type} {b s t u : BuildState} {known : List SqlExpr} {id : ContextId} {m : StatementId}

namespace BuildState

/-- The sub-queries among the leaves were known, or were made between the two states and select a single value. -/
def Derived (s t : BuildState) (known leaves : List SqlExpr) : Prop :=
  ∀ n, .subquery n ∈ leaves → .subquery n ∈ known ∨ s.statements.length ≤ n ∧ t.Scalar n

/-- The sub-queries among the leaves are younger than the statement and select a single value. -/
def Above (t : BuildState) (m : StatementId) (leaves : List SqlExpr) : Prop :=
  ∀ n, .subquery n ∈ leaves → m < n ∧ t.Scalar n

theorem Above.mono {leaves : List SqlExpr} (h : s.Above m leaves) (hst : s.Extends t) : t.Above m leaves :=
  fun n hn => ⟨(h n hn).1, (h n hn).2.mono hst⟩

/-- The context of a sequence under construction, with its statement; both were made since. -/
structure Builds (b s : BuildState) (id : ContextId) (m : StatementId) : Prop where
  grown : b.Extends s
  later : b.contexts.length ≤ id
  owns : b.Owns s m
  context : ∃ d, s.contexts[id]? = some d ∧ d.statement = m ∧ d.isUpdate = false
  selects : ∃ st, s.statements[m]? = some st ∧ st.kind = .select

theorem Builds.mono (h : b.Builds s id m) (hst : s.Extends t) : b.Builds t id m where
  grown := h.grown.trans hst
  later := h.later
  owns := h.owns.mono hst
  context := by
    obtain ⟨d, hd, hm, hu⟩ := h.context
    obtain ⟨more, ht⟩ := hst.contexts id d hd
    exact ⟨_, ht, by rw [d.statement_followAll, hm], by rw [d.isUpdate_followAll, hu]⟩
  selects := by
    obtain ⟨st, hm, hk⟩ := h.selects
    obtain ⟨joins, -, ht⟩ := hst.statements m st hm
    exact ⟨_, ht, hk⟩

/-- Another sequence over the same statement. -/
theorem Builds.enter (h : b.Builds s id m) {d : Context} (hm : d.statement = m) (hu : d.isUpdate = false) :
    b.Builds (s.enter d) s.contexts.length m where
  grown := h.grown.enter d
  later := h.grown.contexts_length_le
  owns := ⟨h.owns.later, h.owns.known, h.owns.unread⟩
  context := ⟨d, s.getElem?_enter_self d, hm, hu⟩
  selects := h.selects

theorem Builds.alter (h : b.Builds s id m) {f : Statement → Statement} (hf : s.Feeds m f)
    (hk : ∀ st, (f st).kind = st.kind) : b.Builds (s.alter m f) id m where
  grown := h.grown.alter h.owns hf
  later := h.later
  owns := h.owns.alter hf
  context := h.context
  selects := by
    obtain ⟨st, hm, hkind⟩ := h.selects
    exact ⟨f st, by rw [getElem?_alter, if_pos rfl, hm, Option.map_some], (hk st).trans hkind⟩

theorem Builds.reparent (h : b.Builds s id m) (p : Option ContextId) :
    b.Builds (s.adjust id (Context.withParent p)) id m where
  grown := h.grown.adjust h.later _
  later := h.later
  owns := ⟨h.owns.later, h.owns.known, h.owns.unread⟩
  context := by
    obtain ⟨d, hd, hm, hu⟩ := h.context
    refine ⟨d.withParent p, by simp [adjust, hd], ?_, ?_⟩
    · rw [← hm]
      cases d <;> rfl
    · rw [← hu]
      cases d <;> rfl
  selects := h.selects

end BuildState

namespace Build

/-- Whichever way the action ends from `s`, what was there in `b` has only been added to; a result is as said. -/
def Adds (b s : BuildState) (post : α → BuildState → Prop) (act : Build α) : Prop :=
  b.Extends (act.run s).2 ∧ ∀ a t, act.run s = (.ok a, t) → post a t

variable {act : Build α} {next : α → Build β}

theorem Adds.bind {post : α → BuildState → Prop} {after : β → BuildState → Prop} (h : Adds b s post act)
    (hn : ∀ a t, act.run s = (.ok a, t) → b.Extends t → post a t → Adds b t after (next a)) :
    Adds b s after (act >>= next) := by
  unfold Adds at h ⊢
  rw [run_bind]
  cases hr : act.run s with
  | mk result t =>
    rw [hr] at h
    cases result with
    | error stop => exact ⟨h.1, nofun⟩
    | ok a => exact hn a t hr h.1 (h.2 a t rfl)

theorem Adds.stops {post : α → BuildState → Prop} {stop : Stop} (h : b.Extends t)
    (hr : act.run s = (.error stop, t)) : Adds b s post act := by
  rw [Adds, hr]
  exact ⟨h, by rintro _ _ ⟨⟩⟩

theorem Adds.imp {post after : α → BuildState → Prop} (h : Adds b s post act)
    (hi : ∀ a t, b.Extends t → post a t → after a t) : Adds b s after act := by
  refine ⟨h.1, fun a t hr => hi a t ?_ (h.2 a t hr)⟩
  simpa only [hr] using h.1

/-- An action adds to what was there before it started. -/
theorem Adds.over {post : α → BuildState → Prop} (h : Adds s s post act) (hb : b.Extends s) :
    Adds b s (fun a t => s.Extends t ∧ post a t) act := by
  refine ⟨hb.trans h.1, fun a t hr => ⟨?_, h.2 a t hr⟩⟩
  simpa only [hr] using h.1

/-- From that state, the action derives its result from what is known. -/
def DerivesAt (s : BuildState) (known : List SqlExpr) (leaves : α → List SqlExpr) (act : Build α) : Prop :=
  Adds s s (fun a t => s.Derived t known (leaves a)) act

def Derives (known : List SqlExpr) (leaves : α → List SqlExpr) (act : Build α) : Prop :=
  ∀ s, DerivesAt s known leaves act

theorem Derives.extends_of_run {leaves : α → List SqlExpr} {r : Except Stop α} (h : Derives [] leaves act)
    (hr : act.run s = (r, t)) : s.Extends t := by
  have hext := (h s).1
  rwa [hr] at hext

/-- The result refers to nothing. -/
def silent (_ : α) : List SqlExpr := []

/-- What the result refers to, if there is one. -/
def attempted (leaves : α → List SqlExpr) : Except CompileError α → List SqlExpr
  | .ok a => leaves a
  | .error _ => []

variable {leaves : α → List SqlExpr} {after : β → List SqlExpr}

theorem derivesAt_of_reads (h : act.Reads) (hl : ∀ a n, .subquery n ∈ leaves a → .subquery n ∈ known) :
    DerivesAt s known leaves act := by
  refine ⟨?_, fun a t _ n hn => .inl (hl a n hn)⟩
  rw [h s]
  exact .refl s

theorem Derives.of_reads (h : act.Reads) : Derives known silent act :=
  fun _ => derivesAt_of_reads h fun _ _ => nofun

theorem Derives.pure {a : α} (h : ∀ n, .subquery n ∈ leaves a → .subquery n ∈ known) :
    Derives known leaves (pure a : Build α) := by
  refine fun s => ⟨.refl s, fun a t hr n hn => ?_⟩
  cases hr
  exact .inl (h n hn)

/-- Nothing is referred to. -/
theorem Derives.quiet {a : α} (h : leaves a = []) : Derives known leaves (Pure.pure a : Build α) :=
  .pure fun n hn => by rw [h] at hn; cases hn

theorem Derives.ofSubset {a : α} (h : leaves a ⊆ known) : Derives known leaves (Pure.pure a : Build α) :=
  .pure fun _ hn => h hn

theorem Derives.throw (stop : Stop) : Derives known leaves (throw stop : Build α) :=
  fun s => ⟨.refl s, nofun⟩

theorem Derives.fail (e : CompileError) : Derives known leaves (fail e : Build α) :=
  .throw _

theorem DerivesAt.bind (h : DerivesAt s known leaves act)
    (hn : ∀ a t, act.run s = (.ok a, t) → DerivesAt t (known ++ leaves a) after (next a)) :
    DerivesAt s known after (act >>= next) := by
  refine Adds.bind h fun a t hr hst ha => ((hn a t hr).over hst).imp fun b u _ ⟨htu, hb⟩ n hmem => ?_
  rcases hb n hmem with hn | ⟨hle, hsc⟩
  · rcases List.mem_append.mp hn with hn | hn
    · exact .inl hn
    · exact (ha n hn).imp_right fun ⟨hle, hsc⟩ => ⟨hle, hsc.mono htu⟩
  · exact .inr ⟨Nat.le_trans hst.length_le hle, hsc⟩

theorem Derives.bind (h : Derives known leaves act)
    (hn : ∀ a, Derives (known ++ leaves a) after (next a)) : Derives known after (act >>= next) :=
  fun s => (h s).bind fun a t _ => hn a t

/-- After an action that only looks at the state, what it found is known of that very state. -/
theorem DerivesAt.read (hr : act.Reads) (hn : ∀ a, act.run s = (.ok a, s) → DerivesAt s known after (next a)) :
    DerivesAt s known after (act >>= next) := by
  have hsilent : DerivesAt s known silent act := derivesAt_of_reads hr fun _ _ => nofun
  refine hsilent.bind fun a t hrun => ?_
  have hs := hr s
  rw [hrun] at hs
  obtain rfl : t = s := hs
  simpa [silent] using hn a hrun

theorem Derives.read (hr : act.Reads) (hn : ∀ a, Derives known after (next a)) :
    Derives known after (act >>= next) :=
  fun s => .read hr fun a _ => hn a s

/-- What refers to no more than the result does is derived as well. -/
theorem Derives.map {f : α → β} (h : Derives known leaves act)
    (hf : ∀ a, after (f a) ⊆ leaves a) : Derives known after (f <$> act) := by
  rw [← bind_pure_comp]
  exact h.bind fun a => .ofSubset fun v hv => List.mem_append_right _ (hf a hv)

theorem Derives.attempt (h : Derives known leaves act) : Derives known (attempted leaves) (attempt act) := by
  intro s
  have hs := h s
  unfold DerivesAt Adds at hs ⊢
  rw [run_attempt]
  cases hr : act.run s with
  | mk result t =>
    rw [hr] at hs
    cases result with
    | ok a =>
      refine ⟨hs.1, fun r u hru => ?_⟩
      cases hru
      exact hs.2 a t rfl
    | error stop =>
      cases stop with
      | outOfFuel | dangling => exact ⟨hs.1, nofun⟩
      | failed e =>
        refine ⟨hs.1, fun r u hru => ?_⟩
        cases hru
        exact fun _ => nofun

/-- A fault may be answered or passed on; neither refers to anything. -/
theorem Derives.recover {next : Except CompileError α → Build β} (h : Derives known leaves act)
    (hok : ∀ a, Derives (known ++ leaves a) after (next (.ok a)))
    (herror : ∀ e, Derives known after (next (.error e))) : Derives known after (Build.attempt act >>= next) := by
  refine h.attempt.bind fun r => ?_
  cases r with
  | ok a => exact hok a
  | error e => simpa [attempted] using herror e

theorem Derives.inContext {text : String} (h : Derives known leaves act) :
    Derives known leaves (inContext text act) :=
  h.recover (fun _ => .ofSubset (List.subset_append_right ..)) fun _ => .fail _

theorem Derives.ofKnown {more : List SqlExpr} (h : Derives known leaves act)
    (hm : ∀ n, .subquery n ∈ known → .subquery n ∈ more) : Derives more leaves act :=
  fun s => ⟨(h s).1, fun a t hr n hn => ((h s).2 a t hr n hn).imp_left (hm n)⟩

theorem Derives.mapM {f : α → Build β} (xs : List α)
    (hf : ∀ x ∈ xs, ∀ more, known ⊆ more → Derives more after (f x)) :
    Derives known (fun bs => bs.flatMap after) (xs.mapM f) := by
  induction xs generalizing known with
  | nil => exact .quiet rfl
  | cons x xs ih =>
    rw [List.mapM_cons]
    refine (hf x (by simp) known (List.Subset.refl _)).bind fun b => ?_
    refine (ih fun y hy more hm => hf y (by simp [hy]) more ?_).bind fun bs => .ofSubset ?_
    · exact fun v hv => hm (List.mem_append_left _ hv)
    · intro v hv
      simpa [or_assoc] using Or.inr hv

/-- Groups are derived one by one and put together. -/
theorem Derives.gather {γ : Type} {f : α → Build (List γ)} {g : γ → List SqlExpr} (xs : List α)
    (hf : ∀ x ∈ xs, ∀ more, known ⊆ more → Derives more (List.flatMap g) (f x)) :
    Derives known (List.flatMap g) (do
      let groups ← xs.mapM f
      Pure.pure groups.flatten) := by
  refine (Derives.mapM xs hf).bind fun groups => .ofSubset ?_
  have hflat : groups.flatten.flatMap g = groups.flatMap (List.flatMap g) := by
    rw [← List.flatMap_id, List.flatMap_assoc]
    rfl
  rw [hflat]
  exact List.subset_append_right ..

/-- The action works on the statement `m` of a sequence of its own, and derives its result. -/
def WorksOn (b : BuildState) (id : ContextId) (m : StatementId) (known : List SqlExpr) (leaves : α → List SqlExpr)
    (act : Build α) : Prop :=
  ∀ s, b.Builds s id m → s.Above m known →
    Adds b s (fun a t => b.Builds t id m ∧ t.Above m (known ++ leaves a)) act

theorem Derives.worksOn (h : Derives known leaves act) : WorksOn b id m known leaves act := by
  refine fun s hb ha => ((h s).over hb.grown).imp fun a t _ ⟨hst, hd⟩ => ⟨hb.mono hst, fun n hn => ?_⟩
  rcases List.mem_append.mp hn with hn | hn
  · exact ha.mono hst n hn
  · rcases hd n hn with hn | ⟨hle, hsc⟩
    · exact ha.mono hst n hn
    · exact ⟨Nat.lt_of_lt_of_le hb.owns.known hle, hsc⟩

theorem WorksOn.bind (h : WorksOn b id m known leaves act)
    (hn : ∀ a, WorksOn b id m (known ++ leaves a) after (next a)) : WorksOn b id m known after (act >>= next) := by
  refine fun s hb ha => (h s hb ha).bind fun a t _ _ ⟨hb, ha⟩ => (hn a t hb ha).imp fun r u _ ⟨hb, ha⟩ => ?_
  refine ⟨hb, fun n hn => ha n ?_⟩
  rcases List.mem_append.mp hn with hn | hn
  · exact List.mem_append_left _ (List.mem_append_left _ hn)
  · exact List.mem_append_right _ hn

theorem WorksOn.builds_of_run {a : α} (h : WorksOn b id m known leaves act) (hb : b.Builds s id m)
    (ha : s.Above m known) (hr : act.run s = (.ok a, t)) : b.Builds t id m :=
  ((h s hb ha).2 a t hr).1

theorem WorksOn.read (hr : act.Reads) (hn : ∀ a, WorksOn b id m known after (next a)) :
    WorksOn b id m known after (act >>= next) :=
  (Derives.of_reads hr).worksOn.bind fun a => by simpa [silent] using hn a

theorem WorksOn.context {next : Context → Build β} (hn : ∀ d, d.statement = m → WorksOn b id m known after (next d)) :
    WorksOn b id m known after (context id >>= next) := by
  intro s hb ha
  obtain ⟨d, hd, hm, -⟩ := hb.context
  rw [Adds, run_bind, run_context_of hd]
  exact hn d hm s hb ha

/-- What the statement itself refers to is known of it. -/
theorem WorksOn.statement {next : Statement → Build β}
    (hn : ∀ st, WorksOn b id m (known ++ st.leaves) after (next st)) :
    WorksOn b id m known after (statement m >>= next) := by
  intro s hb ha
  obtain ⟨st, hst, -⟩ := hb.selects
  have hknown : s.Above m (known ++ st.leaves) := fun n hmem =>
    (List.mem_append.mp hmem).elim (ha n) fun hmem => hb.grown.scalar m st n hb.owns.later hst hmem
  rw [Adds, run_bind, run_statement, hst, Option.elim_some]
  refine (hn st s hb hknown).imp fun r t _ ⟨hb, ha⟩ => ⟨hb, fun n hmem => ha n ?_⟩
  rcases List.mem_append.mp hmem with hmem | hmem
  · exact List.mem_append_left _ (List.mem_append_left _ hmem)
  · exact List.mem_append_right _ hmem

variable [Observer]

theorem Derives.addContext (d : Context) : Derives known silent (addContext d) := by
  intro s
  rw [DerivesAt, Adds, run_addContext]
  exact ⟨(BuildState.Extends.refl s).enter d, fun _ _ _ _ => nofun⟩

theorem Derives.nextParameter : Derives known silent nextParameter := by
  have hwrite : Derives known silent (write fun s => { s with parameters := s.parameters + 1 }) := by
    intro s
    rw [DerivesAt, Adds, run_write]
    exact ⟨BuildState.extends_of_eq rfl rfl, fun _ _ _ _ => nofun⟩
  exact .read reads_get fun s => hwrite.bind fun _ => .quiet rfl

theorem Derives.lambdaScope (l : Lambda) (sequence : ContextId) (parent : Option ContextId) :
    Derives known silent (lambdaScope l sequence parent) :=
  .read (reads_orFail _ _) fun _ => .read (reads_context _) fun _ => .addContext _

/-- The statement may be changed by what is known. -/
theorem WorksOn.modifyStatement {f : Statement → Statement} (hk : ∀ st, (f st).kind = st.kind)
    (hf : ∀ st n, .subquery n ∈ (f st).leaves → .subquery n ∈ st.leaves ∨ .subquery n ∈ known) :
    WorksOn b id m known silent (modifyStatement m f) := by
  intro s hb ha
  have hfeeds : s.Feeds m f := fun st _ n hn => (hf st n hn).imp_right (ha n)
  obtain ⟨st, hm, -⟩ := hb.selects
  rw [Adds, run_modifyStatement, hm]
  refine ⟨hb.grown.alter hb.owns hfeeds, fun a t hr => ?_⟩
  obtain rfl : s.alter m f = t := congrArg Prod.snd hr
  refine ⟨hb.alter hfeeds hk, fun n hn => ?_⟩
  have hn : .subquery n ∈ known := by simpa [silent] using hn
  exact ⟨(ha n hn).1, (ha n hn).2.alter (Nat.ne_of_lt (ha n hn).1) f⟩

theorem WorksOn.reparent (p : Option ContextId) :
    WorksOn b id m known silent (modifyContext id (Context.withParent p)) := by
  intro s hb ha
  obtain ⟨d, hd, -, -⟩ := hb.context
  have hbuilds := hb.reparent p
  rw [Adds, run_modifyContext, hd]
  refine ⟨hbuilds.grown, fun a t hr => ?_⟩
  obtain rfl : s.adjust id (Context.withParent p) = t := congrArg Prod.snd hr
  exact ⟨hbuilds, fun n hn => ha n (by simpa [silent] using hn)⟩

theorem WorksOn.withParent {p : Option ContextId} (h : ∀ known, Derives known leaves act) :
    WorksOn b id m known leaves (withParent id p act) := by
  refine .read (reads_context id) fun d => (WorksOn.reparent p).bind fun _ => ?_
  refine (h _).attempt.worksOn.bind fun r => (WorksOn.reparent d.parent).bind fun _ => Derives.worksOn ?_
  cases r with
  | ok a => exact .ofSubset fun v hv => by simp [attempted, hv]
  | error e => exact .fail e

end Build
end ObjectQuery
