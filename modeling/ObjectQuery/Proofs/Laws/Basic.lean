import ObjectQuery.Compile.Operator
import ObjectQuery.Proofs.Run
import ObjectQuery.Proofs.World

/-!
Laws of a compilation: relations between the state before an action and the state after it, one for each way in
which the action can end. An action obeys a law if its parts do, so a law has to be checked for the few changes of
state that a compilation consists of. Contexts stay what they are under every law.
-/
namespace ObjectQuery

open Build

namespace BuildState

def enter (s : BuildState) (d : Context) : BuildState :=
  { s with contexts := s.contexts ++ [d] }

def adjust (s : BuildState) (id : ContextId) (f : Context → Context) : BuildState :=
  { s with contexts := s.contexts.modify id f }

def alter (s : BuildState) (m : StatementId) (f : Statement → Statement) : BuildState :=
  { s with statements := s.statements.modify m f }

/-- Every context is there, up to its parent and the associations followed from it. -/
def KeepsContexts (s t : BuildState) : Prop :=
  ∀ (id : ContextId) (d : Context), s.contexts[id]? = some d →
    ∃ e, t.contexts[id]? = some e ∧ e.core = d.core

/-- The context is there, and no update. -/
def Plain (s : BuildState) (id : ContextId) : Prop :=
  ∃ d, s.contexts[id]? = some d ∧ d.isUpdate = false

variable {s t u : BuildState}

theorem KeepsContexts.refl (s : BuildState) : s.KeepsContexts s :=
  fun _ d h => ⟨d, h, rfl⟩

theorem KeepsContexts.trans (h : s.KeepsContexts t) (k : t.KeepsContexts u) : s.KeepsContexts u := by
  intro id d hd
  obtain ⟨e, he, hed⟩ := h id d hd
  obtain ⟨f, hf, hfe⟩ := k id e he
  exact ⟨f, hf, hfe.trans hed⟩

theorem keepsContexts_enter (s : BuildState) (d : Context) : s.KeepsContexts (s.enter d) := by
  intro id e he
  have hlt := (List.getElem?_eq_some_iff.mp he).1
  exact ⟨e, (List.getElem?_append_left hlt).trans he, rfl⟩

theorem keepsContexts_adjust (s : BuildState) (id : ContextId) {f : Context → Context}
    (hf : ∀ d, (f d).core = d.core) : s.KeepsContexts (s.adjust id f) := by
  intro k d hd
  refine ⟨if id = k then f d else d, by simp [adjust, List.getElem?_modify, hd], ?_⟩
  split
  · exact hf d
  · rfl

theorem of_getElem?_adjust {id k : ContextId} {f : Context → Context} {d : Context}
    (h : (s.adjust id f).contexts[k]? = some d) :
    ∃ e, s.contexts[k]? = some e ∧ d = if id = k then f e else e := by
  rw [adjust, List.getElem?_modify] at h
  obtain ⟨e, he, hd⟩ := Option.map_eq_some_iff.mp h
  exact ⟨e, he, hd.symm⟩

theorem getElem?_enter_self (s : BuildState) (d : Context) :
    (s.enter d).contexts[s.contexts.length]? = some d := by
  simp [enter]

end BuildState

theorem Context.isUpdate_core (d : Context) : d.core.isUpdate = d.isUpdate := by
  cases d <;> rfl

theorem Context.isUpdate_eq_of_core {d e : Context} (h : e.core = d.core) : e.isUpdate = d.isUpdate := by
  rw [← isUpdate_core e, h, isUpdate_core]

theorem BuildState.Plain.mono {s t : BuildState} {id : ContextId} (h : s.Plain id) (hk : s.KeepsContexts t) :
    t.Plain id := by
  obtain ⟨d, hd, hu⟩ := h
  obtain ⟨e, he, hde⟩ := hk id d hd
  exact ⟨e, he, (Context.isUpdate_eq_of_core hde).trans hu⟩

/-- The stop is not one that a question about a member takes for an answer. -/
def Stop.Final (stop : Stop) : Prop :=
  ∀ path fault, stop ≠ .failed (.memberResolution path fault)

theorem Stop.final_outOfFuel : Stop.outOfFuel.Final := by
  rintro _ _ ⟨⟩

namespace Build

variable {α β : Type}

/-- How an action ends: with a result, or for the reason that stops it. -/
def outcome : Except Stop α → Option Stop
  | .ok _ => none
  | .error stop => some stop

/-- The action looks at the state only. -/
def Reads (act : Build α) : Prop :=
  ∀ s, (act.run s).2 = s

theorem reads_pure (a : α) : (pure a : Build α).Reads :=
  fun _ => rfl

theorem reads_throw (stop : Stop) : (throw stop : Build α).Reads :=
  fun _ => rfl

theorem Reads.bind {act : Build α} {next : α → Build β} (h : act.Reads) (hn : ∀ a, (next a).Reads) :
    (act >>= next).Reads := by
  intro s
  have hs := h s
  rw [run_bind]
  cases hr : act.run s with
  | mk result t =>
    rw [hr] at hs
    cases result with
    | error stop => exact hs
    | ok a => exact (hn a t).trans hs

theorem reads_get : (get : Build BuildState).Reads :=
  fun _ => rfl

theorem reads_fail (e : CompileError) : (fail e : Build α).Reads :=
  reads_throw _

theorem reads_orDangling (o : Option α) : (orDangling o).Reads := by
  cases o
  · exact reads_throw _
  · exact reads_pure _

theorem reads_orFail (e : CompileError) (o : Option α) : (orFail e o).Reads := by
  cases o
  · exact reads_fail e
  · exact reads_pure _

theorem reads_orStop (r : Except Stop α) : (orStop r).Reads := by
  cases r
  · exact reads_throw _
  · exact reads_pure _

theorem reads_ofExcept (r : Except CompileError α) : (ofExcept r).Reads := by
  cases r
  · exact reads_fail _
  · exact reads_pure _

theorem reads_context (id : ContextId) : (context id).Reads :=
  reads_get.bind fun _ => reads_orDangling _

theorem reads_statement (m : StatementId) : (statement m).Reads :=
  reads_get.bind fun _ => reads_orDangling _

theorem reads_rootOf (scope : ContextId) (path : Path) : (rootOf scope path).Reads := by
  have hfind : (findBinding? scope path.root).Reads := reads_get.bind fun _ => reads_orStop _
  exact hfind.bind fun _ => reads_orFail _ _

theorem reads_ensureComposable (id : ContextId) (operation : String) :
    (ensureComposable id operation).Reads := by
  refine (reads_context id).bind fun d => ?_
  split
  · exact reads_fail _
  · exact reads_pure ()

/-! The basic changes. A write that an observer stops has been made all the same. -/

variable [Observer]

theorem run_addContext (d : Context) (s : BuildState) :
    (addContext d).run s =
      (if Observer.stops (s.enter d) then .error .outOfFuel else .ok s.contexts.length, s.enter d) := by
  change (write (BuildState.enter · d) >>= fun _ => (pure s.contexts.length : Build ContextId)).run s = _
  rw [run_bind, run_write]
  by_cases h : Observer.stops (s.enter d) <;> simp [h]

/-- A context that was entered is the last one. -/
theorem of_run_addContext {d : Context} {id : ContextId} {s t : BuildState} (h : (addContext d).run s = (.ok id, t)) :
    id = s.contexts.length ∧ t = s.enter d := by
  rw [run_addContext] at h
  obtain ⟨hid, rfl⟩ := Prod.mk.inj h
  split at hid <;> cases hid
  exact ⟨rfl, rfl⟩

theorem run_modifyContext (id : ContextId) (f : Context → Context) (s : BuildState) :
    (modifyContext id f).run s =
      match s.contexts[id]? with
      | none => (.error .dangling, s)
      | some _ => (if Observer.stops (s.adjust id f) then .error .outOfFuel else .ok (), s.adjust id f) := by
  rw [modifyContext, run_bind, run_context]
  cases s.contexts[id]? with
  | none => rfl
  | some d => exact run_write _ s

theorem run_modifyStatement (m : StatementId) (f : Statement → Statement) (s : BuildState) :
    (modifyStatement m f).run s =
      match s.statements[m]? with
      | none => (.error .dangling, s)
      | some _ => (if Observer.stops (s.alter m f) then .error .outOfFuel else .ok (), s.alter m f) := by
  rw [modifyStatement, run_bind, run_statement]
  cases s.statements[m]? with
  | none => rfl
  | some st => exact run_write _ s

end Build

theorem Build.run_lambdaScope {s : BuildState} {l : Lambda} {row : String} {sequence : ContextId} {d : Context}
    (hl : l.row? = some row) (hd : s.contexts[sequence]? = some d) (parent : Option ContextId) :
    (lambdaScope l sequence parent).run s =
      (.ok s.contexts.length, s.enter (.lambda parent d.statement [(row, sequence)])) := by
  simp only [lambdaScope, hl, orFail, run_bind, run_pure, run_context_of hd, run_addContext]
  rfl

/-- The change leaves the kind of the statement and what it reads from. -/
def Statement.Edits (f : Statement → Statement) : Prop :=
  ∀ s, (f s).kind = s.kind ∧ ((f s).sources = s.sources ∨ (f s).sources = s.sources.settle)

/-- What actions may do to the state. After a result, and after a fault that a question about a member takes for an
answer, a compilation goes on; `updated` is for a query that makes its statement an update, after which the only
thing to be done with it is to refuse it. -/
structure Law [Observer] (c : Compiler) where
  rel : Option Stop → BuildState → BuildState → Prop
  updated : BuildState → StatementId → BuildState → Prop
  refl : ∀ o s, rel o s s
  trans : ∀ {o s t u}, rel none s t → rel o t u → rel o s u
  restore : ∀ {e s t u}, rel (some (.failed e)) s t → rel none t u → rel (some (.failed e)) s u
  resolve : ∀ {path fault s t}, rel (some (.failed (.memberResolution path fault))) s t → rel none s t
  weaken : ∀ {e stop s t}, rel (some (.failed e)) s t → stop.Final → rel (some stop) s t
  enter : ∀ s {d : Context}, d.rows? = none → d.isUpdate = false → rel none s (s.enter d)
  reparent : ∀ s id parent, rel none s (s.adjust id (Context.withParent parent))
  parameter : ∀ s : BuildState, rel none s { s with parameters := s.parameters + 1 }
  edit : ∀ s m {f}, Statement.Edits f → rel none s (s.alter m f)
  follow : ∀ {s : BuildState} {owner d r e name a}, s.contexts[owner]? = some d → d.rows? = some r →
    c.schema.mapping.entity? r.entity = some e → e.member? name = some (.association a) →
    rel (outcome ((c.followAssociation owner name a).run s).1) s ((c.followAssociation owner name a).run s).2
  source : ∀ node parent s,
    rel (outcome ((c.buildSource node parent).run s).1) s ((c.buildSource node parent).run s).2
  complete : ∀ {s : BuildState} {m st}, s.statements[m]? = some st →
    updated s m (s.alter m fun st => { st with kind := .update })
  after : ∀ {s t u m}, rel none s t → updated t m u → updated s m u
  close : ∀ {s t m} parent sequence, updated s m t → updated s m (t.enter (.update parent m sequence))
  refuse : ∀ {s t m stop}, updated s m t → stop.Final → rel (some stop) s t

namespace Law

variable [Observer] {c : Compiler} {L : Law c} {α β : Type} {s t : BuildState}

/-- Whichever way the action ends from that state, it ends as the law has it. -/
def Obeys (L : Law c) (s : BuildState) (act : Build α) : Prop :=
  s.KeepsContexts (act.run s).2 ∧ L.rel (outcome (act.run s).1) s (act.run s).2

def Keeps (L : Law c) (act : Build α) : Prop :=
  ∀ s, L.Obeys s act

theorem rel_of_plain {o : Option Stop} (h : L.rel none s t) : L.rel o s t :=
  L.trans h (L.refl o t)

theorem obeys_of_reads {act : Build α} (h : act.Reads) : L.Obeys s act := by
  rw [Obeys, h s]
  exact ⟨.refl s, L.refl _ s⟩

theorem Keeps.of_reads {act : Build α} (h : act.Reads) : L.Keeps act :=
  fun _ => obeys_of_reads h

theorem obeys_write {f : BuildState → BuildState} (hk : s.KeepsContexts (f s)) (h : L.rel none s (f s)) :
    L.Obeys s (write f) := by
  rw [Obeys, run_write]
  exact ⟨hk, rel_of_plain h⟩

theorem Obeys.bind {act : Build α} {next : α → Build β} (h : L.Obeys s act)
    (hn : ∀ a t, act.run s = (.ok a, t) → s.KeepsContexts t → L.Obeys t (next a)) :
    L.Obeys s (act >>= next) := by
  unfold Obeys at h ⊢
  rw [run_bind]
  cases hr : act.run s with
  | mk result t =>
    rw [hr] at h
    cases result with
    | error stop => exact h
    | ok a =>
      have hk := hn a t hr h.1
      exact ⟨h.1.trans hk.1, L.trans h.2 hk.2⟩

theorem Obeys.then {act : Build α} {next : α → Build β} (h : L.Obeys s act) (hn : ∀ a, L.Keeps (next a)) :
    L.Obeys s (act >>= next) :=
  h.bind fun a t _ _ => hn a t

theorem Keeps.bind {act : Build α} {next : α → Build β} (h : L.Keeps act) (hn : ∀ a, L.Keeps (next a)) :
    L.Keeps (act >>= next) :=
  fun s => (h s).then hn

/-- After an action that only looks at the state, what it found is known of that very state. -/
theorem Obeys.read {act : Build α} {next : α → Build β} (hr : act.Reads)
    (hn : ∀ a, act.run s = (.ok a, s) → L.Obeys s (next a)) : L.Obeys s (act >>= next) := by
  refine (obeys_of_reads hr).bind fun a t hrun _ => ?_
  have hs := hr s
  rw [hrun] at hs
  obtain rfl : t = s := hs
  exact hn a hrun

theorem Obeys.context {id : ContextId} {next : Context → Build β}
    (hn : ∀ d, s.contexts[id]? = some d → L.Obeys s (next d)) : L.Obeys s (context id >>= next) :=
  .read (reads_context id) fun d hr => hn d (of_run_context hr).1

theorem Keeps.read {act : Build α} {next : α → Build β} (hr : act.Reads) (hn : ∀ a, L.Keeps (next a)) :
    L.Keeps (act >>= next) :=
  (Keeps.of_reads hr).bind hn

theorem Keeps.pure (a : α) : L.Keeps (pure a : Build α) :=
  .of_reads (reads_pure a)

theorem Keeps.throw (stop : Stop) : L.Keeps (throw stop : Build α) :=
  .of_reads (reads_throw stop)

theorem Keeps.fail (e : CompileError) : L.Keeps (fail e : Build α) :=
  .throw _

theorem Keeps.map {act : Build α} {f : α → β} (h : L.Keeps act) : L.Keeps (f <$> act) := by
  rw [← bind_pure_comp]
  exact h.bind fun a => .pure (f a)

/-- A fault about a member may be answered; any other one is passed on. -/
theorem Keeps.recover {act : Build α} {next : Except CompileError α → Build β} (h : L.Keeps act)
    (hok : ∀ a, L.Keeps (next (.ok a)))
    (hresolve : ∀ path fault, L.Keeps (next (.error (.memberResolution path fault))))
    (hfail : ∀ e, (∀ path fault, e ≠ .memberResolution path fault) → next (.error e) = Build.fail e) :
    L.Keeps (attempt act >>= next) := by
  intro s
  have hs := h s
  unfold Obeys at hs ⊢
  rw [run_bind, run_attempt]
  cases hr : act.run s with
  | mk result t =>
    rw [hr] at hs
    -- what the action did is compatible with going on only if it gave a result or a fault about a member
    have goOn : ∀ {act : Build β}, L.Keeps act → L.rel none s t →
        s.KeepsContexts (act.run t).2 ∧ L.rel (outcome (act.run t).1) s (act.run t).2 :=
      fun hk hrel => ⟨hs.1.trans (hk t).1, L.trans hrel (hk t).2⟩
    cases result with
    | ok a => exact goOn (hok a) hs.2
    | error stop =>
      cases stop with
      | outOfFuel | dangling => exact hs
      | failed e =>
        by_cases he : ∃ path fault, e = .memberResolution path fault
        · obtain ⟨path, fault, rfl⟩ := he
          exact goOn (hresolve path fault) (L.resolve hs.2)
        · have hne := hfail e fun path fault h => he ⟨path, fault, h⟩
          simp only [hne]
          exact hs

theorem Keeps.inContext {text : String} {act : Build α} (h : L.Keeps act) :
    L.Keeps (Build.inContext text act) := by
  intro s
  have hs := h s
  unfold Obeys at hs ⊢
  rw [Build.inContext, run_bind, run_attempt]
  cases hr : act.run s with
  | mk result t =>
    rw [hr] at hs
    cases result with
    | ok a => exact hs
    | error stop =>
      cases stop with
      | outOfFuel | dangling => exact hs
      | failed e => exact ⟨hs.1, L.weaken hs.2 fun _ _ h => by cases h⟩

theorem Keeps.addContext {d : Context} (hr : d.rows? = none) (hu : d.isUpdate = false) :
    L.Keeps (addContext d) := by
  intro s
  rw [Obeys, run_addContext]
  exact ⟨s.keepsContexts_enter d, rel_of_plain (L.enter s hr hu)⟩

theorem Keeps.modifyStatement {m : StatementId} {f : Statement → Statement} (hf : Statement.Edits f) :
    L.Keeps (modifyStatement m f) :=
  .read (reads_statement m) fun _ s => obeys_write (.refl _) (L.edit s m hf)

theorem Keeps.modifyParent {id : ContextId} {parent : Option ContextId} :
    L.Keeps (modifyContext id (Context.withParent parent)) :=
  .read (reads_context id) fun _ s =>
    obeys_write (s.keepsContexts_adjust id (Context.core_withParent parent)) (L.reparent s id parent)

theorem Keeps.nextParameter : L.Keeps nextParameter := by
  refine .read reads_get fun s => ?_
  exact Keeps.bind (fun t => obeys_write (.refl t) (L.parameter t)) fun _ => .pure _

/-- After a fault the parent is put back as well, and the fault remains. -/
theorem obeys_restoreParent {id : ContextId} {parent : Option ContextId} {e : CompileError}
    (hk : s.KeepsContexts t) (h : L.rel (some (.failed e)) s t) :
    let restored := (modifyContext id (Context.withParent parent) >>= fun _ => (Build.fail e : Build α)).run t
    s.KeepsContexts restored.2 ∧ L.rel (outcome restored.1) s restored.2 := by
  dsimp only
  rw [run_bind, run_modifyContext]
  have hka := hk.trans (t.keepsContexts_adjust id (Context.core_withParent parent))
  have hra := L.restore h (L.reparent t id parent)
  cases t.contexts[id]? with
  | none => exact ⟨hk, L.weaken h fun _ _ he => by cases he⟩
  | some d =>
    by_cases hstop : Observer.stops (t.adjust id (Context.withParent parent))
    · simp only [hstop, if_true]
      exact ⟨hka, L.weaken hra fun _ _ he => by cases he⟩
    · simp only [hstop]
      exact ⟨hka, hra⟩

theorem Keeps.withParent {id : ContextId} {parent : Option ContextId} {act : Build α} (h : L.Keeps act) :
    L.Keeps (Build.withParent id parent act) := by
  refine .read (reads_context id) fun d => Keeps.modifyParent.bind fun _ s => ?_
  have hs := h s
  unfold Obeys at hs ⊢
  rw [run_bind, run_attempt]
  cases hr : act.run s with
  | mk result t =>
    rw [hr] at hs
    cases result with
    | ok a =>
      have hback : L.Keeps (modifyContext id (Context.withParent d.parent) >>= fun _ => Build.ofExcept (.ok a)) :=
        Keeps.modifyParent.bind fun _ => .pure a
      exact ⟨hs.1.trans (hback t).1, L.trans hs.2 (hback t).2⟩
    | error stop =>
      cases stop with
      | outOfFuel | dangling => exact hs
      | failed e => exact obeys_restoreParent hs.1 hs.2

theorem Keeps.mapM {f : α → Build β} (xs : List α) (hf : ∀ x, L.Keeps (f x)) : L.Keeps (xs.mapM f) := by
  induction xs with
  | nil => exact .pure []
  | cons x xs ih =>
    rw [List.mapM_cons]
    exact (hf x).bind fun b => ih.bind fun bs => .pure (b :: bs)

theorem Keeps.forM {f : α → Build PUnit} (xs : List α) (hf : ∀ x, L.Keeps (f x)) : L.Keeps (xs.forM f) := by
  induction xs with
  | nil => exact .pure ()
  | cons x xs ih =>
    exact (hf x).bind fun _ => ih

end Law

end ObjectQuery
