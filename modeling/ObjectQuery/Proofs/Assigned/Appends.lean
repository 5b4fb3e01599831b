import ObjectQuery.Proofs.Coherent
import ObjectQuery.Proofs.Enumeration.Session
import ObjectQuery.Proofs.Intact.State

/-!
What a set does to a state. It appends one item to the statement of its sequence, or it fails and leaves all
assignments as they were; and contexts are under the parents that they had.
-/
namespace ObjectQuery

open Build

/-- The assignments of every statement and the parent of every context are what they were. -/
structure BuildState.Spares (s t : BuildState) : Prop where
  update : ∀ (m : StatementId) (st : Statement), s.statements[m]? = some st →
    ∃ st', t.statements[m]? = some st' ∧ st'.update = st.update
  parent : s.KeepsParents t

/-- Of the assignments, only those of the sequence's statement have changed: one item more, of their target. -/
structure BuildState.Appends (s t : BuildState) (sequence : ContextId) : Prop where
  item : ∃ d st st' item, s.contexts[sequence]? = some d ∧ s.statements[d.statement]? = some st ∧
    t.statements[d.statement]? = some st' ∧ st'.update.items = st.update.items ++ [item] ∧
    st'.update.target = some item.column.table ∧
    ∀ (m : StatementId) (other : Statement), m ≠ d.statement → s.statements[m]? = some other →
      ∃ other', t.statements[m]? = some other' ∧ other'.update = other.update
  parent : s.KeepsParents t

namespace BuildState

variable {s t u : BuildState} {id : ContextId} {m : StatementId} {d : Context}

theorem Spares.refl (s : BuildState) : s.Spares s :=
  ⟨fun _ st h => ⟨st, h, rfl⟩, .refl s⟩

theorem Spares.trans (h : s.Spares t) (k : t.Spares u) : s.Spares u where
  update m st hm := by
    obtain ⟨st', ht, he⟩ := h.update m st hm
    obtain ⟨st'', hu, he'⟩ := k.update m st' ht
    exact ⟨st'', hu, he'.trans he⟩
  parent := h.parent.trans k.parent

theorem Extends.spares (h : s.Extends t) : s.Spares t where
  update m st hm := by
    obtain ⟨joins, -, ht⟩ := h.statements m st hm
    exact ⟨_, ht, rfl⟩
  parent := h.keepsParents

theorem Extends.spares_restored {p : Option ContextId} (hd : s.contexts[id]? = some d)
    (h : (s.adjust id (Context.withParent p)).Extends t) : s.Spares (t.adjust id (Context.withParent d.parent)) :=
  ⟨h.spares.update, h.keepsParents_restored hd⟩

def assign (s : BuildState) (m : StatementId) (item : SetItem) : BuildState :=
  (s.alter m fun st => { st with update := st.update.bind item.column.table }).alter m
    fun st => { st with update := st.update.append [item] }

theorem getElem?_assign (s : BuildState) (m k : StatementId) (item : SetItem) :
    (s.assign m item).statements[k]? = if m = k then s.statements[k]?.map fun st =>
      { st with update := (st.update.bind item.column.table).append [item] } else s.statements[k]? := by
  rw [assign, getElem?_alter, getElem?_alter]
  split
  · rw [Option.map_map]
    rfl
  · rfl

theorem Spares.appends (h : s.Spares t) (hd : s.contexts[id]? = some d) (hknown : d.statement < s.statements.length)
    {st : Statement} (hst : t.statements[d.statement]? = some st) {item : SetItem}
    (hfits : st.update.conflict? item.column.table = none) : s.Appends (t.assign d.statement item) id where
  item := by
    have hs := List.getElem?_eq_getElem hknown
    obtain ⟨st', ht, he⟩ := h.update d.statement _ hs
    obtain rfl : st = st' := Option.some.inj (hst.symm.trans ht)
    refine ⟨d, _, { st with update := (st.update.bind item.column.table).append [item] }, item, hd, hs,
      by rw [getElem?_assign, if_pos rfl, hst]; rfl, ?_, ?_, fun m other hm ho => ?_⟩
    · simp only [he, Assignments.append, Assignments.bind]
    · exact Assignments.target_bind hfits
    · rw [getElem?_assign, if_neg hm.symm]
      exact h.update m other ho
  parent := h.parent

end BuildState

namespace Build

variable {α β : Type} {s t : BuildState} {act : Build α} {next : α → Build β} {r : Except Stop α}

def Finished : Except Stop α → Prop
  | .ok _ => True
  | .error stop => ∃ e, stop = .failed e

def Sparing (act : Build α) : Prop :=
  ∀ s r t, act.run s = (r, t) → Finished r → s.Spares t

theorem Sparing.bind (h : Sparing act) (hn : ∀ a, Sparing (next a)) : Sparing (act >>= next) := by
  intro s r t hr hfin
  rw [run_bind] at hr
  cases hact : act.run s with
  | mk r' u =>
    rw [hact] at hr
    cases r' with
    | ok a => exact (h _ _ _ hact trivial).trans (hn a _ _ _ hr hfin)
    | error stop =>
      obtain ⟨rfl, rfl⟩ := Prod.mk.inj hr
      exact h _ _ _ hact hfin

theorem Derives.sparing {leaves : α → List SqlExpr} (h : Derives [] leaves act) :
    Sparing act := by
  intro s r t hr _
  have hext := (h s).1
  rw [hr] at hext
  exact hext.spares

theorem Reads.sparing (h : act.Reads) : Sparing act :=
  (Derives.of_reads h).sparing

theorem of_run_bind {r : Except Stop β} (h : (act >>= next).run s = (r, t)) (hfin : Finished r) :
    (∃ a u, act.run s = (.ok a, u) ∧ (next a).run u = (r, t)) ∨
      ∃ e, act.run s = (.error (.failed e), t) ∧ r = .error (.failed e) := by
  rw [run_bind] at h
  cases hact : act.run s with
  | mk r' u =>
    rw [hact] at h
    cases r' with
    | ok a => exact .inl ⟨a, u, rfl, h⟩
    | error stop =>
      obtain ⟨rfl, rfl⟩ := Prod.mk.inj h
      obtain ⟨e, rfl⟩ := hfin
      exact .inr ⟨e, rfl, rfl⟩

theorem of_run_read_bind {r : Except Stop β} (hr : act.Reads) (h : (act >>= next).run s = (r, t)) (hfin : Finished r) :
    (∃ a, act.run s = (.ok a, s) ∧ (next a).run s = (r, t)) ∨ (∃ e, r = .error (.failed e)) ∧ t = s := by
  have hs := hr s
  obtain ⟨a, u, hact, hnext⟩ | ⟨e, hact, he⟩ := of_run_bind h hfin
  · rw [hact] at hs
    obtain rfl : u = s := hs
    exact .inl ⟨a, hact, hnext⟩
  · rw [hact] at hs
    exact .inr ⟨⟨e, he⟩, hs⟩

theorem of_run_context_bind {id : ContextId} {next : Context → Build β} {r : Except Stop β}
    (h : (context id >>= next).run s = (r, t)) (hfin : Finished r) :
    ∃ d, s.contexts[id]? = some d ∧ (next d).run s = (r, t) := by
  obtain ⟨d, u, hc, hnext⟩ | ⟨e, hc, -⟩ := of_run_bind h hfin
  · obtain ⟨hd, rfl⟩ := of_run_context hc
    exact ⟨d, hd, hnext⟩
  · rw [run_context] at hc
    cases hd : s.contexts[id]? <;> simp [hd] at hc

theorem run_ofExcept (result : Except CompileError α) (s : BuildState) :
    (ofExcept result).run s = (result.mapError .failed, s) := by
  cases result <;> rfl

theorem of_run_attempt {result : Except CompileError α} (h : (attempt act).run s = (.ok result, t)) :
    act.run s = (result.mapError .failed, t) := by
  rw [run_attempt] at h
  cases hact : act.run s with
  | mk r u =>
    simp only [hact] at h
    cases r with
    | ok a =>
      obtain ⟨⟨⟩, rfl⟩ := Prod.mk.inj h
      rfl
    | error stop =>
      cases stop with
      | failed e =>
        obtain ⟨⟨⟩, rfl⟩ := Prod.mk.inj h
        rfl
      | outOfFuel | dangling => cases h

theorem run_attempt_ne_failed (act : Build α) (s : BuildState) (e : CompileError) (t : BuildState) :
    (attempt act).run s ≠ (.error (.failed e), t) := by
  rw [run_attempt]
  split <;> simp_all

variable [Observer]

theorem of_run_modifyContext {id : ContextId} {f : Context → Context} {r : Except Stop Unit}
    (h : (modifyContext id f).run s = (r, t)) (hfin : Finished r) : r = .ok () ∧ t = s.adjust id f := by
  rw [run_modifyContext] at h
  cases hd : s.contexts[id]? with
  | none =>
    simp only [hd] at h
    obtain ⟨rfl, rfl⟩ := Prod.mk.inj h
    obtain ⟨_, he⟩ := hfin
    cases he
  | some d =>
    simp only [hd] at h
    obtain ⟨rfl, rfl⟩ := Prod.mk.inj h
    split at hfin
    · obtain ⟨_, he⟩ := hfin
      cases he
    · next hstop => exact ⟨if_neg hstop, rfl⟩

theorem of_run_modifyStatement {m : StatementId} {f : Statement → Statement} {r : Except Stop Unit}
    (h : (modifyStatement m f).run s = (r, t)) (hfin : Finished r) : r = .ok () ∧ t = s.alter m f := by
  rw [run_modifyStatement] at h
  cases hm : s.statements[m]? with
  | none =>
    simp only [hm] at h
    obtain ⟨rfl, rfl⟩ := Prod.mk.inj h
    obtain ⟨_, he⟩ := hfin
    cases he
  | some st =>
    simp only [hm] at h
    obtain ⟨rfl, rfl⟩ := Prod.mk.inj h
    split at hfin
    · obtain ⟨_, he⟩ := hfin
      cases he
    · next hstop => exact ⟨if_neg hstop, rfl⟩

/-- An action that ends by itself under another parent has the parent put back. -/
theorem exists_of_run_withParent {id : ContextId} {p : Option ContextId} (h : (withParent id p act).run s = (r, t))
    (hfin : Finished r) : ∃ d u, s.contexts[id]? = some d ∧
      act.run (s.adjust id (Context.withParent p)) = (r, u) ∧ t = u.adjust id (Context.withParent d.parent) := by
  obtain ⟨d, hd, h⟩ := of_run_context_bind h hfin
  have hmodify : ∀ {q : Option ContextId} {next : Unit → Build α} {u : BuildState},
      (modifyContext id (Context.withParent q) >>= next).run u = (r, t) →
      (next ()).run (u.adjust id (Context.withParent q)) = (r, t) := by
    intro q next u h
    obtain ⟨_, v, hmodify, h⟩ | ⟨e, hmodify, -⟩ := of_run_bind h hfin
    · obtain ⟨-, rfl⟩ := of_run_modifyContext hmodify trivial
      exact h
    · cases (of_run_modifyContext hmodify ⟨e, rfl⟩).1
  obtain ⟨result, u, hact, h⟩ | ⟨e, hact, -⟩ := of_run_bind (hmodify h) hfin
  · have hback := hmodify h
    rw [run_ofExcept] at hback
    obtain ⟨rfl, rfl⟩ := Prod.mk.inj hback
    exact ⟨d, u, hd, of_run_attempt hact, rfl⟩
  · exact absurd hact (run_attempt_ne_failed _ _ _ _)

theorem Derives.sparing_withParent {leaves : α → List SqlExpr} {id : ContextId} {p : Option ContextId}
    (h : Derives [] leaves act) : Sparing (withParent id p act) := by
  intro s r t hr hfin
  obtain ⟨d, u, hd, hact, rfl⟩ := exists_of_run_withParent hr hfin
  have hext := (h (s.adjust id (Context.withParent p))).1
  rw [hact] at hext
  exact hext.spares_restored hd

end Build

namespace Compiler

variable [Observer] {c : Compiler} {rec : Calls} {s t : BuildState} {sequence : ContextId} {parent : Option ContextId}

/-- Until its item is complete, a set changes no assignment, and it puts the parent of its sequence back. -/
theorem sparing_setItem (h : rec.Derive) (member : Lambda) (path : Path) (operand : Argument) :
    Sparing (c.setItem rec member path operand sequence parent) := by
  have hitem : ∀ (column : ColumnId) (v : SqlExpr), Sparing (pure ⟨column, v⟩ : Build SetItem) :=
    fun column v => (reads_pure _).sparing
  cases operand with
  | lambda l =>
    refine (derives_computedColumn h path sequence).sparing.bind fun column => ?_
    refine (Derives.lambdaScope l sequence parent).sparing.bind fun scope => ?_
    exact (h.value [] scope l.body).sparing_withParent.bind fun v => hitem column v
  | value e =>
    refine (derives_settableColumn h sequence path.steps none).sparing.bind fun column => ?_
    refine (Derives.lambdaScope member sequence parent).sparing.bind fun scope => ?_
    exact (h.value [] scope e).sparing.bind fun v => hitem column v
  | «entity» | «sequence» => exact (reads_fail _).sparing

theorem of_run_bindTarget {m : StatementId} {table : TableId} {r : Except Stop Unit}
    (h : (c.bindTarget m table).run s = (r, t)) (hfin : Finished r) :
    (∃ st, s.statements[m]? = some st ∧ st.update.conflict? table = none ∧ r = .ok () ∧
      t = s.alter m fun st => { st with update := st.update.bind table }) ∨ (∃ e, r = .error (.failed e)) ∧ t = s := by
  obtain ⟨st, u, hst, hrun⟩ | ⟨e, hst, -⟩ := of_run_bind h hfin
  · obtain ⟨hst, rfl⟩ := of_run_statement hst
    split at hrun
    · next existing _ =>
      have hreads := ((reads_orDangling (c.schema.database.table? existing)).bind fun first =>
        (reads_orDangling (c.schema.database.table? table)).bind fun second =>
          reads_fail (α := Unit) (.ambiguousTarget first.name second.name)) u
      rw [hrun] at hreads
      cases r with
      | error stop => exact .inr ⟨hfin.imp fun e he => congrArg Except.error he, hreads⟩
      | ok =>
        obtain ⟨_, _, -, hrun⟩ := exists_of_run_bind hrun
        obtain ⟨_, _, -, hrun⟩ := exists_of_run_bind hrun
        cases hrun
    · next hconflict =>
      obtain ⟨rfl, rfl⟩ := of_run_modifyStatement hrun hfin
      exact .inl ⟨st, hst, hconflict, rfl, rfl⟩
  · rw [run_statement] at hst
    cases hm : s.statements[m]? <;> simp [hm] at hst

/-- A set over a sequence ends with one item more, or with a fault and no change. -/
theorem appends_or_spares_of_run_buildSet (h : rec.Derive) {node : Node} {r : Except Stop ContextId}
    (hknown : ∀ d, s.contexts[sequence]? = some d → d.statement < s.statements.length)
    (hrun : (c.buildSet rec node sequence parent).run s = (r, t)) (hfin : Finished r) :
    r = .ok sequence ∧ s.Appends t sequence ∨ (∃ e, r = .error (.failed e)) ∧ s.Spares t := by
  obtain ⟨_, -, hrun⟩ | ⟨he, rfl⟩ := of_run_read_bind (reads_ensureComposable sequence _) hrun hfin
  · split at hrun
    · next member operand _ =>
      obtain ⟨path, -, hrun⟩ | ⟨he, rfl⟩ := of_run_read_bind (reads_ofExcept _) hrun hfin
      · obtain ⟨d, hd, hrun⟩ := of_run_context_bind hrun hfin
        have hset : Sparing (c.setItem rec member path operand sequence parent) :=
          sparing_setItem h member path operand
        obtain ⟨item, u, hitem, hrun⟩ | ⟨e, hitem, he⟩ := of_run_bind hrun hfin
        · have hspares := hset _ _ _ hitem trivial
          obtain ⟨_, v, hbind, hrun⟩ | ⟨e, hbind, he⟩ := of_run_bind hrun hfin
          · obtain ⟨st, hst, hfits, -, rfl⟩ | ⟨⟨_, hfault⟩, -⟩ := of_run_bindTarget hbind trivial
            · obtain ⟨_, w, hadd, hrun⟩ | ⟨e, hadd, -⟩ := of_run_bind hrun hfin
              · obtain ⟨-, rfl⟩ := of_run_modifyStatement hadd trivial
                obtain ⟨rfl, rfl⟩ := Prod.mk.inj hrun
                exact .inl ⟨rfl, hspares.appends hd (hknown d hd) hst hfits⟩
              · cases (of_run_modifyStatement hadd ⟨e, rfl⟩).1
            · cases hfault
          · obtain ⟨_, -, -, hok, -⟩ | ⟨-, rfl⟩ := of_run_bindTarget hbind ⟨e, rfl⟩
            · cases hok
            · exact .inr ⟨⟨e, he⟩, hspares⟩
        · exact .inr ⟨⟨e, he⟩, hset _ _ _ hitem ⟨e, rfl⟩⟩
      · exact .inr ⟨he, .refl _⟩
    · obtain ⟨rfl, rfl⟩ := Prod.mk.inj hrun
      exact .inr ⟨⟨_, rfl⟩, .refl _⟩
  · exact .inr ⟨he, .refl _⟩

/-- A set that compiles appends one item to the assignments of its sequence's statement. A set that fails changes no
assignment. Either way contexts stay under their parents. -/
theorem appends_or_spares_of_run_set {admits : Node → Prop} {node : Node} {fuel : Nat} {source : Option ContextId}
    {r : Except Stop ContextId} (hs : c.Visits admits s)
    (hrun : (c.build (c.calls fuel) .set node source parent).run s = (r, t)) :
    (∀ id, r = .ok id → source = some id ∧ s.Appends t id) ∧ ∀ e, r = .error (.failed e) → s.Spares t := by
  have hknown : ∀ (id : ContextId) (d : Context), s.contexts[id]? = some d → d.statement < s.statements.length := by
    obtain ⟨τ, hsteps, rfl⟩ := hs.steps (.anything c)
    have hvalid := Steps.valid hsteps World.valid_start
    intro id d hd
    exact (hvalid.context id d hd).known
  have hset : Finished r → (∃ id, source = some id ∧ r = .ok id ∧ s.Appends t id) ∨
      (∃ e, r = .error (.failed e)) ∧ s.Spares t := by
    intro hfin
    cases source with
    | none =>
      obtain ⟨rfl, rfl⟩ := Prod.mk.inj hrun
      exact .inr ⟨⟨_, rfl⟩, .refl _⟩
    | some id =>
      obtain ⟨he, ha⟩ | h := appends_or_spares_of_run_buildSet (c.calls_derive fuel) (hknown id) hrun hfin
      · exact .inl ⟨id, rfl, he, ha⟩
      · exact .inr h
  refine ⟨fun id hr => ?_, fun e hr => ?_⟩
  · subst hr
    obtain ⟨id, rfl, ⟨⟩, ha⟩ | ⟨⟨_, he⟩, -⟩ := hset trivial
    · exact ⟨rfl, ha⟩
    · cases he
  · subst hr
    obtain ⟨_, -, he, -⟩ | ⟨-, h⟩ := hset ⟨e, rfl⟩
    · cases he
    · exact h

end Compiler

def employeesRead : BuildState :=
  ((Compiler.company.root 9 (Node.source "Employee")).run {}).2

/-- How many employees have the name of the employee's manager. -/
def namesakeCount : Expr :=
  .aggregate .count ((Node.source "Employee").filter ⟨["x"], .binary (.comparison .equal)
    (.member (.parameter "x") "name") (.member (.member (.parameter "e") "manager") "name")⟩) none

def setNames (value : Expr) : Node :=
  (Node.source "Employee").setWith ⟨["e"], .member (.parameter "e") "name"⟩ ⟨["e"], value⟩

/-- The count is assigned. An employee is no value, and by then the count has been compiled in vain. -/
theorem appends_or_spares_namesakeCount :
    ∃ t u e, (Compiler.company.build (Compiler.company.calls 9) .set (setNames namesakeCount) (some 0) none).run
        employeesRead = (.ok 0, t) ∧ employeesRead.Appends t 0 ∧
      (Compiler.company.build (Compiler.company.calls 9) .set
        (setNames (.binary (.arithmetic .add) namesakeCount (.parameter "e"))) (some 0) none).run
        employeesRead = (.error (.failed e), u) ∧ u.statements.length = 2 ∧ employeesRead.Spares u := by
  have hvisits : Compiler.company.Visits (fun _ => True) employeesRead := .root .absent 9 .start trivial
  let run (value : Expr) := (Compiler.company.build (Compiler.company.calls 9) .set (setNames value) (some 0) none).run
    employeesRead
  have hok : run namesakeCount = (.ok 0, (run namesakeCount).2) := rfl
  have hfault : ∃ e, run (.binary (.arithmetic .add) namesakeCount (.parameter "e")) =
      (.error (.failed e), (run (.binary (.arithmetic .add) namesakeCount (.parameter "e"))).2) := ⟨_, rfl⟩
  obtain ⟨e, hfault⟩ := hfault
  exact ⟨_, _, e, hok, ((Compiler.appends_or_spares_of_run_set hvisits hok).1 0 rfl).2, hfault, rfl,
    (Compiler.appends_or_spares_of_run_set hvisits hfault).2 e rfl⟩

end ObjectQuery
