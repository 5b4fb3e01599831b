import ObjectQuery.Proofs.Laws.Operator
import ObjectQuery.Proofs.Targets

/-!
Updates are made by the root operator only. Whatever applies to an update refuses it, and the refusal is not a
fault about a member, so nothing takes it for an answer and goes on with a statement that was made an update.
-/
namespace ObjectQuery

open Build

def BuildState.Kinds (s t : BuildState) : Prop :=
  ∀ (k : StatementId) (st : Statement), t.statements[k]? = some st → st.kind = .update →
    ∃ st' : Statement, s.statements[k]? = some st' ∧ st'.kind = .update

/-- The statement has become an update, and no other one has. -/
structure BuildState.Updates (s : BuildState) (m : StatementId) (t : BuildState) : Prop where
  self : ∃ st : Statement, t.statements[m]? = some st ∧ st.kind = .update
  others : ∀ (k : StatementId) (st : Statement), k ≠ m → t.statements[k]? = some st → st.kind = .update →
    ∃ st' : Statement, s.statements[k]? = some st' ∧ st'.kind = .update

/-- The sequences that the operator applies to, through other operators or not. -/
inductive Node.Under (inner : Node) : Node → Prop
  | primary {node : Node} (h : node.primary? = some inner) : Under inner node
  | further {node source : Node} (h : node.primary? = some source) (hu : Under inner source) : Under inner node

/-- The query updates if its root operator does, then by its root statement only, and it is complete if this
statement has items exactly in that case and no other one has any. -/
structure CompiledQuery.UpdatesAtRoot (q : CompiledQuery) (node : Node) : Prop where
  context : ∃ d, q.contexts[q.rootContext]? = some d ∧ (d.isUpdate ↔ node.kind = .update)
  statement : ∃ st, q.statements[q.root]? = some st ∧ (st.kind = .update ↔ node.kind = .update)
  others : ∀ m st, m ≠ q.root → q.statements[m]? = some st → st.kind = .select
  under : ∀ inner : Node, inner.Under node → inner.kind ≠ .update
  complete : q.validate = .ok () ↔ ∀ m st, q.statements[m]? = some st →
    if m = q.root then (st.update.items ≠ [] ↔ st.kind = .update) else st.update.items = []

variable {c : Compiler} {node : Node} {s t u : BuildState}

namespace BuildState

theorem Kinds.refl (s : BuildState) : s.Kinds s :=
  fun _ st hst hk => ⟨st, hst, hk⟩

theorem Kinds.trans (h : s.Kinds t) (k : t.Kinds u) : s.Kinds u := by
  intro n st hst hk
  obtain ⟨st', hst', hk'⟩ := k n st hst hk
  exact h n st' hst' hk'

theorem Updates.after {m : StatementId} (h : s.Kinds t) (k : t.Updates m u) : s.Updates m u := by
  refine ⟨k.self, fun n st hn hst hk => ?_⟩
  obtain ⟨st', hst', hk'⟩ := k.others n st hn hst hk
  exact h n st' hst' hk'

theorem kinds_alter (s : BuildState) (m : StatementId) {f : Statement → Statement}
    (hf : ∀ st, (f st).kind = st.kind) : s.Kinds (s.alter m f) := by
  intro k st hst hkind
  rw [alter, List.getElem?_modify] at hst
  obtain ⟨st', hst', he⟩ := Option.map_eq_some_iff.mp hst
  refine ⟨st', hst', ?_⟩
  by_cases hk : m = k
  · rw [if_pos hk] at he
    rw [← hf, he, hkind]
  · rw [if_neg hk] at he
    rw [he, hkind]

theorem updates_alter {m : StatementId} {st : Statement} (hst : s.statements[m]? = some st) :
    s.Updates m (s.alter m fun st => { st with kind := .update }) := by
  refine ⟨⟨{ st with kind := .update }, by simp [alter, hst], rfl⟩, fun k st' hk hst' hkind => ⟨st', ?_, hkind⟩⟩
  simpa [alter, Ne.symm hk] using hst'

theorem kinds_openSource (s : BuildState) (table : TableId) : s.Kinds (s.openSource table) := by
  intro k st hst hkind
  cases of_getElem?_concat hst with
  | inl hold => exact ⟨st, hold, hkind⟩
  | inr hnew =>
    rw [hnew.2] at hkind
    cases hkind

end BuildState

namespace Compiler

variable [Observer]

theorem kinds_followAssociation {owner : ContextId} {name : String} {a : Association}
    {r : Except Stop ContextId × BuildState} (h : c.FollowEnds s owner name a r) : s.Kinds r.2 := by
  have hjoin : ∀ (m : StatementId) (r : Rows) (table : TableId), s.Kinds (s.joinSource m r a table) :=
    fun m r table => s.countAlias.kinds_alter m fun _ => rfl
  cases h with
  | unchanged | counted => exact .refl s
  | joined d r target => exact hjoin d.statement r target.table
  | entered d r target => exact hjoin d.statement r target.table
  | noted d r target => exact hjoin d.statement r target.table

omit [Observer] in
theorem kinds_buildSource {parent : Option ContextId} {r : Except Stop ContextId × BuildState}
    (h : c.SourceEnds s parent r) : s.Kinds r.2 := by
  cases h with
  | unchanged | counted => exact .refl s
  | begun stop e => exact s.kinds_openSource e.table
  | entered stop e => exact s.kinds_openSource e.table
  | opened e => exact s.kinds_openSource e.table

/-- As long as a compilation may go on, no statement has become an update but the one to be refused. -/
def rooting (c : Compiler) : Law c where
  rel o s t := (∀ stop, o = some stop → ¬ stop.Final) → s.Kinds t
  updated s m t := s.Updates m t
  refl _ s _ := .refl s
  trans h k ho := (h nofun).trans (k ho)
  restore h k ho := (h ho).trans (k nofun)
  resolve h _ := h fun stop he hfinal => by cases he; exact hfinal _ _ rfl
  weaken _ hfinal ho := absurd hfinal (ho _ rfl)
  enter s _ _ _ _ := .refl s
  reparent s _ _ _ := .refl s
  parameter s _ := .refl s
  edit s m _ hf _ := s.kinds_alter m fun st => (hf st).1
  follow hd hr he ha _ := kinds_followAssociation (ends_followAssociation hd hr he ha)
  source node parent _ _ := kinds_buildSource (c.ends_buildSource node parent)
  complete hst := BuildState.updates_alter hst
  after h k := k.after (h nofun)
  close _ _ h := ⟨h.self, h.others⟩
  refuse _ hfinal ho := absurd hfinal (ho _ rfl)

theorem kind_of_primary {fuel : Nat} {parent : Option ContextId} {id : ContextId} {inner : Node}
    (hr : ((c.calls (fuel + 1)).sequence parent node).run s = (.ok id, t)) (hp : node.primary? = some inner) :
    inner.kind ≠ .update ∧ ∃ id' t', ((c.calls fuel).sequence parent inner).run s = (.ok id', t') := by
  have hsequence : (c.sequence (c.calls fuel) parent node).run s = (.ok id, t) := hr
  obtain ⟨b, s₁, hbuilder, hrest⟩ := exists_of_run_bind hsequence
  obtain ⟨hb, rfl⟩ := of_run_ofExcept hbuilder
  rw [primarySequence?, hp, bind_map_left] at hrest
  obtain ⟨id', t', hinner, hbuild⟩ := exists_of_run_bind hrest
  have hends := (calls_obey c.rooting fuel).sequence parent inner s₁
  rw [Law.Yields, hinner] at hends
  refine ⟨?_, id', t', hinner⟩
  cases hends with
  | gives contexts made =>
    cases made with
    | rows plain kind made => exact kind
    | update p m sequence context kind made =>
      -- whatever applies to an update refuses it, so the operator cannot have compiled
      have hne : b ≠ .source := by
        intro he
        have hnone := primary?_of_builderFor hb
        simp [he, hp] at hnone
      obtain ⟨stop, -, hrefuses⟩ := refuses_build (c := c) hne context rfl (c.calls fuel) node parent
      rw [hrefuses] at hbuild
      cases hbuild

theorem kind_of_under {fuel : Nat} {parent : Option ContextId} {id : ContextId}
    (hr : ((c.calls fuel).sequence parent node).run s = (.ok id, t)) {inner : Node} (hu : inner.Under node) :
    inner.kind ≠ .update := by
  induction hu generalizing fuel id t with
  | primary h =>
    cases fuel with
    | zero => cases hr
    | succ fuel => exact (kind_of_primary hr h).1
  | further h hu ih =>
    cases fuel with
    | zero => cases hr
    | succ fuel =>
      obtain ⟨-, id', t', hsource⟩ := kind_of_primary hr h
      exact ih hsource

end Compiler

/-! What validation asks for. -/

theorem forM_eq_ok {α ε : Type} {f : α → Except ε Unit} {xs : List α} :
    xs.forM f = .ok () ↔ ∀ x ∈ xs, f x = .ok () := by
  induction xs with
  | nil => exact iff_of_true rfl nofun
  | cons x xs ih =>
    rw [List.forall_mem_cons, ← ih]
    constructor
    · intro h
      obtain ⟨a, ha, h⟩ := bind_eq_ok_iff.mp h
      exact ⟨ha, h⟩
    · intro h
      have hcons : (x :: xs).forM f = (f x >>= fun _ => xs.forM f) := rfl
      rw [hcons, h.1]
      exact h.2

/-- Items that have a target are what makes an update complete, and a selection incomplete. -/
theorem Statement.validate_eq_ok_iff {st : Statement} (ho : st.update.OfTarget) :
    st.validate = .ok () ↔ (st.update.items ≠ [] ↔ st.kind = .update) := by
  cases hk : st.kind with
  | select => by_cases hi : st.update.items = [] <;> simp [validate, hk, hi]
  | update =>
    by_cases hi : st.update.items = []
    · by_cases ht : st.update.target = none <;> simp [validate, Assignments.validate, hk, hi, ht]
    · obtain ⟨table, ht, -⟩ := ho hi
      simp [validate, Assignments.validate, hk, hi, ht]

theorem CompiledQuery.validate_eq_ok_iff {q : CompiledQuery} (ho : ∀ st ∈ q.statements, st.update.OfTarget) :
    q.validate = .ok () ↔ ∀ st ∈ q.statements, (st.update.items ≠ [] ↔ st.kind = .update) := by
  rw [validate, forM_eq_ok]
  exact forall₂_congr fun st hst => Statement.validate_eq_ok_iff (ho st hst)

namespace Compiler

theorem exists_root_of_compile {fuel : Nat} {q : CompiledQuery} (h : c.compile fuel node = .ok q) :
    (∃ d, q.contexts[q.rootContext]? = some d ∧ d.statement = q.root) ∧ (∃ st, q.statements[q.root]? = some st) ∧
      ∀ st ∈ q.statements, st.update.OfTarget := by
  obtain ⟨τ, hs, hstatements, hcontexts, hsited, -⟩ := steps_of_compile h (.anything c)
  obtain ⟨d, hd, hroot⟩ := hsited
  have hknown := ((hs.valid World.valid_start).context _ d hd).known
  have hall : ∀ m st, τ.statement? m = some st → st.update.OfTarget :=
    hs.preserve (I := fun σ => ∀ m st, σ.statement? m = some st → st.update.OfTarget) World.valid_start
      (fun m st hm => by simp [World.statement?, World.start] at hm) fun _ hstep => hstep.ofTarget
  rw [hroot, hstatements] at hknown
  refine ⟨⟨d, hcontexts ▸ hd, hroot⟩, ⟨_, List.getElem?_eq_getElem hknown⟩, fun st hst => ?_⟩
  obtain ⟨m, hm⟩ := List.mem_iff_getElem?.mp hst
  exact hall m st (by rw [World.statement?, hstatements, hm])

theorem kinds_of_compile {fuel : Nat} {q : CompiledQuery} (h : c.compile fuel node = .ok q) :
    (∃ d, q.contexts[q.rootContext]? = some d ∧ (d.isUpdate ↔ node.kind = .update)) ∧
      (∃ st, q.statements[q.root]? = some st ∧ (st.kind = .update ↔ node.kind = .update)) ∧
      ∀ m st, m ≠ q.root → q.statements[m]? = some st → st.kind = .select := by
  have hselect : ∀ st : Statement, st.kind ≠ .update → st.kind = .select := by
    intro st
    cases st.kind <;> simp
  obtain ⟨⟨d, hd, hroot⟩, ⟨st, hst⟩, -⟩ := exists_root_of_compile h
  obtain ⟨number, id, s, hrun, rfl⟩ := of_compile h
  have hnone : ∀ (k : StatementId) (st : Statement), ({} : BuildState).statements[k]? ≠ some st := by simp
  cases made_of_root c.rooting hrun with
  | rows plain kind made =>
    have hkinds : ∀ (m : StatementId) (st : Statement), s.statements[m]? = some st → st.kind ≠ .update := by
      intro m st hst hk
      obtain ⟨st', hst', -⟩ := made nofun m st hst hk
      exact hnone m st' hst'
    obtain ⟨e, he, hplain⟩ := plain
    refine ⟨⟨e, he, by simp [hplain, kind]⟩, ⟨st, hst, by simp [hkinds _ st hst, kind]⟩, fun m st _ hst => ?_⟩
    exact hselect st (hkinds m st hst)
  | update parent m sequence context kind made =>
    have hsame : d = .update parent m sequence := Option.some.inj (hd.symm.trans context)
    have hm : m = number := (congrArg Context.statement hsame).symm.trans hroot
    obtain ⟨st, hst, hk⟩ := made.self
    refine ⟨⟨_, context, by simp [Context.isUpdate, kind]⟩, ⟨st, hm ▸ hst, by simp [hk, kind]⟩, ?_⟩
    intro k st hne hst
    refine hselect st fun hk => ?_
    obtain ⟨st', hst', -⟩ := made.others k st (hm ▸ hne) hst hk
    exact hnone k st' hst'

/-- A query that compiles updates by its root statement if its root operator is an update, and not at all
otherwise; an update below the root is refused. Validation accepts it if items are where the update is, and nowhere
else. -/
theorem updatesAtRoot_of_compile {fuel : Nat} {q : CompiledQuery} (h : c.compile fuel node = .ok q) :
    q.UpdatesAtRoot node := by
  obtain ⟨hcontext, hstatement, hothers⟩ := kinds_of_compile h
  have hvalid := CompiledQuery.validate_eq_ok_iff (exists_root_of_compile h).2.2
  refine ⟨hcontext, hstatement, hothers, ?_, ?_⟩
  · intro inner hu
    obtain ⟨number, id, s, hrun, -⟩ := of_compile h
    obtain ⟨id', t, hsequence, -⟩ := exists_of_run_bind hrun
    exact kind_of_under hsequence hu
  · rw [hvalid]
    constructor
    · intro hall m st hst
      have hitems := hall st (List.mem_of_getElem? hst)
      by_cases hm : m = q.root
      · rw [if_pos hm]
        exact hitems
      · rw [if_neg hm]
        simpa [hothers m st hm hst] using hitems
    · intro hall st hmem
      obtain ⟨m, hst⟩ := List.mem_iff_getElem?.mp hmem
      have hitems := hall m st hst
      by_cases hm : m = q.root
      · rwa [if_pos hm] at hitems
      · rw [if_neg hm] at hitems
        simp [hitems, hothers m st hm hst]

end Compiler

/-- Employees cannot be renamed within a larger query, and the update itself is complete. -/
theorem updatesAtRoot_renameEmployees :
    ∃ q, Compiler.company.compile 6 renameEmployees = .ok q ∧ q.UpdatesAtRoot renameEmployees ∧
      (∃ st, q.statements[q.root]? = some st ∧ st.kind = .update) ∧ q.validate = .ok () := by
  have hcompile : ∃ q, Compiler.company.compile 6 renameEmployees = .ok q := ⟨_, rfl⟩
  obtain ⟨q, hq⟩ := hcompile
  have hroot := Compiler.updatesAtRoot_of_compile hq
  obtain ⟨st, hst, hkind⟩ := hroot.statement
  refine ⟨q, hq, hroot, ⟨st, hst, hkind.mpr rfl⟩, ?_⟩
  cases hq
  rfl

end ObjectQuery
