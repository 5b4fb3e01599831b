import ObjectQuery.Proofs.Calls.Operator

/-!
Filters and sets over a source. Their conditions and items are all gathered in one statement, which is new and
which nothing else writes to.
-/
namespace ObjectQuery

open World Build

namespace Predicate

theorem conjunction_eq_always {p q : Predicate} :
    p.conjunction q = .always ↔ p = .always ∧ q = .always := by
  constructor
  · intro h
    unfold conjunction at h
    split at h
    all_goals simp_all
    split at h <;> simp_all
  · intro he
    obtain ⟨rfl, rfl⟩ := he
    rfl

/-- A condition made of several ones is trivial exactly if all of them are. -/
theorem foldl_conjunction_eq_always {ps : List Predicate} {p : Predicate} :
    ps.foldl conjunction p = .always ↔ p = .always ∧ ∀ q ∈ ps, q = .always := by
  induction ps generalizing p with
  | nil => simp
  | cons q ps ih => rw [List.foldl_cons, ih, conjunction_eq_always, List.forall_mem_cons, and_assoc]

end Predicate

/-- The node is a source with filters and sets over it. Compiled from the one state to the other, its context is
`id`, and the filters and sets come to these conditions and items. -/
inductive Compiler.Narrows (c : Compiler) (parent : Option ContextId) :
    Nat → Node → BuildState → ContextId → BuildState → List Predicate → List SetItem → Prop
  | source {depth : Nat} {node : Node} {id : ContextId} {s t : BuildState} :
    c.builderFor node = .ok .source →
    ((c.calls (depth + 1)).sequence parent node).run s = (.ok id, t) →
    Narrows c parent (depth + 1) node s id t [] []
  | filter {depth : Nat} {node inner : Node} {l : Lambda} {id : ContextId} {s t u v : BuildState}
      {p : Predicate} {conditions : List Predicate} {items : List SetItem} :
    c.builderFor node = .ok .filter → node.primary? = some inner → node.operands = [.lambda l] →
    Narrows c parent depth inner s id t conditions items →
    (lambdaCondition (c.calls depth) id l parent).run t = (.ok p, u) →
    ((c.calls (depth + 1)).sequence parent node).run s = (.ok id, v) →
    Narrows c parent (depth + 1) node s id v (conditions ++ [p]) items
  | set {depth : Nat} {node inner : Node} {member : Lambda} {operand : Argument} {path : Path}
      {id : ContextId} {s t u v : BuildState} {item : SetItem} {conditions : List Predicate}
      {items : List SetItem} :
    c.builderFor node = .ok .set → node.primary? = some inner →
    node.operands = [.lambda member, operand] → selectedPath member = .ok path →
    Narrows c parent depth inner s id t conditions items →
    (c.setItem (c.calls depth) member path operand id parent).run t = (.ok item, u) →
    ((c.calls (depth + 1)).sequence parent node).run s = (.ok id, v) →
    Narrows c parent (depth + 1) node s id v conditions (items ++ [item])

/-- The statement has the condition and the items. -/
def World.Gathers (σ : World) (m : StatementId) (condition : Predicate) (items : List SetItem) : Prop :=
  ∃ s, σ.statement? m = some s ∧ s.condition = condition ∧ s.update.items = items

variable {c : Compiler} {K : Content c} {F : StatementId → Prop} {σ τ : World} {m : StatementId}
  {condition : Predicate} {items : List SetItem}

theorem World.Gathers.of_core {s : Statement} (hs : σ.statement? m = some s) {t : Statement}
    (hc : s.core = t.core) : σ.Gathers m t.condition t.update.items := by
  have hcondition : s.core.condition = t.core.condition := by rw [hc]
  have hupdate : s.core.update = t.core.update := by rw [hc]
  exact ⟨s, hs, hcondition, congrArg Assignments.items hupdate⟩

theorem World.Gathers.frame (hg : σ.Gathers m condition items) (h : Steps c K F σ τ) (hm : ¬ F m) :
    τ.Gathers m condition items := by
  obtain ⟨s, hs, rfl, rfl⟩ := hg
  obtain ⟨t, ht, hcore⟩ := Steps.frame h hm hs
  exact .of_core ht hcore

/-- From one world to the other, the statement gathers these conditions and items after those that it has. -/
def World.Gains (σ τ : World) (m : StatementId) (conditions : List Predicate) (items : List SetItem) :
    Prop :=
  ∀ condition before, σ.Gathers m condition before →
    τ.Gathers m (conditions.foldl Predicate.conjunction condition) (before ++ items)

theorem World.Gains.trans {υ : World} {ps qs : List Predicate} {is js : List SetItem}
    (h : σ.Gains τ m ps is) (k : τ.Gains υ m qs js) : σ.Gains υ m (ps ++ qs) (is ++ js) := by
  intro condition before hg
  rw [List.foldl_append, ← List.append_assoc]
  exact k _ _ (h _ _ hg)

theorem World.Gains.frame (h : Steps c K F σ τ) (hm : ¬ F m) : σ.Gains τ m [] [] := by
  intro condition before hg
  rw [List.append_nil]
  exact hg.frame h hm

theorem World.gains_alter {f : Statement → Statement} {conditions : List Predicate}
    (hf : ∀ s, (f s).condition = conditions.foldl Predicate.conjunction s.condition ∧
      (f s).update.items = s.update.items ++ items) : σ.Gains (σ.alter m f) m conditions items := by
  intro condition before hg
  obtain ⟨s, hs, rfl, rfl⟩ := hg
  exact ⟨f s, statement?_alter_self hs f, hf s⟩

theorem World.gains_alter_of_eq {f : Statement → Statement}
    (hf : ∀ s, (f s).condition = s.condition ∧ (f s).update.items = s.update.items) :
    σ.Gains (σ.alter m f) m [] [] :=
  gains_alter fun s => by simp [hf s]

theorem World.HasRows.of_grows {id : ContextId} (hs : σ.Sited id m) (h : Grows σ τ) (hr : τ.HasRows id m) :
    σ.HasRows id m := by
  obtain ⟨d, hd, hm⟩ := hs
  obtain ⟨e, he, hcore⟩ := h.context id d hd
  obtain ⟨e', he', -, hrows⟩ := hr
  rw [he] at he'
  cases he'
  obtain ⟨r, hr⟩ := Option.isSome_iff_exists.mp hrows
  obtain ⟨f, hf⟩ := Context.rows?_of_core hcore.symm hr
  exact ⟨d, hd, hm, by simp [hf]⟩

theorem World.HasNoRows.not_hasRows {id : ContextId} (h : σ.HasNoRows id m) : ¬ σ.HasRows id m := by
  obtain ⟨d, hd, -, hn⟩ := h
  intro he
  obtain ⟨e, he, -, hr⟩ := he
  rw [hd] at he
  cases he
  rw [hn] at hr
  cases hr

theorem World.Valid.sited_lt {id : ContextId} (hv : Valid c σ) (hs : σ.Sited id m) :
    m < σ.state.statements.length := by
  obtain ⟨d, hd, rfl⟩ := hs
  exact (hv.context id d hd).known

theorem Over.other {parent : Option ContextId} {sequence id : ContextId} {number : StatementId}
    (hv : Valid c σ) (ho : Over F σ parent sequence m) (hs : σ.Sited id number) (hne : m ≠ number) :
    Over (· ≠ number) σ parent sequence m :=
  ⟨fun _ hk => Nat.ne_of_gt (Nat.lt_of_lt_of_le (hv.sited_lt hs) hk), hne, ho.sited, ho.nested⟩

namespace Compiler

variable {rec : Calls} {node : Node} {parent : Option ContextId} {sequence id : ContextId}
  {s : BuildState}

/-- Compiling an operand leaves alone what the statement has gathered. -/
theorem gains_of_holds {α : Type} {act : Build α} {P : α → World → Prop} {a : α} (hv : Valid c σ)
    (hs : σ.Sited id m) (hf : Fresh F σ)
    (h : Holds c K (σ.state.statements.length ≤ ·) σ act P) (hr : act.run σ.state = (.ok a, s)) :
    ∃ τ, Steps c K F σ τ ∧ τ.state = s ∧ P a τ ∧ σ.Gains τ m [] [] := by
  obtain ⟨τ, hsteps, he, hp⟩ := h.ends hv hr
  exact ⟨τ, Steps.mono hf hsteps, he, hp, .frame hsteps (Nat.not_le_of_lt (hv.sited_lt hs))⟩

theorem fresh_length (σ : World) : Fresh (σ.state.statements.length ≤ ·) σ :=
  fun _ hm => hm

theorem gains_buildFilter (h : rec.Respect c K) (hv : Valid c σ) (ho : Over F σ parent sequence m)
    (hrun : (buildFilter rec node sequence parent).run σ.state = (.ok id, s)) :
    id = sequence ∧ ∃ l p u τ, node.operands = [.lambda l] ∧
      (lambdaCondition rec sequence l parent).run σ.state = (.ok p, u) ∧
      Steps c K F σ τ ∧ τ.state = s ∧ σ.Gains τ m [p] [] := by
  obtain ⟨_, _, hcomposable, hoperands⟩ := exists_of_run_bind hrun
  obtain rfl := of_run_ensureComposable hcomposable
  split at hoperands
  · next l hl =>
    obtain ⟨_, _, hrestrict, hid⟩ := exists_of_run_bind hoperands
    obtain ⟨p, u, hp, hrest⟩ := exists_of_run_bind hrestrict
    obtain ⟨τ, hs, rfl, hk, hg⟩ := gains_of_holds hv ho.sited ho.fresh
      (holds_lambdaCondition h (fresh_length σ) ho.sited ho.inside l) hp
    obtain ⟨d, _, hcontext, hmodify⟩ := exists_of_run_bind hrest
    obtain ⟨hd, rfl⟩ := of_run_context hcontext
    obtain rfl := (ho.mono (Steps.grows hs)).sited.unique ⟨d, hd, rfl⟩
    have hstep : Step c K F τ _ := .restrict d.statement p ho.own hk
    obtain ⟨υ, -, rfl, rfl⟩ := (Holds.modifyStatement hstep).ends (Steps.valid hs hv) hmodify
    have hrestrict : τ.Gains (τ.alter d.statement (Statement.restrict · p)) d.statement [p] [] :=
      gains_alter fun s => ⟨rfl, (List.append_nil _).symm⟩
    cases hid
    exact ⟨rfl, l, p, _, _, hl, hp, hs.tail hstep, rfl, hg.trans hrestrict⟩
  · cases hoperands

theorem gains_addItems {table : TableId} {more : List SetItem} {t : BuildState} (hv : Valid c σ)
    (hm : F m) (ha : Assigns K σ m (some table) more)
    (hbind : (c.bindTarget m table).run σ.state = (.ok (), t))
    (hadd : (addItems m more).run t = (.ok (), s)) :
    ∃ τ, Steps c K F σ τ ∧ τ.state = s ∧ σ.Gains τ m [] more := by
  obtain ⟨τ, hs, rfl, ht, hτ⟩ := (holds_bindTarget (K := K) hm table).ends hv hbind
  have hitems : ∀ i ∈ more, τ.Targets m i.column.table := fun i hi => ((ha i hi).1 table rfl).symm ▸ ht
  obtain ⟨υ, hu, rfl, hυ⟩ := (holds_addItems hm hitems fun i hi =>
    K.value_mono (Steps.grows hs) (ha i hi).2).ends (Steps.valid hs hv) hadd
  have hbound : σ.Gains τ m [] [] := hτ ▸ gains_alter_of_eq fun s => ⟨rfl, rfl⟩
  have hadded : τ.Gains υ m [] more := hυ ▸ gains_alter fun s => ⟨rfl, rfl⟩
  exact ⟨υ, hs.trans hu, rfl, hbound.trans hadded⟩

theorem gains_buildSet (h : rec.Respect c K) (hv : Valid c σ) (ho : Over F σ parent sequence m)
    (hrun : (c.buildSet rec node sequence parent).run σ.state = (.ok id, s)) :
    id = sequence ∧ ∃ member operand path item u τ, node.operands = [.lambda member, operand] ∧
      selectedPath member = .ok path ∧
      (c.setItem rec member path operand sequence parent).run σ.state = (.ok item, u) ∧
      Steps c K F σ τ ∧ τ.state = s ∧ σ.Gains τ m [] [item] := by
  obtain ⟨_, _, hcomposable, hoperands⟩ := exists_of_run_bind hrun
  obtain rfl := of_run_ensureComposable hcomposable
  split at hoperands
  · next member operand hl =>
    obtain ⟨path, _, hselect, hrest⟩ := exists_of_run_bind hoperands
    obtain ⟨hpath, rfl⟩ := of_run_ofExcept hselect
    obtain ⟨d, _, hcontext, hrest⟩ := exists_of_run_bind hrest
    obtain ⟨hd, rfl⟩ := of_run_context hcontext
    obtain rfl := ho.sited.unique ⟨d, hd, rfl⟩
    obtain ⟨item, u, hitem, hrest⟩ := exists_of_run_bind hrest
    obtain ⟨τ, hs, rfl, hk, hg⟩ := gains_of_holds hv ho.sited ho.fresh
      (holds_setItem h (fresh_length σ) ho.sited ho.inside member path operand) hitem
    obtain ⟨_, _, hbind, hrest⟩ := exists_of_run_bind hrest
    obtain ⟨_, _, hadd, hid⟩ := exists_of_run_bind hrest
    have ha : Assigns K τ d.statement (some item.column.table) [item] := by
      intro i hi
      rw [List.mem_singleton.mp hi]
      exact ⟨fun t ht => Option.some.inj ht, hk⟩
    obtain ⟨υ, hsυ, rfl, hgυ⟩ := gains_addItems (Steps.valid hs hv) ho.own ha hbind hadd
    cases hid
    exact ⟨rfl, member, operand, path, item, _, υ, hl, hpath, hitem, hs.trans hsυ, rfl, hg.trans hgυ⟩
  · cases hoperands

theorem of_run_primarySequence {t : BuildState}
    (h : (primarySequence? rec parent node).run s = (.ok (some sequence), t)) :
    ∃ inner, node.primary? = some inner ∧ (rec.sequence parent inner).run s = (.ok sequence, t) := by
  unfold primarySequence? at h
  split at h
  · next inner hi =>
    obtain ⟨_, hr, heq⟩ := exists_of_run_map h
    cases heq
    exact ⟨inner, hi, hr⟩
  · cases h

/-- Between the two worlds the node is compiled, to a context over a new statement. If it is one of rows, the node
is narrowed by filters and sets only, and the statement has gathered what they come to. -/
structure Narrowed (c : Compiler) (fuel : Nat) (parent : Option ContextId) (node : Node) (id : ContextId)
    (m : StatementId) (σ τ : World) : Prop where
  new : σ.state.statements.length ≤ m
  sited : τ.Sited id m
  nested : τ.Nested parent m
  narrows : τ.HasRows id m → ∃ conditions items,
    c.Narrows parent fuel node σ.state id τ.state conditions items ∧
    τ.Gathers m (conditions.foldl Predicate.conjunction .always) items

namespace Narrowed

variable {depth : Nat} {inner : Node} {u : BuildState} {υ : World}

theorem filter {l : Lambda} {p : Predicate} (h : Narrowed c depth parent inner id m σ τ)
    (hb : c.builderFor node = .ok .filter) (hi : node.primary? = some inner)
    (hl : node.operands = [.lambda l])
    (hp : (lambdaCondition (c.calls depth) id l parent).run τ.state = (.ok p, u))
    (hrun : ((c.calls (depth + 1)).sequence parent node).run σ.state = (.ok id, υ.state))
    (hgrows : Grows τ υ) (hg : τ.Gains υ m [p] []) :
    Narrowed c (depth + 1) parent node id m σ υ := by
  refine ⟨h.new, h.sited.mono hgrows, h.nested.mono hgrows, fun hrows => ?_⟩
  obtain ⟨conditions, items, hnarrows, hgathers⟩ := h.narrows (.of_grows h.sited hgrows hrows)
  refine ⟨conditions ++ [p], items, .filter hb hi hl hnarrows hp hrun, ?_⟩
  rw [List.foldl_append, ← List.append_nil items]
  exact hg _ items hgathers

theorem set {member : Lambda} {operand : Argument} {path : Path} {item : SetItem}
    (h : Narrowed c depth parent inner id m σ τ) (hb : c.builderFor node = .ok .set)
    (hi : node.primary? = some inner) (hl : node.operands = [.lambda member, operand])
    (hpath : selectedPath member = .ok path)
    (hitem : (c.setItem (c.calls depth) member path operand id parent).run τ.state = (.ok item, u))
    (hrun : ((c.calls (depth + 1)).sequence parent node).run σ.state = (.ok id, υ.state))
    (hgrows : Grows τ υ) (hg : τ.Gains υ m [] [item]) :
    Narrowed c (depth + 1) parent node id m σ υ := by
  refine ⟨h.new, h.sited.mono hgrows, h.nested.mono hgrows, fun hrows => ?_⟩
  obtain ⟨conditions, items, hnarrows, hgathers⟩ := h.narrows (.of_grows h.sited hgrows hrows)
  exact ⟨_, _, .set hb hi hl hpath hnarrows hitem hrun, hg _ items hgathers⟩

/-- A context without rows puts an end to narrowing. -/
theorem of_hasNoRows {q : ContextId} (h : Narrowed c depth parent inner q m σ τ) (hgrows : Grows τ υ)
    (hn : υ.HasNoRows id m) : Narrowed c (depth + 1) parent node id m σ υ :=
  ⟨h.new, hn.sited, h.nested.mono hgrows, fun hrows => absurd hrows hn.not_hasRows⟩

end Narrowed

theorem narrowed_of_run (c : Compiler) (K : Content c) (fuel : Nat) (hv : Valid c σ) (hf : Fresh F σ)
    (hp : Placed σ parent) (hrun : ((c.calls fuel).sequence parent node).run σ.state = (.ok id, s)) :
    ∃ τ m, Steps c K F σ τ ∧ τ.state = s ∧ Narrowed c fuel parent node id m σ τ := by
  -- the inner node is compiled with one level less, and every builder goes on with its statement
  induction fuel generalizing node id s with
  | zero => cases hrun
  | succ fuel ih =>
    have h := c.calls_respect K fuel
    obtain ⟨b, _, hbuilder, hrest⟩ := exists_of_run_bind hrun
    obtain ⟨hb, rfl⟩ := of_run_ofExcept hbuilder
    obtain ⟨source, t, hprimary, hbuild⟩ := exists_of_run_bind hrest
    by_cases hsource : b = .source
    · subst hsource
      obtain ⟨τ, hs, rfl, -⟩ := (holds_primarySequence h hf hp node).ends hv hprimary
      obtain ⟨υ, ht, rfl, m, hm, hsite, hnest, x, hx, hcore⟩ :=
        (holds_buildSource (hp.mono (Steps.grows hs)) node).ends (Steps.valid hs hv) hbuild
      exact ⟨υ, m, hs.trans ht, rfl, Nat.le_trans (Steps.grows hs).length_le hm, hsite, hnest,
        fun _ => ⟨[], [], .source hb hrun, .of_core (t := .empty) hx hcore⟩⟩
    · rw [build, if_neg hsource] at hbuild
      obtain ⟨q, _, hq, hbuild⟩ := exists_of_run_bind hbuild
      obtain ⟨rfl, rfl⟩ := of_run_orFail hq
      obtain ⟨inner, hi, hinner⟩ := of_run_primarySequence hprimary
      obtain ⟨τ, m, hs, rfl, hn⟩ := ih hinner
      have hvτ := Steps.valid hs hv
      have ho : Over F τ parent q m := ⟨hf.mono (Steps.grows hs), hf m hn.new, hn.sited, hn.nested⟩
      cases b with
      | source => exact absurd rfl hsource
      | filter =>
        obtain ⟨rfl, l, p, u, υ, hl, hp, ht, rfl, hg⟩ := gains_buildFilter h hvτ ho hbuild
        exact ⟨υ, m, hs.trans ht, rfl, hn.filter hb hi hl hp hrun (Steps.grows ht) hg⟩
      | set =>
        obtain ⟨rfl, member, operand, path, item, u, υ, hl, hpath, hitem, ht, rfl, hg⟩ :=
          gains_buildSet h hvτ ho hbuild
        exact ⟨υ, m, hs.trans ht, rfl, hn.set hb hi hl hpath hitem hrun (Steps.grows ht) hg⟩
      | select =>
        obtain ⟨υ, ht, rfl, hplain⟩ := (holds_buildSelect ho node).ends hvτ hbuild
        exact ⟨υ, m, hs.trans ht, rfl, hn.of_hasNoRows (Steps.grows ht) hplain⟩
      | update =>
        obtain ⟨υ, ht, rfl, hplain⟩ := (holds_buildUpdate h ho node).ends hvτ hbuild
        exact ⟨υ, m, hs.trans ht, rfl, hn.of_hasNoRows (Steps.grows ht) hplain⟩

end Compiler
end ObjectQuery
