import ObjectQuery.Proofs.Assigned.Setter
import ObjectQuery.Proofs.SetColumn
import ObjectQuery.Proofs.UpdateRoot

/-!
The sets over a source. Every set on the way to the innermost source adds one item to the statement of the sequence,
and no other operator adds any.
-/
namespace ObjectQuery

open Build

/-- The sets among the operators that the node consists of, innermost first. -/
def Node.sets : Node → List Node
  | ⟨kind, .sequence source :: operands⟩ =>
    source.sets ++ if kind = .set then [⟨kind, .sequence source :: operands⟩] else []
  | _ => []
  termination_by structural node => node

namespace Node

variable {node source : Node}

theorem sets_of_primary?_eq_none (h : node.primary? = none) : node.sets = [] := by
  obtain ⟨kind, arguments⟩ := node
  cases arguments with
  | nil => rfl
  | cons argument rest => cases argument <;> first | rfl | cases h

theorem sets_of_primary? (h : node.primary? = some source) :
    node.sets = source.sets ++ if node.kind = .set then [node] else [] := by
  obtain ⟨kind, arguments⟩ := node
  cases arguments with
  | nil => cases h
  | cons argument rest =>
    cases argument with
    | sequence inner =>
      cases h
      rfl
    | _ => cases h

theorem sets_of_kind_ne (h : node.primary? = some source) (hk : node.kind ≠ .set) : node.sets = source.sets := by
  rw [sets_of_primary? h, if_neg hk, List.append_nil]

end Node

namespace BuildState

variable {s t : BuildState} {m k : StatementId} {items : List SetItem}

/-- The statement assigns these items. -/
def Lists (s : BuildState) (m : StatementId) (items : List SetItem) : Prop :=
  ∃ st, s.statements[m]? = some st ∧ st.update.items = items

theorem Lists.mono (h : s.Lists m items) (hst : s.Extends t) : t.Lists m items := by
  obtain ⟨st, hm, rfl⟩ := h
  obtain ⟨joins, -, ht⟩ := hst.statements m st hm
  exact ⟨_, ht, rfl⟩

theorem Lists.alter (h : s.Lists m items) {f : Statement → Statement}
    (hf : ∀ st, (f st).update.items = st.update.items) : (s.alter k f).Lists m items := by
  obtain ⟨st, hm, rfl⟩ := h
  by_cases hk : k = m
  · exact ⟨f st, by rw [getElem?_alter, if_pos hk, hm, Option.map_some], hf st⟩
  · exact ⟨st, by rw [getElem?_alter, if_neg hk, hm], rfl⟩

end BuildState

namespace Build

variable {α β : Type} {known : List SqlExpr} {leaves : α → List SqlExpr}

/-- However the action ends, contexts only gain associations, and no statement gains or loses an item. -/
def Retains (act : Build α) : Prop :=
  ∀ s, s.Later (act.run s).2 ∧ ∀ m items, s.Lists m items → (act.run s).2.Lists m items

theorem Derives.retains {act : Build α} (h : Derives known leaves act) : Retains act :=
  fun s => ⟨(h s).1.later, fun _ _ hl => hl.mono (h s).1⟩

theorem Retains.later_of_run {act : Build α} {r : Except Stop α} {s t : BuildState} (h : Retains act)
    (hr : act.run s = (r, t)) : s.Later t := by
  have hs := (h s).1
  rwa [hr] at hs

theorem Retains.lists_of_run {act : Build α} {r : Except Stop α} {s t : BuildState} {m : StatementId}
    {items : List SetItem} (h : Retains act) (hl : s.Lists m items) (hr : act.run s = (r, t)) : t.Lists m items := by
  have hs := (h s).2 m items hl
  rwa [hr] at hs

theorem Retains.bind {act : Build α} {next : α → Build β} (h : Retains act) (hn : ∀ a, Retains (next a)) :
    Retains (act >>= next) := by
  intro s
  have hs := h s
  rw [run_bind]
  cases hr : act.run s with
  | mk result t =>
    rw [hr] at hs
    cases result with
    | error stop => exact hs
    | ok a => exact ⟨hs.1.trans (hn a t).1, fun m items hl => (hn a t).2 m items (hs.2 m items hl)⟩

theorem Retains.read {act : Build α} {next : α → Build β} (h : act.Reads) (hn : ∀ a, Retains (next a)) :
    Retains (act >>= next) :=
  (Derives.of_reads h : Derives [] silent act).retains.bind hn

variable [Observer]

theorem Retains.modifyStatement {m : StatementId} {f : Statement → Statement}
    (hf : ∀ st, (f st).update.items = st.update.items) : Retains (modifyStatement m f) := by
  intro s
  rw [run_modifyStatement]
  split
  · exact ⟨.refl s, fun _ _ hl => hl⟩
  · exact ⟨BuildState.later_of_eq rfl, fun _ _ hl => hl.alter hf⟩

end Build

namespace Compiler

variable [Observer] {c : Compiler} {rec : Calls} {m : StatementId} {s t : BuildState} {items : List SetItem}
  {sequence : ContextId} {parent : Option ContextId}

theorem retains_bindTarget (m : StatementId) (table : TableId) : Retains (c.bindTarget m table) := by
  refine .read (reads_statement m) fun st => ?_
  split
  · refine .read (reads_orDangling _) fun _ => .read (reads_orDangling _) fun _ => ?_
    exact (Derives.fail _ : Derives [] silent _).retains
  · exact .modifyStatement fun _ => rfl

theorem retains_bindItems (m : StatementId) (items : List SetItem) :
    Retains (items.forM fun item => c.bindTarget m item.column.table) := by
  induction items with
  | nil => exact (Derives.quiet rfl : Derives [] silent _).retains
  | cons item items ih => exact (retains_bindTarget m item.column.table).bind fun _ => ih

theorem retains_restrict (h : rec.Derive) (sequence : ContextId) (l : Lambda) (parent : Option ContextId) :
    Retains (restrict rec sequence l parent) := by
  have hcondition : Derives [] Predicate.leaves (lambdaCondition rec sequence l parent) :=
    (Derives.lambdaScope l sequence parent).bind fun scope => h.condition _ scope l.body
  exact hcondition.retains.bind fun p => .read (reads_context sequence) fun d => .modifyStatement fun _ => rfl

theorem retains_selectItems (h : rec.Derive) (id : ContextId) (steps : List String) (extent : Extent) :
    Retains (selectItems rec id steps extent) := by
  have hitems : Derives [] itemLeaves (itemsOf rec id steps extent) := derives_itemsOf h id steps extent
  refine hitems.retains.bind fun items => .read (reads_context id) fun d => .read (reads_statement _) fun st => ?_
  exact Retains.bind (.modifyStatement fun _ => rfl) fun _ => (Derives.quiet rfl : Derives [] silent _).retains

theorem retains_completeUpdate (m : StatementId) : Retains (c.completeUpdate m) := by
  refine .read (reads_statement m) fun st => ?_
  dsimp only
  split
  · refine .read (reads_orDangling _) fun _ => ?_
    exact (Derives.fail _ : Derives [] silent _).retains
  · exact .modifyStatement fun _ => rfl

theorem later_of_run_modifyStatement {f : Statement → Statement} {r : Except Stop Unit}
    (h : (modifyStatement m f).run s = (r, t)) : s.Later t := by
  rw [run_modifyStatement] at h
  split at h <;> obtain rfl := congrArg Prod.snd h
  · exact .refl s
  · exact BuildState.later_of_eq rfl

/-- Items are appended in order. -/
theorem lists_of_run_addItems {more : List SetItem} (hl : s.Lists m items)
    (hrun : (addItems m more).run s = (.ok (), t)) : t.Lists m (items ++ more) := by
  obtain ⟨st, hm, rfl⟩ := hl
  rw [addItems, run_modifyStatement, hm] at hrun
  obtain rfl : s.alter m _ = t := congrArg Prod.snd hrun
  exact ⟨_, by rw [BuildState.getElem?_alter, if_pos rfl, hm, Option.map_some], rfl⟩

theorem lists_of_run_withParent {α : Type} {act : Build α} {id : ContextId} {p : Option ContextId} {a : α}
    {leaves : α → List SqlExpr} (h : Derives [] leaves act) (hl : s.Lists m items)
    (hrun : (withParent id p act).run s = (.ok a, t)) : t.Lists m items := by
  -- a change of context leaves the statements alone
  have hcontext : ∀ {f : Context → Context} {u v : BuildState}, u.Lists m items →
      (modifyContext id f).run u = (.ok (), v) → v.Lists m items := by
    intro f u v hl hr
    rw [run_modifyContext] at hr
    split at hr <;> cases congrArg Prod.snd hr <;> exact hl
  obtain ⟨d, s₁, hread, hreparent⟩ := exists_of_run_bind hrun
  obtain ⟨-, rfl⟩ := of_run_context hread
  obtain ⟨_, s₂, hmodify, hact⟩ := exists_of_run_bind hreparent
  obtain ⟨r, s₃, hattempt, hrestore⟩ := exists_of_run_bind hact
  obtain ⟨_, s₄, hmodify', hlast⟩ := exists_of_run_bind hrestore
  obtain ⟨-, rfl⟩ := of_run_ofExcept hlast
  exact hcontext ((hcontext hl hmodify).mono (h.attempt.extends_of_run hattempt)) hmodify'

/-- Compiling the value of a set adds no item yet. -/
theorem lists_of_run_setItem (h : rec.Derive) {member : Lambda} {path : Path} {operand : Argument} {item : SetItem}
    (hl : s.Lists m items) (hrun : (c.setItem rec member path operand sequence parent).run s = (.ok item, t)) :
    t.Lists m items := by
  cases operand with
  | lambda l =>
    obtain ⟨column, s₁, hcolumn, hscope⟩ := exists_of_run_bind hrun
    obtain ⟨scope, s₂, henter, hvalue⟩ := exists_of_run_bind hscope
    obtain ⟨v, s₃, hparent, hlast⟩ := exists_of_run_bind hvalue
    cases hlast
    have hl₁ := hl.mono ((derives_computedColumn h path sequence).extends_of_run hcolumn)
    have hl₂ := hl₁.mono ((Derives.lambdaScope l sequence parent).extends_of_run henter)
    exact lists_of_run_withParent (h.value [] scope l.body) hl₂ hparent
  | value e =>
    obtain ⟨column, s₁, hcolumn, hscope⟩ := exists_of_run_bind hrun
    obtain ⟨scope, s₂, henter, hvalue⟩ := exists_of_run_bind hscope
    obtain ⟨v, s₃, hvalue, hlast⟩ := exists_of_run_bind hvalue
    cases hlast
    have hl₁ := hl.mono ((derives_settableColumn h sequence path.steps none).extends_of_run hcolumn)
    have hl₂ := hl₁.mono ((Derives.lambdaScope member sequence parent).extends_of_run henter)
    exact hl₂.mono ((h.value [] scope e).extends_of_run hvalue)
  | «entity» | «sequence» => cases hrun

end Compiler

/-- The item is what the set comes to, once its source has been compiled from `s`, and is for the column that its path
leads to from there. -/
def Compiler.SetsTo [Observer] (c : Compiler) (parent : Option ContextId) (s : BuildState) (node : Node)
    (item : SetItem) : Prop :=
  ∃ source member operand path fuel sequence t u, node.primary? = some source ∧
    node.operands = [.lambda member, operand] ∧ selectedPath member = .ok path ∧
    ((c.calls fuel).sequence parent source).run s = (.ok sequence, t) ∧
    (c.setItem (c.calls fuel) member path operand sequence parent).run t = (.ok item, u) ∧
    c.AssignsTo (c.calls fuel) t sequence path operand item.column

namespace Compiler

variable [Observer] {c : Compiler} {m : StatementId} {b s t : BuildState} {items : List SetItem} {node : Node}
  {sequence id : ContextId} {parent : Option ContextId} {n : Nat}

theorem lists_of_run_buildFilter (hb : b.Builds s sequence m) (hl : s.Lists m items)
    (hrun : (buildFilter (c.calls n) node sequence parent).run s = (.ok id, t)) :
    b.Builds t id m ∧ t.Lists m items := by
  obtain ⟨_, s₁, hcomposable, hfilter⟩ := exists_of_run_bind hrun
  obtain rfl := of_run_ensureComposable hcomposable
  split at hfilter
  · next l _ =>
    obtain ⟨_, s₂, hrestrict, hlast⟩ := exists_of_run_bind hfilter
    obtain ⟨⟨⟩, rfl⟩ := Prod.mk.inj hlast
    have hcalls := c.calls_derive n
    exact ⟨(worksOn_restrict hcalls l parent).builds_of_run hb (nothing_above _ m) hrestrict,
      (retains_restrict hcalls sequence l parent).lists_of_run hl hrestrict⟩
  · cases hfilter

theorem lists_of_run_buildSelect (hb : b.Builds s sequence m) (hl : s.Lists m items)
    (hrun : (buildSelect node sequence parent).run s = (.ok id, t)) : b.Builds t id m ∧ t.Lists m items := by
  obtain ⟨_, s₁, hcomposable, hselect⟩ := exists_of_run_bind hrun
  obtain rfl := of_run_ensureComposable hcomposable
  split at hselect
  · obtain ⟨d, s₂, hcontext, henter⟩ := exists_of_run_bind hselect
    obtain ⟨hd, rfl⟩ := of_run_context hcontext
    obtain rfl := statement_eq_of_builds hb hd
    obtain ⟨rfl, rfl⟩ := of_run_addContext henter
    exact ⟨hb.enter rfl rfl, hl⟩
  · cases hselect

/-- The item comes after those of the sets before. -/
theorem lists_of_run_buildSet (hb : b.Builds s sequence m) (hl : s.Lists m items)
    (hrun : (c.buildSet (c.calls n) node sequence parent).run s = (.ok id, t)) :
    b.Builds t id m ∧ ∃ item, t.Lists m (items ++ [item]) ∧ ∃ member operand path u,
      node.operands = [.lambda member, operand] ∧ selectedPath member = .ok path ∧
      (c.setItem (c.calls n) member path operand sequence parent).run s = (.ok item, u) := by
  have hcalls := c.calls_derive n
  obtain ⟨_, s₁, hcomposable, hset⟩ := exists_of_run_bind hrun
  obtain rfl := of_run_ensureComposable hcomposable
  split at hset
  · next member operand hoperands =>
    obtain ⟨path, s₂, hselect, hread⟩ := exists_of_run_bind hset
    obtain ⟨hpath, rfl⟩ := of_run_ofExcept hselect
    obtain ⟨d, s₃, hcontext, hvalue⟩ := exists_of_run_bind hread
    obtain ⟨hd, rfl⟩ := of_run_context hcontext
    obtain rfl := statement_eq_of_builds hb hd
    obtain ⟨item, s₄, hitem, hwrite⟩ := exists_of_run_bind hvalue
    obtain ⟨_, s₅, hbind, happend⟩ := exists_of_run_bind hwrite
    obtain ⟨_, s₆, hadd, hlast⟩ := exists_of_run_bind happend
    obtain ⟨⟨⟩, rfl⟩ := Prod.mk.inj hlast
    have hbuilds : b.Builds s₆ sequence d.statement := by
      obtain ⟨hb₄, ha₄⟩ := (worksOn_setItem hcalls member path operand parent s₃ hb (nothing_above _ _)).2 _ _ hitem
      obtain ⟨hb₅, ha₅⟩ := (worksOn_bindTarget _ s₄ hb₄ ha₄).2 _ _ hbind
      exact (worksOn_addItems fun v hv => by simpa [assignedLeaves, silent] using hv).builds_of_run hb₅ ha₅ hadd
    have hl₅ := (retains_bindTarget _ _).lists_of_run (lists_of_run_setItem hcalls hl hitem) hbind
    exact ⟨hbuilds, item, lists_of_run_addItems hl₅ hadd, member, operand, path, s₄, hoperands, hpath, hitem⟩
  · cases hset

omit [Observer] in
theorem eq_set_iff_of_builderFor {b : Builder} (hb : c.builderFor node = .ok b) : b = .set ↔ node.kind = .set := by
  rw [kind_of_builderFor hb]
  cases b <;> simp [Builder.kind]

theorem lists_of_run_buildSource (hrun : (c.buildSource node parent).run s = (.ok id, t)) :
    ∃ m, s.Builds t id m ∧ t.Lists m [] := by
  have hends := c.ends_buildSource (s := s) node parent
  rw [hrun] at hends
  cases hends with
  | opened e => exact ⟨_, builds_enterSource s parent e, _, List.getElem?_concat_length .., rfl⟩

/-- The statement of a sequence has one item for each set over its innermost source. -/
theorem lists_of_run_sequence (hrun : ((c.calls n).sequence parent node).run s = (.ok id, t))
    (hk : node.kind ≠ .update) :
    ∃ m items, s.Builds t id m ∧ t.Lists m items ∧ List.Forall₂ (c.SetsTo parent s) node.sets items := by
  -- the inner node is compiled with one level less, and every builder goes on with its statement
  induction n generalizing node id t with
  | zero => cases hrun
  | succ n ih =>
    have hsequence : (c.sequence (c.calls n) parent node).run s = (.ok id, t) := hrun
    obtain ⟨b, s₁, hbuilder, hprimary⟩ := exists_of_run_bind hsequence
    obtain ⟨hb, rfl⟩ := of_run_ofExcept hbuilder
    rcases primary?_of_builderFor hb with ⟨rfl, hnone⟩ | ⟨hne, inner, hinner⟩
    · rw [primarySequence?, hnone] at hprimary
      obtain ⟨m, hbuilds, hl⟩ := lists_of_run_buildSource hprimary
      exact ⟨m, [], hbuilds, hl, by rw [Node.sets_of_primary?_eq_none hnone]; exact .nil⟩
    · rw [primarySequence?, hinner, bind_map_left] at hprimary
      obtain ⟨sequence, s₂, hsource, hbuild⟩ := exists_of_run_bind hprimary
      obtain ⟨m, items, hbuilds, hl, hall⟩ := ih hsource (kind_of_primary hrun hinner).1
      have hset := eq_set_iff_of_builderFor hb
      cases b with
      | source => exact absurd rfl hne
      | filter =>
        obtain ⟨hbuilds, hl⟩ := lists_of_run_buildFilter hbuilds hl hbuild
        exact ⟨m, items, hbuilds, hl, by rwa [Node.sets_of_kind_ne hinner (mt hset.mpr (by decide))]⟩
      | select =>
        obtain ⟨hbuilds, hl⟩ := lists_of_run_buildSelect hbuilds hl hbuild
        exact ⟨m, items, hbuilds, hl, by rwa [Node.sets_of_kind_ne hinner (mt hset.mpr (by decide))]⟩
      | update => exact absurd (kind_of_builderFor hb) hk
      | set =>
        obtain ⟨hbuilds, item, hl, member, operand, path, u, hoperands, hpath, hitem⟩ :=
          lists_of_run_buildSet hbuilds hl hbuild
        refine ⟨m, _, hbuilds, hl, ?_⟩
        rw [Node.sets_of_primary? hinner, if_pos (hset.mp rfl)]
        refine List.rel_append hall (.cons ?_ .nil)
        exact ⟨inner, member, operand, path, n, sequence, s₂, u, hinner, hoperands, hpath, hsource, hitem,
          assignsTo_of_run_setItem hitem⟩

end Compiler
end ObjectQuery
