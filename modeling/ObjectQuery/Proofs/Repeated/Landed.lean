import ObjectQuery.Proofs.Assigned.Denotes
import ObjectQuery.Proofs.Enumeration.Recurs
import ObjectQuery.Proofs.Joins.Links

/-!
Where associations lead. Each one that was followed has a context of its own, with rows of the association's target;
that is so in every state that a compilation passes through.
-/
namespace ObjectQuery

open Build

/-- The context is that of the association with this name of the owner's rows, and has rows of its target. -/
def Compiler.Lands (c : Compiler) (s : BuildState) (owner : ContextId) (name : String) (id : ContextId) : Prop :=
  ∃ m r e a target q, s.RowsAt owner m r ∧ c.schema.mapping.entity? r.entity = some e ∧
    e.member? name = some (.association a) ∧ c.schema.mapping.entity? a.target = some target ∧
    s.contexts[id]? = some (.association owner m name q) ∧ q.entity = target.name ∧ q.table = target.table

/-- Associations that were followed lead to their targets. -/
def Compiler.Landed (c : Compiler) (s : BuildState) : Prop :=
  ∀ owner name id, s.Follows owner name id → c.Lands s owner name id

variable {c : Compiler} {s t : BuildState} {owner id : ContextId} {name : String} {d : Context}

namespace BuildState

theorem Follows.of_enter (hd : ∀ r, d.rows? = some r → r.followed = []) (h : (s.enter d).Follows owner name id) :
    s.Follows owner name id := by
  obtain ⟨e, r, he, hr, hl⟩ := h
  obtain he | ⟨-, rfl⟩ := of_getElem?_concat he
  · exact ⟨e, r, he, hr, hl⟩
  · rw [hd r hr] at hl
    cases hl

theorem follows_withParent {k : ContextId} {p : Option ContextId} :
    (s.adjust k (Context.withParent p)).Follows owner name id ↔ s.Follows owner name id := by
  have hiff : ∀ u : BuildState, u.Follows owner name id ↔
      ∃ m r, u.RowsAt owner m r ∧ r.followed.lookup name = some id :=
    fun u => ⟨fun ⟨d, r, hd, hr, hl⟩ => ⟨_, r, ⟨d, hd, rfl, hr⟩, hl⟩,
      fun ⟨_, r, ⟨d, hd, _, hr⟩, hl⟩ => ⟨d, r, hd, hr, hl⟩⟩
  simp only [hiff, rowsAt_reparent]

/-- One more association was followed, or the same ones as before. -/
theorem Follows.of_follow {k l : ContextId} {x : String} (h : (s.adjust k (Context.follow x l)).Follows owner name id) :
    s.Follows owner name id ∨ owner = k ∧ name = x ∧ id = l := by
  obtain ⟨e, r, he, hr, hl⟩ := h
  obtain ⟨d, hd, rfl⟩ := of_getElem?_adjust he
  by_cases hk : k = owner
  · rw [if_pos hk, Context.follow_eq_followAll, Context.rows?_followAll] at hr
    obtain ⟨q, hq, rfl⟩ := Option.map_eq_some_iff.mp hr
    rw [List.lookup_append, Option.or_eq_some_iff] at hl
    obtain hl | ⟨-, hl⟩ := hl
    · exact .inl ⟨d, q, hd, hq, hl⟩
    · rw [List.lookup_cons, List.lookup_nil] at hl
      split at hl
      · next hx => exact .inr ⟨hk.symm, beq_iff_eq.mp hx, (Option.some.inj hl).symm⟩
      · cases hl
  · rw [if_neg hk] at hr
    exact .inl ⟨d, r, hd, hr, hl⟩

end BuildState

namespace Compiler

theorem Lands.mono (h : c.Lands s owner name id) (hk : s.KeepsContexts t) : c.Lands t owner name id := by
  obtain ⟨m, r, e, a, target, q, hrows, he, ha, ht, hid, hq, htable⟩ := h
  obtain ⟨f, hrows'⟩ := hrows.mono hk
  obtain ⟨d, hd, hcore⟩ := hk id _ hid
  obtain ⟨p, rfl⟩ := World.association_of_core hcore
  obtain ⟨hentity, htable'⟩ : p.entity = q.entity ∧ p.table = q.table := by
    simp only [Context.core, Context.association.injEq, Rows.mk.injEq] at hcore
    exact ⟨hcore.2.2.2.1, hcore.2.2.2.2.1⟩
  exact ⟨m, _, e, a, target, p, hrows', he, ha, ht, hd, hentity.trans hq, htable'.trans htable⟩

theorem Landed.of_contexts (h : c.Landed s) (hc : t.contexts = s.contexts) : c.Landed t := by
  intro owner name id hfollows
  refine (h owner name id ?_).mono fun k d hd => ⟨d, hc ▸ hd, rfl⟩
  obtain ⟨d, r, hd, hr⟩ := hfollows
  exact ⟨d, r, hc ▸ hd, hr⟩

theorem Landed.enter (h : c.Landed s) (hd : ∀ r, d.rows? = some r → r.followed = []) : c.Landed (s.enter d) :=
  fun owner name id hfollows => (h owner name id (hfollows.of_enter hd)).mono (s.keepsContexts_enter d)

theorem Landed.withParent (h : c.Landed s) (k : ContextId) (p : Option ContextId) :
    c.Landed (s.adjust k (Context.withParent p)) := fun owner name id hfollows =>
  (h owner name id (BuildState.follows_withParent.mp hfollows)).mono
    (s.keepsContexts_adjust k (Context.core_withParent p))

theorem Landed.follow (h : c.Landed s) (hid : c.Lands s owner name id) :
    c.Landed (s.adjust owner (Context.follow name id)) := by
  intro owner' name' id' hfollows
  refine Lands.mono ?_ (s.keepsContexts_adjust owner (Context.core_follow name id))
  obtain hold | ⟨rfl, rfl, rfl⟩ := hfollows.of_follow
  · exact h owner' name' id' hold
  · exact hid

section Note

variable {r : Rows} {a : Association} {e target : Entity}

theorem Unfollowed.lands (h : c.Unfollowed s owner name d r a target) :
    c.Lands (s.enterAssociation owner name d r a target) owner name s.contexts.length := by
  obtain ⟨e, he, ha⟩ := h.member
  have howner : s.RowsAt owner d.statement r := ⟨d, h.owns, rfl, h.rows⟩
  exact ⟨d.statement, r, e, a, target, s.nextRows target, howner.enter _, he, ha, h.leads,
    (s.joinSource d.statement r a target.table).getElem?_enter_self _, rfl, rfl⟩

theorem Landed.enterAssociation (h : c.Landed s) (owner : ContextId) (name : String) (d : Context) (r : Rows)
    (a : Association) (target : Entity) : c.Landed (s.enterAssociation owner name d r a target) :=
  Landed.enter (h.of_contexts (t := s.joinSource d.statement r a target.table) rfl) fun q hq => by
    cases hq
    rfl

theorem Landed.noteAssociation (h : c.Landed s) (hnew : c.Unfollowed s owner name d r a target) :
    c.Landed (s.noteAssociation owner name d r a target) :=
  (h.enterAssociation owner name d r a target).follow hnew.lands

/-! How following an association goes, if nothing stops it. -/

theorem Unfollowed.run_followAssociation (h : c.Unfollowed s owner name d r a target)
    (hst : d.statement < s.statements.length) :
    (c.followAssociation owner name a).run s = (.ok s.contexts.length, s.noteAssociation owner name d r a target) := by
  have hjoin := run_modifyStatement (s := s.countAlias) d.statement fun st =>
    { st with sources := st.sources.reach r a (s.nextSource target.table) }
  rw [show s.countAlias.statements[d.statement]? = _ from List.getElem?_eq_getElem hst] at hjoin
  have hnote := run_modifyContext owner (Context.follow name s.contexts.length)
    (s.enterAssociation owner name d r a target)
  rw [show (s.enterAssociation owner name d r a target).contexts[owner]? = some d from
    (List.getElem?_append_left (List.getElem?_eq_some_iff.mp h.owns).1).trans h.owns] at hnote
  rw [followAssociation, run_bind_of (run_context_of h.owns)]
  simp only [h.rows, Option.elim_some, h.unfollowed, Option.map_some, entity, h.leads, orFail, pure_bind]
  rw [run_bind_of (run_nextAlias s)]
  exact (run_bind_of hjoin).trans ((run_bind_of (run_addContext _ _)).trans (run_bind_of hnote))

theorem Unfollowed.getElem?_note (h : c.Unfollowed s owner name d r a target) :
    (s.noteAssociation owner name d r a target).contexts[s.contexts.length]? =
      some (.association owner d.statement name (s.nextRows target)) := by
  have hentered := (s.joinSource d.statement r a target.table).getElem?_enter_self
    (.association owner d.statement name (s.nextRows target))
  have hnote := BuildState.getElem?_adjust (s.enterAssociation owner name d r a target) owner s.contexts.length
    (Context.follow name s.contexts.length)
  rw [if_neg (Nat.ne_of_lt (List.getElem?_eq_some_iff.mp h.owns).1)] at hnote
  exact hnote.trans hentered

theorem of_run_followAssociation (hd : s.contexts[owner]? = some d) (hr : d.rows? = some r)
    (he : c.schema.mapping.entity? r.entity = some e) (ha : e.member? name = some (.association a))
    (hrun : (c.followAssociation owner name a).run s = (.ok id, t)) :
    s.Follows owner name id ∧ t = s ∨ ∃ target, c.Unfollowed s owner name d r a target ∧
      d.statement < s.statements.length ∧ id = s.contexts.length ∧ t = s.noteAssociation owner name d r a target := by
  cases hl : r.followed.lookup name with
  | some k =>
    have hfollows : s.Follows owner name k := ⟨d, r, hd, hr, hl⟩
    rw [Compiler.run_followAssociation hfollows a] at hrun
    cases hrun
    exact .inl ⟨hfollows, rfl⟩
  | none =>
    have hfresh := hrun
    rw [followAssociation, run_bind_of (run_context_of hd)] at hfresh
    simp only [hr, Option.elim_some, hl] at hfresh
    obtain ⟨target, s₁, hentity, halias⟩ := exists_of_run_bind hfresh
    obtain ⟨htarget, rfl⟩ := of_run_orFail hentity
    obtain ⟨_, s₂, halias, hjoins⟩ := exists_of_run_bind halias
    obtain ⟨_, _, hjoin, -⟩ := exists_of_run_bind hjoins
    rw [run_nextAlias] at halias
    cases halias
    have hst : d.statement < s₁.statements.length := by
      rw [run_modifyStatement] at hjoin
      split at hjoin
      · cases hjoin
      · next hst => exact (List.getElem?_eq_some_iff.mp hst).1
    have hnew : c.Unfollowed s₁ owner name d r a target := ⟨hd, hr, hl, ⟨e, he, ha⟩, htarget⟩
    rw [hnew.run_followAssociation hst] at hrun
    cases hrun
    exact .inr ⟨target, hnew, hst, rfl, rfl⟩

end Note

theorem landed_buildSource {parent : Option ContextId} {r : Except Stop ContextId × BuildState}
    (h : c.SourceEnds s parent r) (hs : c.Landed s) : c.Landed r.2 := by
  have hentered : ∀ e, c.Landed (s.enterSource parent e) := fun e =>
    Landed.enter (hs.of_contexts (t := s.openSource e.table) rfl) fun q hq => by
      cases hq
      rfl
  cases h with
  | unchanged => exact hs
  | counted => exact hs.of_contexts rfl
  | begun stop e => exact hs.of_contexts rfl
  | entered stop e => exact hentered e
  | opened e => exact hentered e

variable [Observer]

theorem landed_followAssociation {a : Association} {r : Except Stop ContextId × BuildState}
    (h : c.FollowEnds s owner name a r) (hs : c.Landed s) : c.Landed r.2 := by
  cases h with
  | unchanged => exact hs
  | counted => exact hs.of_contexts rfl
  | joined d r target => exact hs.of_contexts rfl
  | entered d r target => exact hs.enterAssociation owner name d r a target
  | noted d r target new => exact hs.noteAssociation new

/-- Wherever associations lead to, nothing that a compilation does changes that. -/
def landing (c : Compiler) : Law c where
  rel _ s t := c.Landed s → c.Landed t
  updated s _ t := c.Landed s → c.Landed t
  refl _ _ hs := hs
  trans h k hs := k (h hs)
  restore h k hs := k (h hs)
  resolve h := h
  weaken h _ := h
  enter s d hr _ hs := hs.enter fun r h => by simp [hr] at h
  reparent s id parent hs := hs.withParent id parent
  parameter s hs := hs.of_contexts rfl
  edit s m _ _ hs := hs.of_contexts rfl
  follow hd hr he ha hs := landed_followAssociation (ends_followAssociation hd hr he ha) hs
  source node parent s hs := landed_buildSource (c.ends_buildSource node parent) hs
  complete _ hs := hs.of_contexts rfl
  after h k hs := k (h hs)
  close _ _ h hs := (h hs).enter fun r hr => by cases hr
  refuse h _ := h

theorem landed_root (hs : c.Landed s) (fuel : Nat) (node : Node) : c.Landed ((c.root fuel node).run s).2 := by
  cases hr : (c.root fuel node).run s with
  | mk result t =>
    cases result with
    | error stop => exact rel_of_root c.landing hr hs
    | ok r =>
      cases made_of_root c.landing hr with
      | rows plain kind made => exact made hs
      | update parent m sequence context kind made => exact made hs

omit [Observer] in
theorem Visits.landed {admits : Node → Prop} (h : c.Visits admits s) : c.Landed s := by
  induction h with
  | start =>
    rintro _ _ _ ⟨d, _, hd, _⟩
    cases hd
  | root o fuel _ _ ih => exact @landed_root c _ o ih fuel _

end Compiler
end ObjectQuery
