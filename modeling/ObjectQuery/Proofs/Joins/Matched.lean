import ObjectQuery.Proofs.Coherent
import ObjectQuery.Proofs.Joins.Linked
import ObjectQuery.Proofs.Laws.Operator
import ObjectQuery.Proofs.Reached

/-!
Joins stay matched with contexts whatever a compilation does. Only following an association brings in a join, and
it enters the context of the joined rows before anything else is done.
-/
namespace ObjectQuery

open Build

/-- The state is one in the middle of bringing in the rows of an association that was not followed yet: the join is
there, and its context is either not entered or not noted at its owner. -/
inductive Compiler.Introduces (c : Compiler) (s : BuildState) : BuildState → Prop
  | joined {owner : ContextId} {name : String} {d : Context} {r : Rows} {a : Association} {target : Entity}
      (new : c.Unfollowed s owner name d r a target) : Introduces c s (s.joinSource d.statement r a target.table)
  | entered {owner : ContextId} {name : String} {d : Context} {r : Rows} {a : Association} {target : Entity}
      (new : c.Unfollowed s owner name d r a target) : Introduces c s (s.enterAssociation owner name d r a target)

variable {c : Compiler} {s : BuildState} {node : Node}

namespace Compiler

/-- The joins of the state are matched, or an observer stops in the middle of bringing in an association. -/
def LinkedAt [Observer] (c : Compiler) (o : Option Stop) (t : BuildState) : Prop :=
  c.Linked t ∨ (o = some .outOfFuel ∧ Observer.stops t ∧ ∃ u, c.Linked u ∧ c.Introduces u t)

theorem linked_buildSource {parent : Option ContextId} {r : Except Stop ContextId × BuildState}
    (h : c.SourceEnds s parent r) (hs : c.Linked s) : c.Linked r.2 := by
  cases h with
  | unchanged => exact hs
  | counted => exact hs.countAlias
  | begun stop e => exact hs.openSource e.table
  | entered stop e => exact hs.enterSource parent e
  | opened e => exact hs.enterSource parent e

section Observer

variable [Observer] {o : Option Stop}

theorem LinkedAt.linked (h : c.LinkedAt o t) (ho : o ≠ some .outOfFuel) : c.Linked t := by
  cases h with
  | inl h => exact h
  | inr h => exact absurd h.1 ho

theorem linkedAt_followAssociation {owner : ContextId} {name : String} {a : Association}
    {r : Except Stop ContextId × BuildState} (h : c.FollowEnds s owner name a r) (hs : c.Linked s) :
    c.LinkedAt (outcome r.1) r.2 := by
  cases h with
  | unchanged => exact .inl hs
  | counted => exact .inl hs.countAlias
  | joined d r target new stops => exact .inr ⟨rfl, stops, s, hs, .joined new⟩
  | entered d r target new stops => exact .inr ⟨rfl, stops, s, hs, .entered new⟩
  | noted d r target new => exact .inl (hs.noteAssociation new)

def linking (c : Compiler) : Law c where
  rel o s t := c.Linked s → c.LinkedAt o t
  updated s _ t := c.Linked s → c.Linked t
  refl _ _ := .inl
  trans h k hs := k ((h hs).linked nofun)
  restore h k hs := .inl ((k ((h hs).linked nofun)).linked nofun)
  resolve h hs := .inl ((h hs).linked nofun)
  weaken h _ hs := .inl ((h hs).linked nofun)
  enter s d hr hu hs := by
    refine .inl (hs.enter ?_ fun r he => ?_)
    · cases d <;> simp_all [Context.link?, Context.rows?]
    · simp [hr] at he
  reparent s id parent hs := .inl (hs.reparent id parent)
  parameter s hs := .inl (hs.of_contexts rfl (fun _ => rfl) (Nat.le_refl _))
  edit s m _ hf hs := .inl (hs.alter fun st => (hf st).2)
  follow hd hr he ha hs := linkedAt_followAssociation (ends_followAssociation hd hr he ha) hs
  source node parent s hs := .inl (linked_buildSource (c.ends_buildSource node parent) hs)
  complete _ hs := hs.alter fun _ => .inl rfl
  after h k hs := k ((h hs).linked nofun)
  close _ _ h hs := (h hs).enter rfl nofun
  refuse h _ hs := .inl (h hs)

theorem linkedAt_of_ends {r : Except Stop ContextId × BuildState} (h : c.linking.Ends node s r) (hs : c.Linked s) :
    c.LinkedAt (outcome r.1) r.2 := by
  cases h with
  | stops contexts stopped => exact stopped hs
  | gives contexts made =>
    cases made with
    | rows plain kind made => exact made hs
    | update parent m sequence context kind made => exact .inl (made hs)

theorem linkedAt_root (c : Compiler) (fuel : Nat) (node : Node) :
    c.LinkedAt (outcome ((c.root fuel node).run {}).1) ((c.root fuel node).run {}).2 := by
  have hends := linkedAt_of_ends (yields_root c.linking fuel node {}) c.linked_empty
  rw [run_map] at hends
  cases hr : (c.root fuel node).run {} with
  | mk result t =>
    rw [hr] at hends
    cases result <;> exact hends

end Observer

/-- If nobody stops the compilation the joins are matched. -/
theorem LinkedAt.of_absent {o : Option Stop} {t : BuildState} (h : c.LinkedAt o t) : c.Linked t := by
  cases h with
  | inl h => exact h
  | inr h => exact absurd h.2.1 nofun

theorem Linked.matched (h : c.Linked s) : c.Matched s :=
  ⟨h.joins, h.noted, fun _ _ _ _ _ _ _ _ hi hj => h.noted.once hi hj, h.distinct⟩

/-- Every call that starts in the state gives back joins that are matched, whether it gives a result or fails. -/
structure Restores (c : Compiler) (rec : Calls) (s : BuildState) : Prop where
  value : ∀ scope e, c.Linked ((rec.value scope e).run s).2
  condition : ∀ scope e, c.Linked ((rec.condition scope e).run s).2
  classify : ∀ id steps, c.Linked ((rec.classify id steps).run s).2
  members : ∀ id steps extent, c.Linked ((rec.members id steps extent).run s).2
  sequence : ∀ parent node, c.Linked ((rec.sequence parent node).run s).2

theorem Linked.restores (h : c.Linked s) (fuel : Nat) : c.Restores (c.calls fuel) s := by
  have hcalls := calls_obey c.linking fuel
  exact ⟨fun scope e => (((hcalls.value scope e) s).2 h).of_absent,
    fun scope e => (((hcalls.condition scope e) s).2 h).of_absent,
    fun id steps => (((hcalls.classify id steps) s).2 h).of_absent,
    fun id steps extent => (((hcalls.members id steps extent) s).2 h).of_absent,
    fun parent node => (linkedAt_of_ends (hcalls.sequence parent node s) h).of_absent⟩

/-- Whichever way a compilation ends, joins and the contexts of associations correspond one to one. So they do at any
state on the way, but for the association that is just being brought in: it is brought in from a state in which they
correspond, and from every such state a call ends in one, whatever it calls in turn. -/
theorem joins_matched (c : Compiler) (node : Node) :
    (∀ fuel, c.Matched ((c.root fuel node).run {}).2) ∧
      (∀ s, c.Reached node s → c.Matched s ∨ ∃ t, c.Linked t ∧ c.Introduces t s) ∧
      ∀ s, c.Linked s → c.Matched s ∧ ∀ fuel, c.Restores (c.calls fuel) s := by
  refine ⟨fun fuel => (c.linkedAt_root fuel node).of_absent.matched, fun s h => ?_,
    fun s h => ⟨h.matched, h.restores⟩⟩
  obtain ⟨o, fuel, rfl⟩ := h
  cases @linkedAt_root o c fuel node with
  | inl h => exact .inl h.matched
  | inr h =>
    obtain ⟨-, -, u, hu, hi⟩ := h
    exact .inr ⟨u, hu, hi⟩

end Compiler

def managersDepartment : Node :=
  (Node.source "Employee").select
    ⟨["e"], .member (.member (.member (.parameter "e") "manager") "department") "name"⟩

/-- Stopped right after the first join, the compilation has no context of the manager yet. -/
theorem joins_matched_managersDepartment :
    ∃ s, Compiler.company.Reached managersDepartment s ∧ (s.sources 0).joins.length = 1 ∧ s.links 0 = [] ∧
      ∃ t, Compiler.company.Matched t ∧ Compiler.company.Introduces t s ∧
        Compiler.company.Restores (Compiler.company.calls 9) t := by
  let o : Observer := ⟨fun s => s.statements.any fun m => !m.sources.joins.isEmpty⟩
  have hreached : Compiler.company.Reached managersDepartment
      ((@Compiler.root o .company 9 managersDepartment).run {}).2 := ⟨o, 9, rfl⟩
  obtain ⟨-, hpasses, hrestores⟩ := Compiler.company.joins_matched managersDepartment
  refine ⟨_, hreached, rfl, rfl, ?_⟩
  cases hpasses _ hreached with
  | inl h => exact absurd (h.joins 0).length (by decide)
  | inr h =>
    obtain ⟨t, ht, hi⟩ := h
    exact ⟨t, (hrestores t ht).1, hi, (hrestores t ht).2 9⟩

end ObjectQuery
