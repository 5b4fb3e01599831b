import ObjectQuery.Compile.Operator
import ObjectQuery.Proofs.Laws.Basic
import ObjectQuery.Proofs.Valid

/-!
How an association is followed and how a source is opened: each takes several writes, and may be stopped after any
of them.
-/
namespace ObjectQuery

open Build

namespace BuildState

def countAlias (s : BuildState) : BuildState :=
  { s with aliases := s.aliases + 1 }

/-- The source that a table is read as under the next alias. -/
def nextSource (s : BuildState) (table : TableId) : TableSource :=
  ⟨table, aliasText (s.aliases + 1)⟩

def openSource (s : BuildState) (table : TableId) : BuildState :=
  { s.countAlias with
    statements := s.statements ++ [{ Statement.empty with sources := ⟨some (s.nextSource table), []⟩ }] }

def joinSource (s : BuildState) (m : StatementId) (owner : Rows) (a : Association) (table : TableId) :
    BuildState :=
  s.countAlias.alter m fun st => { st with sources := st.sources.reach owner a (s.nextSource table) }

def nextRows (s : BuildState) (e : Entity) : Rows :=
  ⟨e.name, e.table, aliasText (s.aliases + 1), []⟩

/-- The rows of the table that the new statement reads have a context. -/
def enterSource (s : BuildState) (parent : Option ContextId) (e : Entity) : BuildState :=
  (s.openSource e.table).enter (.table parent s.statements.length (s.nextRows e))

/-- The statement is joined to the rows of the association, and these rows have a context. -/
def enterAssociation (s : BuildState) (owner : ContextId) (name : String) (d : Context) (r : Rows)
    (a : Association) (target : Entity) : BuildState :=
  (s.joinSource d.statement r a target.table).enter (.association owner d.statement name (s.nextRows target))

def noteAssociation (s : BuildState) (owner : ContextId) (name : String) (d : Context) (r : Rows)
    (a : Association) (target : Entity) : BuildState :=
  (s.enterAssociation owner name d r a target).adjust owner (Context.follow name s.contexts.length)

theorem keepsContexts_enterAssociation (s : BuildState) (owner : ContextId) (name : String) (d : Context)
    (r : Rows) (a : Association) (target : Entity) : s.KeepsContexts (s.enterAssociation owner name d r a target) :=
  keepsContexts_enter _ _

theorem keepsContexts_noteAssociation (s : BuildState) (owner : ContextId) (name : String) (d : Context) (r : Rows)
    (a : Association) (target : Entity) : s.KeepsContexts (s.noteAssociation owner name d r a target) :=
  (s.keepsContexts_enterAssociation owner name d r a target).trans
    (keepsContexts_adjust _ _ (Context.core_follow name _))

end BuildState

/-- The owner's rows have the association, and it was not followed yet. -/
structure Compiler.Unfollowed (c : Compiler) (s : BuildState) (owner : ContextId) (name : String) (d : Context)
    (r : Rows) (a : Association) (target : Entity) : Prop where
  owns : s.contexts[owner]? = some d
  rows : d.rows? = some r
  unfollowed : r.followed.lookup name = none
  member : ∃ e, c.schema.mapping.entity? r.entity = some e ∧ e.member? name = some (.association a)
  leads : c.schema.mapping.entity? a.target = some target

variable [Observer] {c : Compiler} {s t : BuildState} {α β : Type}

/-- How following the association ends. -/
inductive Compiler.FollowEnds (c : Compiler) (s : BuildState) (owner : ContextId) (name : String)
    (a : Association) : Except Stop ContextId × BuildState → Prop
  | unchanged (result : Except Stop ContextId) : FollowEnds c s owner name a (result, s)
  | counted (stop : Stop) : FollowEnds c s owner name a (.error stop, s.countAlias)
  | joined (d : Context) (r : Rows) (target : Entity) (new : c.Unfollowed s owner name d r a target)
      (stops : Observer.stops (s.joinSource d.statement r a target.table)) :
      FollowEnds c s owner name a (.error .outOfFuel, s.joinSource d.statement r a target.table)
  | entered (d : Context) (r : Rows) (target : Entity) (new : c.Unfollowed s owner name d r a target)
      (stops : Observer.stops (s.enterAssociation owner name d r a target)) :
      FollowEnds c s owner name a (.error .outOfFuel, s.enterAssociation owner name d r a target)
  | noted (d : Context) (r : Rows) (target : Entity) (new : c.Unfollowed s owner name d r a target)
      (result : Except Stop ContextId) :
      FollowEnds c s owner name a (result, s.noteAssociation owner name d r a target)

/-- How opening the source ends. -/
inductive Compiler.SourceEnds (c : Compiler) (s : BuildState) (parent : Option ContextId) :
    Except Stop ContextId × BuildState → Prop
  | unchanged (stop : Stop) : SourceEnds c s parent (.error stop, s)
  | counted (stop : Stop) : SourceEnds c s parent (.error stop, s.countAlias)
  | begun (stop : Stop) (e : Entity) : SourceEnds c s parent (.error stop, s.openSource e.table)
  | entered (stop : Stop) (e : Entity) : SourceEnds c s parent (.error stop, s.enterSource parent e)
  | opened (e : Entity) : SourceEnds c s parent (.ok s.contexts.length, s.enterSource parent e)

namespace Build

theorem ends_bind {P : Except Stop β × BuildState → Prop} {act : Build α} {next : α → Build β} {a : α}
    (hrun : act.run s = (if Observer.stops t then .error .outOfFuel else .ok a, t))
    (hstop : Observer.stops t → P (.error .outOfFuel, t)) (hgo : P ((next a).run t)) :
    P ((act >>= next).run s) := by
  rw [run_bind, hrun]
  by_cases h : Observer.stops t
  · simpa [h] using hstop h
  · simpa [h] using hgo

theorem run_nextAlias (s : BuildState) :
    nextAlias.run s =
      (if Observer.stops s.countAlias then .error .outOfFuel
        else .ok (aliasText (s.aliases + 1)), s.countAlias) := by
  change (write BuildState.countAlias >>= fun _ => (pure (aliasText (s.aliases + 1)) : Build String)).run s = _
  rw [run_bind, run_write]
  by_cases h : Observer.stops s.countAlias <;> simp [h]

theorem run_addStatement (m : Statement) (s : BuildState) :
    (addStatement m).run s =
      (if Observer.stops { s with statements := s.statements ++ [m] } then .error .outOfFuel
        else .ok s.statements.length, { s with statements := s.statements ++ [m] }) := by
  change (write (fun s => { s with statements := s.statements ++ [m] }) >>= fun _ =>
    (pure s.statements.length : Build StatementId)).run s = _
  rw [run_bind, run_write]
  by_cases h : Observer.stops { s with statements := s.statements ++ [m] } <;> simp [h]

end Build

namespace Compiler

theorem FollowEnds.keepsContexts {owner : ContextId} {name : String} {a : Association}
    {r : Except Stop ContextId × BuildState} (h : c.FollowEnds s owner name a r) : s.KeepsContexts r.2 := by
  cases h with
  | unchanged | counted | joined => exact .refl s
  | entered d r target => exact s.keepsContexts_enterAssociation owner name d r a target
  | noted d r target => exact s.keepsContexts_noteAssociation owner name d r a target

theorem ends_followAssociation {owner : ContextId} {d : Context} {r : Rows} {e : Entity} {name : String}
    {a : Association} (hd : s.contexts[owner]? = some d) (hr : d.rows? = some r)
    (he : c.schema.mapping.entity? r.entity = some e) (ha : e.member? name = some (.association a)) :
    c.FollowEnds s owner name a ((c.followAssociation owner name a).run s) := by
  rw [followAssociation, run_bind, run_context, hd]
  simp only [Option.elim_some, hr, Option.map_some]
  cases hl : r.followed.lookup name with
  | some id => exact .unchanged _
  | none =>
    cases ht : c.schema.mapping.entity? a.target with
    | none =>
      simp only [entity, ht, orFail, run_bind]
      exact .unchanged _
    | some target =>
      have hnew : c.Unfollowed s owner name d r a target := ⟨hd, hr, hl, ⟨e, he, ha⟩, ht⟩
      simp only [entity, ht, orFail, pure_bind]
      -- from here on there are four writes, and the action may be stopped after any of them
      refine ends_bind (run_nextAlias s) (fun _ => .counted _) ?_
      cases hst : s.statements[d.statement]? with
      | none =>
        rw [run_bind, run_modifyStatement, show s.countAlias.statements[d.statement]? = none from hst]
        exact .counted _
      | some st =>
        have hjoin := run_modifyStatement (s := s.countAlias) d.statement fun st =>
          { st with sources := st.sources.reach r a (s.nextSource target.table) }
        rw [show s.countAlias.statements[d.statement]? = some st from hst] at hjoin
        refine ends_bind hjoin (fun hstop => .joined d r target hnew hstop) ?_
        refine ends_bind (run_addContext _ _) (fun hstop => .entered d r target hnew hstop) ?_
        have howner : (s.enterAssociation owner name d r a target).contexts[owner]? = some d :=
          (List.getElem?_append_left (List.getElem?_eq_some_iff.mp hd).1).trans hd
        have hnote := run_modifyContext owner (Context.follow name s.contexts.length)
          (s.enterAssociation owner name d r a target)
        rw [howner] at hnote
        exact ends_bind hnote (fun _ => .noted d r target hnew _) (.noted d r target hnew _)

theorem ends_buildSource (node : Node) (parent : Option ContextId) :
    c.SourceEnds s parent ((c.buildSource node parent).run s) := by
  unfold buildSource
  split
  · next name rest _ =>
    cases he : c.schema.mapping.entity? name with
    | none =>
      simp only [entity, he, orFail, run_bind]
      exact .unchanged _
    | some e =>
      simp only [entity, he, orFail, pure_bind]
      refine ends_bind (run_nextAlias s) (fun _ => .counted _) ?_
      refine ends_bind (run_addStatement _ _) (fun _ => .begun _ e) ?_
      rw [run_addContext]
      split
      · exact .entered _ e
      · exact .opened e
  · exact .unchanged _

end Compiler

end ObjectQuery
