import ObjectQuery.Proofs.Content
import ObjectQuery.Proofs.Valid

/-!
Everything that a compilation does to its state, one write at a time. A step says what is known when it is
taken; whatever every step preserves holds of every state that a compilation passes through.
-/
namespace ObjectQuery

open Build (aliasText)

open World in
/-- One write. Statements outside `F` are only read and joined to: their own parts stay as they are. -/
inductive Step (c : Compiler) (K : Content c) (F : StatementId → Prop) (σ : World) : World → Prop
  | countAlias : Step c K F σ σ.countAlias
  | countParameter : Step c K F σ σ.countParameter
  | begin (e : Entity) (o : Option StatementId)
      (unread : σ.Unread (aliasText σ.state.aliases)) :
    Step c K F σ
      (σ.begin { Statement.empty with sources := ⟨some ⟨e.table, aliasText σ.state.aliases⟩, []⟩ } o)
  | enter (d : Context) (ok : ContextOk c σ σ.state.contexts.length d)
      (unused : ∀ r, d.rows? = some r → r.followed = [] ∧ σ.Unused r.aliasName) :
    Step c K F σ (σ.enter d)
  | follow (owner id : ContextId) (m : StatementId) (name : String) (d : Context) (r q : Rows)
      (owns : σ.context? owner = some d) (rows : d.rows? = some r)
      (unfollowed : r.followed.lookup name = none)
      (target : σ.context? id = some (.association owner m name q)) :
    Step c K F σ (σ.adjust owner (Context.follow name id))
  | reparent (id : ContextId) (m : StatementId) (parent : Option ContextId)
      (sited : σ.Sited id m) (inside : σ.Inside parent m) :
    Step c K F σ (σ.adjust id (Context.withParent parent))
  | join (owner : ContextId) (name : String) (d : Context) (r : Rows) (e target : Entity)
      (a : Association) (owns : σ.context? owner = some d) (rows : d.rows? = some r)
      (entity : c.schema.mapping.entity? r.entity = some e)
      (member : (name, .association a) ∈ e.members.items)
      (leads : c.schema.mapping.entity? a.target = some target)
      (unread : σ.Unread (aliasText σ.state.aliases)) :
    Step c K F σ (σ.alter d.statement fun s =>
      { s with sources := s.sources.reach r a ⟨target.table, aliasText σ.state.aliases⟩ })
  | restrict (m : StatementId) (p : Predicate) (own : F m) (holds : K.condition σ m p) :
    Step c K F σ (σ.alter m (Statement.restrict · p))
  | select (m : StatementId) (list : List SqlExpr) (own : F m)
      (holds : ∀ s, σ.statement? m = some s → ∀ v ∈ list, v ∈ s.select ∨ K.value σ m v) :
    Step c K F σ (σ.alter m fun s => { s with select := list })
  | settle (m : StatementId) (list : List SqlExpr) (own : F m) (holds : ∀ v ∈ list, K.value σ m v) :
    Step c K F σ (σ.alter m fun s => { s with sources := s.sources.settle, select := list })
  | bind (m : StatementId) (table : TableId) (own : F m)
      (agrees : ∀ s, σ.statement? m = some s → s.update.conflict? table = none) :
    Step c K F σ (σ.alter m fun s => { s with update := s.update.bind table })
  | append (m : StatementId) (items : List SetItem) (own : F m)
      (fits : ∀ s, σ.statement? m = some s → ∀ i ∈ items, s.update.target = some i.column.table)
      (holds : ∀ i ∈ items, K.value σ m i.value) :
    Step c K F σ (σ.alter m fun s => { s with update := s.update.append items })
  | complete (m : StatementId) (own : F m) : Step c K F σ (σ.alter m fun s => { s with kind := .update })

namespace Step

open World

variable {c : Compiler} {K : Content c} {F : StatementId → Prop} {σ τ : World}

theorem grows (h : Step c K F σ τ) : Grows σ τ := by
  cases h with
  | countAlias => exact grows_countAlias σ
  | countParameter => exact grows_countParameter σ
  | begin => exact grows_begin ..
  | enter => exact grows_enter ..
  | follow => exact grows_adjust σ _ fun d => Context.core_follow _ _ d
  | reparent => exact grows_adjust σ _ fun d => Context.core_withParent _ d
  | join => exact grows_alter fun s _ => ⟨rfl, by simp, fun _ h => h⟩
  | restrict => exact grows_alter fun s _ => ⟨rfl, List.prefix_rfl, fun _ h => h⟩
  | select => exact grows_alter fun s _ => ⟨rfl, List.prefix_rfl, fun _ h => h⟩
  | settle => exact grows_alter fun s _ => ⟨rfl, by simp, fun _ h => h⟩
  | bind => exact grows_alter fun s _ => ⟨rfl, List.prefix_rfl, fun k h => by simp [Assignments.bind, h]⟩
  | append => exact grows_alter fun s _ => ⟨rfl, List.prefix_rfl, fun _ h => h⟩
  | complete => exact grows_alter fun s _ => ⟨rfl, List.prefix_rfl, fun _ h => h⟩

theorem valid (h : Step c K F σ τ) (hv : Valid c σ) : Valid c τ := by
  have g := h.grows
  cases h with
  | countAlias => exact hv.countAlias
  | countParameter => exact hv.countParameter
  | begin => exact hv.begin rfl
  | enter d ok => exact hv.enter ok
  | follow owner id m name d r q owns rows _ target =>
    refine hv.adjust g fun d' hd => ?_
    have ho := (hv.context id _ target).owner owner m name q rfl
    obtain ⟨e, he, hm, -⟩ := ho.2
    rw [hd] at he
    cases he
    exact (hv.context owner d' hd).follow (hm ▸ target)
  | reparent id m parent sited inside =>
    refine hv.adjust g fun d hd => ?_
    obtain ⟨e, he, rfl⟩ := sited
    rw [hd] at he
    cases he
    exact (hv.context id d hd).withParent inside
  | join owner name d r e target a =>
    refine hv.alter g fun s _ t ht => ?_
    rw [Sources.tables_reach, List.mem_append, List.mem_singleton] at ht
    exact ht.imp_right fun he => by rw [he]
  | settle => exact hv.alter g fun s _ t ht => .inl (by simpa using ht)
  | _ => exact hv.alter g fun s _ t ht => .inl ht

theorem mono {G : StatementId → Prop} (hg : ∀ m, F m → G m) (h : Step c K F σ τ) : Step c K G σ τ := by
  cases h with
  | countAlias => exact .countAlias
  | countParameter => exact .countParameter
  | begin e o unread => exact .begin e o unread
  | enter d ok unused => exact .enter d ok unused
  | follow owner id m name d r q owns rows unfollowed target =>
    exact .follow owner id m name d r q owns rows unfollowed target
  | reparent id m parent sited inside => exact .reparent id m parent sited inside
  | join owner name d r e target a owns rows entity member leads unread =>
    exact .join owner name d r e target a owns rows entity member leads unread
  | restrict m p own holds => exact .restrict m p (hg m own) holds
  | select m list own holds => exact .select m list (hg m own) holds
  | settle m list own holds => exact .settle m list (hg m own) holds
  | bind m table own agrees => exact .bind m table (hg m own) agrees
  | append m items own fits holds => exact .append m items (hg m own) fits holds
  | complete m own => exact .complete m (hg m own)

end Step

end ObjectQuery
