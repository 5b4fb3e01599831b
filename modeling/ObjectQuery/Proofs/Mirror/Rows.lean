import ObjectQuery.Proofs.Laws.Operator
import ObjectQuery.Proofs.Nested.Values
import ObjectQuery.Proofs.Mirror.Values

/-!
Rows and objects are converted in step, and so are the values that setters assign.
-/
namespace ObjectQuery

open Build Compiler

namespace Mirror

variable {c c' : Compiler} {M : Mirror c c'} {m n : M.Moment}

theorem forall₂_flatten {α β : Type} {R : α → β → Prop} {xs : List (List α)} {ys : List (List β)}
    (h : List.Forall₂ (List.Forall₂ R) xs ys) : List.Forall₂ R xs.flatten ys.flatten := by
  induction h with
  | nil => exact .nil
  | cons hxy _ ih => exact List.rel_append hxy ih

theorem steps_rowColumns (id : ContextId) (outer : Option String) (extent : Extent) :
    Steps m (fun n => List.Forall₂ (Labelled M n.ghost)) (c.rowColumns id outer extent)
      (c'.rowColumns id outer extent) := by
  have hlabel : ∀ {n : M.Moment} {rows : Rows} (columns : List (String × ColumnId)),
      List.Forall₂ (Labelled M n.ghost) (columns.map fun x => (some x.1, .column x.2 (some rows.aliasName)))
        (columns.map fun x => (some x.1, .column x.2 (some rows.aliasName))) := by
    intro n rows columns
    rw [List.forall₂_map_left_iff, List.forall₂_map_right_iff, List.forall₂_same]
    exact fun x _ => ⟨rfl, M.reading.column _ _⟩
  refine .context fun d e _ _ hde => ?_
  rw [hde.kindName, hde.rows?]
  refine (Steps.orFailSame _ _).then fun n hn rows => (steps_entity _).bind fun n' hn' entity _ hentity => ?_
  obtain ⟨rfl, -⟩ := hentity
  cases extent with
  | key =>
    rw [M.schema]
    exact (Steps.orDangling _).then fun _ _ keys => (Steps.pure rfl).then fun _ _ columns => .pure (hlabel columns)
  | field | all => exact (Steps.pure rfl).then fun _ _ columns => .pure (hlabel columns)

/-- Items of the same name, with values that correspond to each other. -/
def ItemPair (M : Mirror c c') (g : M.reading.Ghost) (i j : Item) : Prop :=
  j.member = i.member ∧ M.reading.value g i.value j.value

theorem selects_register {g : M.reading.Ghost} {vs ws : List SqlExpr} {is js : List Item}
    (h : List.Forall₂ (ItemPair M g) is js) (hs : M.reading.selects g vs ws) :
    M.reading.selects g (register vs is).1 (register ws js).1 := by
  induction h generalizing vs ws with
  | nil => exact hs
  | cons hij _ ih => exact ih (M.reading.add hs hij.2)

theorem steps_enterItems (id : ContextId) {is js : List Item} (h : List.Forall₂ (ItemPair M m.ghost) is js) :
    Steps m (fun _ _ _ => True) (enterItems id is) (enterItems id js) := by
  refine .context fun d e _ _ hde => ?_
  rw [hde.statement]
  refine .statement fun st st' hst => ?_
  have hselect := selects_register h hst.select
  refine (Steps.modifyStatement ?_).then fun _ _ _ => .pure trivial
  exact fun st st' hst => { hst with select := hselect }

theorem steps_targetTable (id : ContextId) : Steps m Equal (targetTable id) (targetTable id) := by
  refine .context fun d e _ _ hde => ?_
  cases hde with
  | table => exact .pure rfl
  | association | projection | lambda | update => exact .same _

theorem steps_targetColumn (target : TableId) (name : String) :
    Steps m Equal (c.targetColumn target name) (c'.targetColumn target name) := by
  have hover : Steps m Equal (c.entityOver target) (c'.entityOver target) := by
    unfold Compiler.entityOver
    rw [M.schema]
    exact (Steps.orDangling _).then fun _ _ _ => .orFailSame _ _
  refine hover.then fun _ _ e => ?_
  split
  · exact .pure rfl
  · exact .same _

/-- An assignment of the same column, of values that correspond to each other. -/
def SetItemPair (M : Mirror c c') (g : M.reading.Ghost) (i j : SetItem) : Prop :=
  j.column = i.column ∧ M.reading.value g i.value j.value

theorem SetItemPair.mono {n k : M.Moment} (hk : n.Later k) {i j : SetItem} (h : SetItemPair M n.ghost i j) :
    SetItemPair M k.ghost i j :=
  ⟨h.1, M.reading.value_mono hk.ghost h.2⟩

theorem steps_bindTarget (number : StatementId) (table : TableId) :
    Steps m Equal (c.bindTarget number table) (c'.bindTarget number table) := by
  refine .statement fun st st' hst => ?_
  have hconflict : st'.update.conflict? table = st.update.conflict? table := by
    rw [Assignments.conflict?, hst.target]
    rfl
  rw [hconflict]
  split
  · rw [M.schema]
    exact (Steps.orDangling _).then fun _ _ _ => (Steps.orDangling _).then fun _ _ _ => .same _
  · refine .modifyStatement fun st st' hst => ?_
    exact { hst with target := by simp only [Assignments.bind, hst.target] }

theorem steps_addItems (number : StatementId) {is js : List SetItem}
    (h : List.Forall₂ (SetItemPair M m.ghost) is js) : Steps m Equal (addItems number is) (addItems number js) :=
  .modifyStatement fun _ _ hst =>
    { hst with items := List.rel_append hst.items h }

theorem steps_completeUpdate (number : StatementId) :
    Steps m Equal (c.completeUpdate number) (c'.completeUpdate number) := by
  refine .statement fun st st' hst => ?_
  -- the first item of another table is the same on both sides
  have hfind : ∀ target, Option.Rel (fun i j : SetItem => j.column = i.column)
      (st.update.items.find? fun item => item.column.table ≠ target)
      (st'.update.items.find? fun item => item.column.table ≠ target) := by
    intro target
    have hitems := hst.items
    generalize st.update.items = is at hitems
    generalize st'.update.items = js at hitems
    induction hitems with
    | nil => exact .none
    | cons hij _ ih =>
      rw [List.find?_cons, List.find?_cons, hij.1]
      split
      · exact .some hij.1
      · exact ih
  dsimp only
  rw [hst.target]
  cases st.update.target with
  | none =>
    exact .modifyStatement fun st st' hst =>
      { hst with kind := rfl }
  | some target =>
    have h := hfind target
    simp only [Option.bind_some]
    generalize List.find? _ st.update.items = x at h
    generalize List.find? _ st'.update.items = y at h
    cases h with
    | none =>
      exact .modifyStatement fun st st' hst =>
        { hst with kind := rfl }
    | some hij =>
      dsimp only
      rw [hij, M.schema]
      exact (Steps.orDangling _).then fun _ _ _ => .same _

variable {rec rec' : ObjectQuery.Calls} (h : M.Calls rec rec')

include h

theorem steps_ask (id : ContextId) (steps : List String) (request : Request) :
    Steps m Equal (ask rec id steps request) (ask rec' id steps request) := by
  refine .context fun d e _ _ hde => ?_
  rw [hde.isUpdate]
  split
  · exact .same _
  · refine (h.classify id steps).recover (fun n _ d d' hd => .pure ?_) fun n _ e e' he => ?_
    · cases hd with
      | computed => cases request <;> rfl
      | table | association | field | object => rfl
    · have hkind := M.resolution he
      cases e with
      | memberResolution =>
        cases e' with
        | memberResolution => exact .pure rfl
        | _ => cases hkind
      | _ =>
        cases e' with
        | memberResolution => cases hkind
        | _ => exact .fail he

theorem steps_members (id : ContextId) (steps : List String) (extent : Extent) :
    Steps m (fun n => List.Forall₂ (Labelled M n.ghost)) (c.members rec id steps extent)
      (c'.members rec' id steps extent) := by
  refine (h.classify id steps).bind fun n _ d d' hd => ?_
  cases hd with
  | field column aliasName => exact .pure (.cons ⟨rfl, M.reading.column _ _⟩ .nil)
  | computed hv => exact .pure (.cons ⟨rfl, hv⟩ .nil)
  | table rows | association rows => exact steps_rowColumns rows none extent
  | object owner steps =>
    refine .context fun d e _ _ hde => ?_
    cases hde with
    | @projection _ _ _ f g _ _ hclosure =>
      obtain ⟨ρ, hfg, -⟩ := hclosure
      dsimp only
      rw [hfg.body.constructedAt]
      refine (Steps.mapM (Q := fun n => List.Forall₂ (Labelled M n.ghost))
        (List.forall₂_same.mpr fun _ _ => rfl) (fun k hk x y hxy => ?_) ?_).bind fun k _ groups groups' hgroups => ?_
      · obtain rfl : x = y := hxy
        refine (h.members owner _ extent).bind fun k' _ items items' hitems => .pure ?_
        rw [List.forall₂_map_left_iff, List.forall₂_map_right_iff]
        refine hitems.imp fun a b hab => ⟨?_, hab.2⟩
        dsimp only
        rw [hab.1]
      · exact fun k k' hk items items' hitems =>
          hitems.imp fun _ _ => And.imp_right (M.reading.value_mono hk.ghost)
      · exact .pure (forall₂_flatten hgroups)
    | table | association | lambda | update => exact steps_rowColumns owner _ extent

theorem steps_itemsOf (id : ContextId) (steps : List String) (extent : Extent) :
    Steps m (fun n => List.Forall₂ (ItemPair M n.ghost)) (itemsOf rec id steps extent)
      (itemsOf rec' id steps extent) := by
  refine (h.members id steps extent).bind fun n _ items items' hitems => .pure ?_
  rw [List.forall₂_map_left_iff, List.forall₂_map_right_iff]
  refine hitems.imp fun a b hab => ⟨?_, hab.2⟩
  dsimp only
  rw [hab.1]

theorem steps_selectItems (id : ContextId) (steps : List String) (extent : Extent) :
    Steps m (fun _ _ _ => True) (selectItems rec id steps extent) (selectItems rec' id steps extent) :=
  (steps_itemsOf h id steps extent).bind fun _ _ _ _ hitems => steps_enterItems id hitems

theorem steps_itemsOfExpr {scope : ContextId} {ρ : Names} {e e' : Expr} (he : e.Alike M.lexicon.likeness ρ e')
    (hρ : m.Knows (some scope) ρ) (extent : Extent) :
    Steps m (fun n => List.Forall₂ (ItemPair M n.ghost)) (itemsOfExpr rec scope e extent)
      (itemsOfExpr rec' scope e' extent) := by
  have hpath := he.path?
  unfold itemsOfExpr
  generalize Path.ofExpr? e = x at hpath
  generalize Path.ofExpr? e' = y at hpath
  cases hpath with
  | some hpath =>
    dsimp only
    rw [hpath.steps]
    exact (Steps.rootOf hρ hpath).then fun n _ sequence => steps_itemsOf h sequence _ extent
  | none => exact (h.value he hρ).bind fun n _ v w hv => .pure (.cons ⟨rfl, hv⟩ .nil)

theorem steps_settableColumn (id : ContextId) (steps : List String) (table : Option TableId) :
    Steps m Equal (settableColumn rec id steps table) (settableColumn rec' id steps table) := by
  refine (h.classify id steps).recover (fun n _ d d' hd => ?_) fun n _ e e' he => ?_
  · cases hd with
    | field column aliasName =>
      dsimp only
      split
      · exact .same _
      · exact .pure rfl
    | table | association | computed | object => exact .same _
  · have hkind := M.resolution he
    cases e with
    | memberResolution =>
      cases e' with
      | memberResolution => exact .same _
      | _ => cases hkind
    | _ =>
      cases e' with
      | memberResolution => cases hkind
      | _ => exact .fail he

/-! Setters. -/

theorem steps_entered? {ρ : Names} {e e' : Expr} (he : e.Alike M.lexicon.likeness ρ e') (into : ContextId)
    (steps : List String) :
    Steps m (fun _ => Option.Rel (Expr.AlikeBindings M.lexicon.likeness ρ)) (entered? rec into steps e)
      (entered? rec' into steps e') := by
  have hbindings := he.bindings?
  unfold entered?
  generalize e.bindings? = x at hbindings
  generalize e'.bindings? = y at hbindings
  cases hbindings with
  | none => exact .pure .none
  | some hbindings =>
    refine (steps_ask h into steps .field).then fun n _ answer => .pure ?_
    split
    · exact .none
    · exact .some hbindings

theorem steps_flatten {scope : ContextId} {ρ : Names} {bs cs : List (String × Expr)}
    (hbs : Expr.AlikeBindings M.lexicon.likeness ρ bs cs) (hρ : m.Knows (some scope) ρ) (into : ContextId)
    (table : Option TableId) (depth : Nat) (outer : List String) :
    Steps m (fun n => List.Forall₂ (SetItemPair M n.ghost)) (flatten c rec into table scope depth outer bs)
      (flatten c' rec' into table scope depth outer cs) := by
  induction depth generalizing m outer bs cs with
  | zero =>
    unfold flatten
    rw [M.depth]
    exact .same _
  | succ depth ih =>
    rw [flatten_succ, flatten_succ]
    refine (Steps.mapM (Q := fun n => List.Forall₂ (SetItemPair M n.ghost)) hbs.forall₂
      (fun n hn b b' hb => ?_) ?_).bind fun _ _ groups groups' hgroups => .pure (forall₂_flatten hgroups)
    · obtain ⟨name, e⟩ := b
      obtain ⟨_, e'⟩ := b'
      obtain ⟨rfl, he⟩ := hb
      refine (steps_entered? h he into _).bind fun k hk nested nested' hnested => ?_
      have hρ := hρ.mono (hn.trans hk)
      cases hnested with
      | some hnested => exact ih hnested hρ _
      | none =>
        refine (steps_settableColumn h into _ table).then fun k' hk' column => ?_
        exact (h.value he.strip (hρ.mono hk')).bind fun _ _ v w hv => .pure (.cons ⟨rfl, hv⟩ .nil)
    · exact fun n k hk items items' hitems => hitems.imp fun _ _ => SetItemPair.mono hk

theorem steps_setterItems {p : Option ContextId} {ρ : Names} {f g : Lambda} (hfg : f.Alike M.lexicon.likeness ρ g)
    (hρ : m.Knows p ρ) (into : ContextId) (table : Option TableId) (sequence : ContextId) :
    Steps m (fun n => List.Forall₂ (SetItemPair M n.ghost)) (c.setterItems rec f into table sequence p)
      (c'.setterItems rec' g into table sequence p) := by
  refine Steps.under hfg.row hρ fun n _ scope hscope => ?_
  have hbindings := hfg.body.bindings?
  generalize f.body.bindings? = x at hbindings
  generalize g.body.bindings? = y at hbindings
  cases hbindings with
  | some hbindings =>
    dsimp only
    rw [M.depth]
    exact steps_flatten h hbindings hscope into table _ []
  | none =>
    refine (steps_itemsOfExpr h hfg.body.strip hscope .all).bind fun k _ items items' hitems => ?_
    refine Steps.mapM hitems (fun k' hk' i j hij => ?_) fun _ _ hk _ _ => SetItemPair.mono hk
    rw [hij.1]
    refine (Steps.orFailSame _ _).then fun k'' hk'' member => ?_
    refine (steps_settableColumn h into _ table).then fun o ho column => .pure ⟨rfl, ?_⟩
    exact M.reading.value_mono (hk'.trans (hk''.trans ho)).ghost hij.2

end Mirror
end ObjectQuery
