import ObjectQuery.Compile.Rows
import ObjectQuery.Proofs.Calls.Value

/-!
The values that rows and objects are converted to fit the statement of those rows.
-/
namespace ObjectQuery

theorem Entity.mem_of_mem_columnsWithin {e : Entity} {outer : Option String} {name : String}
    {id : ColumnId} (h : (name, id) ∈ e.columnsWithin outer) :
    ∃ n, (n, .column id) ∈ e.members.items := by
  have hstored : ∀ n, (n, id) ∈ e.stored → (n, .column id) ∈ e.members.items := by
    intro n hn
    obtain ⟨⟨k, member⟩, hm, he⟩ := List.mem_filterMap.mp hn
    cases member <;> cases he
    exact hm
  cases outer with
  | none => exact ⟨name, hstored name h⟩
  | some outer =>
    obtain ⟨⟨n, i⟩, hn, he⟩ := List.mem_map.mp h
    cases he
    exact ⟨n, hstored n (List.mem_filter.mp hn).1⟩

namespace Compiler

open World Build

variable {c : Compiler} {K : Content c} {F : StatementId → Prop} {σ : World} {m : StatementId}
  {rec : Calls} {id : ContextId}

theorem holds_ask (h : rec.Respect c K) (hf : Fresh F σ) (hs : σ.Sited id m) (steps : List String)
    (request : Request) :
    Holds c K F σ (ask rec id steps request) fun answer τ =>
      ∀ rows, answer.context = some rows → τ.Sited rows m := by
  refine (Holds.sited hs).read fun d hq => ?_
  obtain ⟨-, rfl, -⟩ := hq
  split
  · exact Holds.fail
  · refine (h.classify steps hf hs).attempt.bind fun result τ _ hr => ?_
    split
    · next denoted =>
      have hd := hr denoted rfl
      refine .pure fun rows he => ?_
      cases request <;> cases denoted <;> cases he <;> exact hd
    · exact .pure fun _ he => by cases he
    · exact .fail

theorem holds_rowColumns (hs : σ.Sited id m) (outer : Option String) (extent : Extent) :
    Holds c K F σ (c.rowColumns id outer extent) fun items τ => ∀ i ∈ items, K.value τ m i.2 := by
  refine (Holds.sited hs).read fun d hok => ?_
  obtain ⟨-, rfl, hok⟩ := hok
  refine Holds.orFail.read fun r hr => ?_
  have hrows := hok.rows r hr
  refine Holds.entity.read fun e he => ?_
  have hcolumns : ∀ columns : List (String × ColumnId), columns ⊆ e.columnsWithin outer →
      ∀ i ∈ columns.map fun p => (some p.1, SqlExpr.column p.2 (some r.aliasName)),
        K.value σ d.statement i.2 := by
    intro columns hsub i hi
    obtain ⟨⟨name, column⟩, hm, rfl⟩ := List.mem_map.mp hi
    obtain ⟨n, hn⟩ := Entity.mem_of_mem_columnsWithin (hsub hm)
    exact K.column hrows.reads (hrows.table_eq he ▸ .stored he hn)
  cases extent with
  | key =>
    refine Holds.orDangling.read fun keys _ => ?_
    exact .pure (hcolumns _ List.filter_sublist.subset)
  | field | all => exact .pure (hcolumns _ (List.Subset.refl _))

theorem holds_members (h : rec.Respect c K) (hf : Fresh F σ) (hs : σ.Sited id m)
    (steps : List String) (extent : Extent) :
    Holds c K F σ (c.members rec id steps extent) fun items τ => ∀ i ∈ items, K.value τ m i.2 := by
  refine (h.classify steps hf hs).bind fun d τ hτ hd => ?_
  cases d with
  | field => exact .pure fun i hi => by rw [List.mem_singleton.mp hi]; exact hd
  | computed => exact .pure fun i hi => by rw [List.mem_singleton.mp hi]; exact hd
  | table | association => exact holds_rowColumns hd none extent
  | object owner inner =>
    refine Holds.context.read fun ctx _ => ?_
    split
    · next l _ _ =>
      refine (Holds.mapM _ (R := fun group τ => ∀ i ∈ group, K.value τ m i.2)
        (fun name _ υ hυ => ?_) ?_).bind ?_
      · refine (h.members _ extent ((hf.mono hτ).mono hυ) (hd.mono hυ)).bind fun items φ _ hi => ?_
        refine .pure fun i hm => ?_
        obtain ⟨j, hj, rfl⟩ := List.mem_map.mp hm
        exact hi j hj
      · exact fun group υ φ hφ hg i hi => K.value_mono hφ (hg i hi)
      · intro groups υ _ hg
        refine .pure fun i hi => ?_
        obtain ⟨group, hm, hi⟩ := List.mem_flatten.mp hi
        exact hg group hm i hi
    · exact holds_rowColumns hd _ extent

theorem holds_itemsOf (h : rec.Respect c K) (hf : Fresh F σ) (hs : σ.Sited id m)
    (steps : List String) (extent : Extent) :
    Holds c K F σ (itemsOf rec id steps extent) fun items τ => ∀ i ∈ items, K.value τ m i.value := by
  refine (h.members steps extent hf hs).bind fun items τ _ hi => ?_
  refine .pure fun i hm => ?_
  obtain ⟨j, hj, rfl⟩ := List.mem_map.mp hm
  exact hi j hj

theorem holds_itemsOfExpr (h : rec.Respect c K) (hf : Fresh F σ) {scope : ContextId}
    (hs : σ.Sited scope m) (e : Expr) (extent : Extent) :
    Holds c K F σ (itemsOfExpr rec scope e extent)
      fun items τ => ∀ i ∈ items, K.value τ m i.value := by
  unfold itemsOfExpr
  split
  · next path _ =>
    refine (holds_rootOf path hs).read fun q ha => ?_
    obtain ⟨a, ha, he⟩ := ha
    refine (holds_itemsOf h hf ha path.steps extent).imp fun items τ hτ hi i hm => ?_
    exact K.value_within (he.mono hτ) (hi i hm)
  · refine (h.value e hf hs).bind fun v τ _ hv => ?_
    exact .pure (by simpa using hv)

/-- Only values of the items are new in the select list. -/
theorem mem_register {items : List Item} {select : List SqlExpr} {v : SqlExpr}
    (h : v ∈ (register select items).1) : v ∈ select ∨ ∃ i ∈ items, v = i.value := by
  induction items generalizing select with
  | nil => exact .inl h
  | cons item rest ih =>
    cases ih h with
    | inl h =>
      split at h
      · exact .inl h
      · refine (List.mem_append.mp h).imp_right fun h => ?_
        exact ⟨item, List.mem_cons_self, List.mem_singleton.mp h⟩
    | inr h =>
      obtain ⟨i, hi, he⟩ := h
      exact .inr ⟨i, List.mem_cons_of_mem item hi, he⟩

variable [Observer]

theorem holds_enterItems (hm : F m) (hs : σ.Sited id m) {items : List Item}
    (hi : ∀ i ∈ items, K.value σ m i.value) :
    Holds c K F σ (enterItems id items)
      fun _ τ => ∃ list, τ = σ.alter m fun s => { s with select := list } := by
  refine (Holds.sited hs).read fun d he => ?_
  obtain ⟨-, rfl, -⟩ := he
  refine Holds.statement.read fun s hstatement => ?_
  refine (Holds.modifyStatement (.select _ _ hm ?_)).bind fun _ _ _ h => .pure ⟨_, h⟩
  intro s' hs' v hv
  rw [hstatement] at hs'
  cases hs'
  refine (mem_register hv).imp_right fun hv => ?_
  obtain ⟨i, hm, rfl⟩ := hv
  exact hi i hm

theorem holds_selectItems (h : rec.Respect c K) (hf : Fresh F σ) (hm : F m) (hs : σ.Sited id m)
    (steps : List String) (extent : Extent) :
    Holds c K F σ (selectItems rec id steps extent) fun _ _ => True :=
  (holds_itemsOf h hf hs steps extent).bind fun _ _ hτ hi =>
    (holds_enterItems hm (hs.mono hτ) hi).imp fun _ _ _ _ => trivial

end Compiler
end ObjectQuery
