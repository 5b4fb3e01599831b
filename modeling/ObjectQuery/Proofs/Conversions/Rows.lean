import ObjectQuery.Proofs.Conversions.Values
import ObjectQuery.Proofs.Nested.Values

/-!
Rows and objects, and the assignments of setters, with and without conversions.
-/
namespace ObjectQuery

open Build Compiler

namespace Compiler

variable {c c' : Compiler} {rec : Calls}

section

variable (h : rec.Echo c')
include h

theorem echoes_ask (id : ContextId) (steps : List String) (request : Request) :
    c'.Echoes Eq (ask rec id steps request) fun rec' => ask rec' id steps request := by
  refine (Echoes.context id).bind fun d d' hd => ?_
  rw [hd.isUpdate_eq]
  split
  · exact .same _
  · refine (h.classify id steps).answer (fun d _ hd => hd ▸ .pure rfl) (fun _ _ _ _ => .pure rfl) fun e he => ?_
    cases e with
    | memberResolution path fault => exact absurd rfl (he path fault)
    | _ => exact ⟨rfl, fun _ => rfl⟩

theorem echoes_itemsOf (id : ContextId) (steps : List String) (extent : Extent) :
    c'.Echoes Eq (itemsOf rec id steps extent) fun rec' => itemsOf rec' id steps extent :=
  (h.members id steps extent).bind fun _ _ hitems => hitems ▸ .pure rfl

theorem echoes_itemsOfExpr (scope : ContextId) {e e' : Expr} (he : e.erase = e'.erase) (extent : Extent) :
    c'.Echoes Eq (itemsOfExpr rec scope e extent) fun rec' => itemsOfExpr rec' scope e' extent := by
  unfold itemsOfExpr
  rw [Path.ofExpr?_eq he]
  split
  · exact (Echoes.rootOf scope _).bind fun sequence _ hs => hs ▸ echoes_itemsOf h sequence _ extent
  · exact (h.value scope he).bind fun v _ hv => hv ▸ .pure rfl

omit h in
theorem echoes_enterItems (id : ContextId) (items : List Item) :
    c'.Echoes Eq (enterItems id items) fun _ => enterItems id items := by
  refine (Echoes.context id).bind fun d d' hd => ?_
  rw [hd.statement_eq]
  refine (Echoes.statement _).bind fun st _ hst => hst ▸ ?_
  exact (Echoes.modifyStatement _ _).bind fun _ _ _ => .pure rfl

theorem echoes_selectItems (id : ContextId) (steps : List String) (extent : Extent) :
    c'.Echoes Eq (selectItems rec id steps extent) fun rec' => selectItems rec' id steps extent :=
  (echoes_itemsOf h id steps extent).bind fun items _ hitems => hitems ▸ echoes_enterItems id items

theorem echoes_settableColumn (id : ContextId) (steps : List String) (table : Option TableId) :
    c'.Echoes Eq (settableColumn rec id steps table) fun rec' => settableColumn rec' id steps table := by
  refine (h.classify id steps).answer (fun d _ hd => hd ▸ ?_) (fun _ _ _ _ => .same _) fun e he => ?_
  · cases d with
    | field column aliasName =>
      dsimp only
      split
      · exact .same _
      · exact .pure rfl
    | table | association | computed | object => exact .same _
  · cases e with
    | memberResolution path fault => exact absurd rfl (he path fault)
    | _ => exact ⟨rfl, fun _ => rfl⟩

theorem echoes_entered? (into : ContextId) (steps : List String) {e e' : Expr} (he : e.erase = e'.erase) :
    c'.Echoes (Option.Rel (List.Forall₂ Expr.BindingPeers)) (entered? rec into steps e) fun rec' =>
      entered? rec' into steps e' := by
  have hbindings := Expr.rel_bindings? he
  unfold entered?
  generalize e.bindings? = x at hbindings
  generalize e'.bindings? = x' at hbindings
  cases hbindings with
  | none => exact .pure .none
  | some hbindings =>
    refine (echoes_ask h into steps .field).bind fun answer _ ha => ha ▸ .pure ?_
    split
    · exact .none
    · exact .some hbindings

end

section

variable (hc : c.erase = c'.erase)
include hc

theorem echoes_rowColumns (id : ContextId) (outer : Option String) (extent : Extent) :
    c'.Echoes Eq (c.rowColumns id outer extent) fun _ => c'.rowColumns id outer extent := by
  refine (Echoes.context id).bind fun d d' hd => ?_
  rw [hd.kindName_eq, hd.rows?_eq]
  refine (Echoes.orFailSame _ _).bind fun rows _ hrows => hrows ▸ (echoes_entity hc _).bind fun e e' he => ?_
  rw [Entity.columnsWithin_eq he, database_eq hc]
  cases extent with
  | key =>
    refine (Echoes.orDangling _).bind fun keys _ hkeys => hkeys ▸ ?_
    exact Echoes.bind (R := Eq) (.pure rfl) fun columns _ hcolumns => hcolumns ▸ .pure rfl
  | field | all => exact Echoes.bind (R := Eq) (.pure rfl) fun columns _ hcolumns => hcolumns ▸ .pure rfl

theorem echoes_targetColumn (target : TableId) (name : String) :
    c'.Echoes Eq (c.targetColumn target name) fun _ => c'.targetColumn target name := by
  refine (echoes_entityOver hc target).bind fun e e' he => ?_
  have hmember := Entity.rel_member? he name
  generalize e.member? name = m at hmember
  generalize e'.member? name = m' at hmember
  cases hmember with
  | none => exact .same _
  | some hm =>
    cases hm with
    | column => exact .pure rfl
    | computed | association => exact .same _

theorem echoes_bindTarget (number : StatementId) (table : TableId) :
    c'.Echoes Eq (c.bindTarget number table) fun _ => c'.bindTarget number table := by
  refine (Echoes.statement number).bind fun st _ hst => hst ▸ ?_
  rw [database_eq hc]
  split
  · exact (Echoes.orDangling _).bind fun first _ hfirst => hfirst ▸ (Echoes.orDangling _).bind fun second _ hsecond =>
      hsecond ▸ .same _
  · exact .modifyStatement _ _

theorem echoes_completeUpdate (number : StatementId) :
    c'.Echoes Eq (c.completeUpdate number) fun _ => c'.completeUpdate number := by
  refine (Echoes.statement number).bind fun st _ hst => hst ▸ ?_
  rw [database_eq hc]
  dsimp only
  split
  · exact (Echoes.orDangling _).bind fun name _ hname => hname ▸ .same _
  · exact .modifyStatement _ _

variable (h : rec.Echo c')
include h

theorem echoes_members (id : ContextId) (steps : List String) (extent : Extent) :
    c'.Echoes Eq (c.members rec id steps extent) fun rec' => c'.members rec' id steps extent := by
  refine (h.classify id steps).bind fun d _ hd => hd ▸ ?_
  cases d with
  | field | computed => exact .pure rfl
  | table rows | association rows => exact echoes_rowColumns hc rows none extent
  | object owner objectSteps =>
    refine (Echoes.context owner).bind fun d d' hd => ?_
    cases hd with
    | @projection parent number sequence f g hfg scalar =>
      dsimp only
      rw [Expr.constructedAt_eq (Lambda.erase_body_eq hfg)]
      refine Echoes.bind (R := Eq) (.mapM_same _ fun name => ?_) fun groups _ hgroups => hgroups ▸ .pure rfl
      exact (h.members owner _ extent).bind fun items _ hitems => hitems ▸ .pure rfl
    | table | association | lambda | update => exact echoes_rowColumns hc owner _ extent

theorem echoes_flatten (into : ContextId) (table : Option TableId) (scope : ContextId) (depth : Nat)
    (outer : List String) {as bs : List (String × Expr)} (hbs : List.Forall₂ Expr.BindingPeers as bs) :
    c'.Echoes Eq (flatten c rec into table scope depth outer as) fun rec' =>
      flatten c' rec' into table scope depth outer bs := by
  induction depth generalizing outer as bs with
  | zero =>
    unfold flatten
    rw [settings_eq hc]
    exact .same _
  | succ depth ih =>
    simp only [flatten_succ]
    refine (Echoes.mapM (Q := Eq) hbs fun a b hab => ?_).bind fun groups _ hgroups => ?_
    · obtain ⟨name, e⟩ := a
      obtain ⟨_, e'⟩ := b
      obtain ⟨rfl, he⟩ := hab
      refine (echoes_entered? h into _ he).bind fun nested nested' hnested => ?_
      cases hnested with
      | some hnested => exact ih _ hnested
      | none =>
        have hstrip : e.strip.erase = e'.strip.erase := by rw [Expr.erase_strip, he, Expr.erase_strip]
        refine (echoes_settableColumn h into _ table).bind fun column _ hcolumn => ?_
        exact (h.value scope hstrip).bind fun v _ hv => by
          rw [hcolumn, hv]
          exact .pure rfl
    · rw [List.forall₂_eq_eq_eq] at hgroups
      exact hgroups ▸ .pure rfl

theorem echoes_setterItems {f g : Lambda} (hfg : f.erase = g.erase) (into : ContextId) (table : Option TableId)
    (sequence : ContextId) (parent : Option ContextId) :
    c'.Echoes Eq (c.setterItems rec f into table sequence parent) fun rec' =>
      c'.setterItems rec' g into table sequence parent := by
  have hbody := Lambda.erase_body_eq hfg
  have hbindings := Expr.rel_bindings? hbody
  refine (Echoes.lambdaScope hfg sequence parent).bind fun scope _ hscope => hscope ▸ ?_
  generalize f.body.bindings? = x at hbindings
  generalize g.body.bindings? = x' at hbindings
  cases hbindings with
  | some hbindings =>
    dsimp only
    rw [settings_eq hc]
    exact echoes_flatten hc h into table scope _ [] hbindings
  | none =>
    have hstrip : f.body.strip.erase = g.body.strip.erase := by rw [Expr.erase_strip, hbody, Expr.erase_strip]
    refine (echoes_itemsOfExpr h scope hstrip .all).bind fun items _ hitems => hitems ▸ ?_
    refine .mapM_same items fun item => ?_
    refine (Echoes.orFailSame _ _).bind fun member _ hmember => hmember ▸ ?_
    exact (echoes_settableColumn h into _ table).bind fun column _ hcolumn => hcolumn ▸ .pure rfl

end

end Compiler
end ObjectQuery
