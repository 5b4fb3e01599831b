import ObjectQuery.Proofs.Intact.Queries
import ObjectQuery.Proofs.Repeated.Operators
import ObjectQuery.Proofs.Repeated.Register

/-!
Members that are selected again. What was selected is selected the second time too, as the same items exactly where
nothing in their values is numbered.
-/
namespace ObjectQuery

open Build Compiler

namespace Replay

variable {R : Replay} {c : Compiler} {n : R.Moment} {ℓ : Prop} {i j : ContextId} {d : Context}

/-- Before anything is compiled, everything is outside, and is its own image. -/
def start (R : Replay) : R.Moment where
  images := List.range R.first.contexts.length
  outer i := i < R.first.contexts.length
  left := R.first
  right := R.second

theorem at_start (h : R.first.Has i) : R.start.At ℓ i i := by
  obtain ⟨d, hd⟩ := h
  have hi := (List.getElem?_eq_some_iff.mp hd).1
  exact ⟨List.getElem?_range hi, fun _ => hi⟩

theorem image_start (hs : R.first.Intact c) (hd : R.first.contexts[i]? = some d) (more : List (String × ContextId)) :
    R.start.Image ℓ d (d.followAll more) := by
  have hrefers := hs.refers i d hd
  have hhas : ∀ k, d.parent = some k → R.first.Has k := fun k hk => by
    cases hs.ends i ⟨d, hd⟩ with
    | up _ he h =>
      obtain rfl := Option.some.inj (hd.symm.trans he)
      rw [hk] at h
      cases h with
      | up _ he' => exact ⟨_, he'⟩
  have hparent : Option.Rel (R.start.At ℓ) d.parent d.parent := by
    cases hk : d.parent with
    | none => exact .none
    | some k => exact .some (at_start (hhas k hk))
  have hranges : ∀ k ∈ d.ranges, R.start.At ℓ k k := fun k hk => by
    obtain ⟨e, he, -⟩ := hrefers.ranges k hk
    exact at_start ⟨e, he⟩
  have hrows : ∀ r, d.rows? = some r → R.start.RowsImage ℓ r { r with followed := r.followed ++ more } := by
    refine fun r hr => ⟨rfl, rfl, fun name k hk => ⟨k, by simp [List.lookup_append, hk], ?_⟩⟩
    obtain ⟨before, after, hfollowed, -⟩ := List.lookup_eq_some_iff.mp hk
    obtain ⟨e, he, -⟩ := hrefers.followed r hr (name, k) (by simp [hfollowed])
    exact at_start ⟨e, he⟩
  cases d with
  | table p s r => exact .table hparent (hrows r rfl)
  | association owner s name r => exact .association (at_start (hhas owner rfl)) (hrows r rfl)
  | projection p s o f scalar => exact .projection hparent (hranges o List.mem_cons_self)
  | lambda p s bs =>
    exact .lambda hparent (List.forall₂_same.mpr fun x hx => ⟨rfl, hranges x.2 (List.mem_map_of_mem hx)⟩)
  | update p s o => exact .update hparent (hranges o List.mem_cons_self)

theorem inStep_start (hs : R.first.Intact c) (ht : c.Landed R.second) (hl : R.first.Later R.second) :
    R.start.InStep c where
  paired := {
    length := List.length_range
    contexts := fun {i d} hd => by
      obtain ⟨more, he⟩ := hl i d hd
      refine ⟨i, _, (at_start (ℓ := False) ⟨d, hd⟩).1, he, image_start hs hd more, ?_⟩
      rw [Context.statement_followAll, slot, if_pos (hs.refers i d hd).statement]
    outside := fun {i} hi => ⟨_, List.getElem?_eq_getElem hi, (hs.refers i _ (List.getElem?_eq_getElem hi)).statement⟩
    distinct := fun hi hk _ _ => by
      simp only [start, List.getElem?_eq_some_iff, List.getElem_range] at hi hk
      rw [hi.2, hk.2]
    landed := ht }
  counted := {
    begun := Nat.le_refl _
    length := (Nat.add_sub_cancel' R.statements).symm
    targets := fun hk hst => absurd (List.getElem?_eq_some_iff.mp hst).1 (Nat.not_lt.mpr hk)
    known := Nat.le_refl _
    parameters := (Nat.add_sub_cancel' R.parameters).symm }
  noted := fun i _ _ hi _ _ hle => absurd hi (Nat.not_lt.mpr hle)

/-! What is outside when both have ended. -/

variable (h : n.InStep c) (hn : R.start.Later n) (hl : n.left.Later n.right)

include h hn hl

/-- Rows outside are their own images: an association that was followed from them is found again. -/
theorem image_outer (hi : n.outer i) (hd : n.left.contexts[i]? = some d) (hr : d.rows?.isSome) :
    n.images[i]? = some i := by
  induction i using Nat.strong_induction_on generalizing d with
  | _ i ih =>
    obtain ⟨r, hr⟩ := Option.isSome_iff_exists.mp hr
    by_cases hlt : i < R.first.contexts.length
    · exact (Moment.At.mono (at_start (ℓ := False) ⟨_, List.getElem?_eq_getElem hlt⟩) hn).1
    · obtain ⟨owner, s, name, q, rfl, hlt, houter, hfollows⟩ := h.noted i d r hi hd hr (Nat.le_of_not_lt hlt)
      obtain ⟨x, y, hx, hy, hxy⟩ := id hfollows
      have howner := ih owner hlt houter hx (Option.isSome_iff_exists.mpr ⟨y, hy⟩)
      obtain ⟨e, he, himage, -⟩ := h.paired.image_of_getElem? ⟨howner, fun _ : True => houter⟩ hx
      obtain ⟨x', y', hx', hy', hright⟩ := hfollows.mono hl
      obtain rfl := Option.some.inj (he.symm.trans hx')
      have hrows := himage.rows?
      rw [hy, hy'] at hrows
      cases hrows with
      | some hrows =>
        obtain ⟨j, hj, hij⟩ := hrows.followed name i hxy
        obtain rfl := Option.some.inj (hright.symm.trans hj)
        exact hij.1

theorem honest : n.Honest := by
  intro i j d e r r' hi hj hd he hr hr'
  obtain rfl := Option.some.inj (hj.symm.trans (image_outer h hn hl hi hd (Option.isSome_iff_exists.mpr ⟨r, hr⟩)))
  obtain ⟨more, he'⟩ := hl j d hd
  obtain rfl := Option.some.inj (he.symm.trans he')
  rw [Context.rows?_followAll_of hr] at hr'
  rw [← Option.some.inj hr']

omit h hn hl

theorem renumber_eq_iff (hs : n.left.statements.length = R.second.statements.length)
    (hp : n.left.parameters = R.second.parameters) {v : SqlExpr} (hv : ∀ l ∈ v.leaves, n.Fresh l) :
    v.renumber R.renumbering = v ↔ ∀ l ∈ v.leaves, l.isNumbered = false := by
  refine ⟨fun h l hl => ?_, v.renumber_of_plain⟩
  have hself := v.renumber_leaf_eq h l hl
  have hfresh := hv l hl
  cases l with
  | subquery k =>
    have hshift : 0 < R.shift := Nat.sub_pos_of_lt (hs ▸ hfresh)
    have hk : k + R.shift = k := SqlExpr.subquery.inj hself
    exact absurd hk (Nat.ne_of_gt (Nat.lt_add_of_pos_right hshift))
  | parameter name value =>
    cases value with
    | none => rfl
    | some value =>
      obtain ⟨hlt, k, rfl⟩ := hfresh
      have hoffset : 0 < R.offset := Nat.sub_pos_of_lt (hp ▸ hlt)
      rw [SqlExpr.renumber, renumbering, Renumbering.text_shift, SqlExpr.parameter.injEq] at hself
      exact absurd (parameterText_injective hself.1) (Nat.ne_of_gt (Nat.lt_add_of_pos_right hoffset))
  | _ => rfl

theorem repeats_itemsOf {rec : ObjectQuery.Calls} (h : R.Calls c rec) (hij : n.At ℓ i j) (steps : List String)
    (extent : Extent) : Repeats c n
      (fun m => List.Forall₂ fun x y : Item => y.member = x.member ∧ m.Shifted ℓ x.value y.value)
      (itemsOf rec i steps extent) (itemsOf rec j steps extent) := by
  refine (h.members steps extent hij).bind fun m _ xs ys hxy => .pure ?_
  rw [List.forall₂_map_left_iff, List.forall₂_map_right_iff]
  exact hxy.imp fun x y hxy => ⟨congrArg (· <|> _) hxy.1, hxy.2⟩

end Replay

namespace Compiler

variable {c : Compiler} {s t u : BuildState} {id : ContextId} {steps : List String} {extent : Extent} {n : Nat}

theorem run_enterItems {d : Context} {st : Statement} (hd : s.contexts[id]? = some d)
    (hst : s.statements[d.statement]? = some st) (items : List Item) :
    (enterItems id items).run s = (.ok (register st.select items).2,
      s.alter d.statement fun m => { m with select := (register st.select items).1 }) := by
  have hstatement : (statement d.statement).run s = (.ok st, s) := by
    rw [run_statement, hst]
    rfl
  simp only [enterItems, run_bind, run_context_of hd, hstatement, run_modifyStatement, hst]
  rfl

theorem of_run_enterItems {items entered : List Item} (hrun : (enterItems id items).run s = (.ok entered, t)) :
    ∃ d st, s.contexts[id]? = some d ∧ s.statements[d.statement]? = some st ∧
      entered = (register st.select items).2 ∧
      t = s.alter d.statement fun m => { m with select := (register st.select items).1 } := by
  obtain ⟨d, s₁, hcontext, hrest⟩ := exists_of_run_bind hrun
  obtain ⟨hd, rfl⟩ := of_run_context hcontext
  obtain ⟨st, s₂, hstatement, -⟩ := exists_of_run_bind hrest
  obtain ⟨hst, rfl⟩ := of_run_statement hstatement
  rw [run_enterItems hd hst] at hrun
  cases hrun
  exact ⟨d, st, hd, hst, rfl, rfl⟩

theorem run_selectItems_again {extent : Extent} {items : List Item}
    (hrun : (selectItems (c.calls n) id steps extent).run s = (.ok items, t)) :
    ∃ raw s₁ m list, (itemsOf (c.calls n) id steps extent).run s = (.ok raw, s₁) ∧ items = (register list raw).2 ∧
      t = (s₁.alter m fun st => { st with select := (register list raw).1 }) ∧
      ∀ raw' u, (itemsOf (c.calls n) id steps extent).run t = (.ok raw', u) →
        (selectItems (c.calls n) id steps extent).run t = (.ok (register (register list raw).1 raw').2,
          u.alter m fun st => { st with select := (register (register list raw).1 raw').1 }) := by
  obtain ⟨raw, s₁, hraw, henter⟩ := exists_of_run_bind hrun
  obtain ⟨d, st, hd, hst, rfl, rfl⟩ := of_run_enterItems henter
  refine ⟨raw, s₁, d.statement, st.select, hraw, rfl, rfl, fun raw' u hraw' => ?_⟩
  have hext := (derives_itemsOf (c.calls_derive n) id steps extent).extends_of_run hraw'
  have hst' := BuildState.getElem?_alter s₁ d.statement d.statement
    fun m => { m with select := (register st.select raw).1 }
  rw [if_pos rfl, hst, Option.map_some] at hst'
  obtain ⟨more, hd'⟩ := hext.contexts id d hd
  obtain ⟨joins, -, hu⟩ := hext.statements _ _ hst'
  rw [← Context.statement_followAll more d] at hu
  rw [selectItems, run_bind, hraw']
  have henter' := run_enterItems hd' hu raw'
  rw [Context.statement_followAll] at henter'
  exact henter'

theorem has_of_run_itemsOf {raw : List Item} (hrun : (itemsOf (c.calls n) id steps extent).run s = (.ok raw, t)) :
    s.Has id := by
  obtain ⟨_, _, hmembers, -⟩ := exists_of_run_bind hrun
  cases n with
  | zero => cases hmembers
  | succ n =>
    obtain ⟨_, _, hclassify, -⟩ := exists_of_run_bind hmembers
    cases n with
    | zero => cases hclassify
    | succ n =>
      obtain ⟨d, _, hcontext, -⟩ := exists_of_run_bind hclassify
      exact ⟨d, (of_run_context hcontext).1⟩

theorem parameters_le_of_run_itemsOf {admits : Node → Prop} {raw : List Item} (h : c.Visits admits s)
    (hrun : (itemsOf (c.calls n) id steps extent).run s = (.ok raw, t)) : s.parameters ≤ t.parameters := by
  let R : Replay := ⟨s, s, Nat.le_refl _, Nat.le_refl _⟩
  have hstart : R.start.InStep c := Replay.inStep_start h.intact h.landed (BuildState.Extends.refl s).later
  obtain ⟨k, _, rfl, hlater, -⟩ := Replay.repeats_itemsOf (ℓ := False) (Replay.repeats_calls c n)
    (Replay.at_start (has_of_run_itemsOf hrun)) steps extent hstart raw t hrun
  exact hlater.parameters

/-- Members that have been selected are selected again. A member is the same item as before exactly if its value lasts;
if all do, nothing is entered into the select list. -/
theorem selectItems_again {admits : Node → Prop} (h : c.Visits admits s) {items : List Item}
    (hrun : (selectItems (c.calls n) id steps extent).run s = (.ok items, t)) :
    ∃ items' u, (selectItems (c.calls n) id steps extent).run t = (.ok items', u) ∧
      List.Forall₂ (fun item item' => item'.member = item.member ∧ (item' = item ↔ item.value.Lasts)) items items' ∧
      ((∀ item ∈ items, item.value.Lasts) → items' = items ∧ ∀ (m : StatementId) (st : Statement),
        t.statements[m]? = some st → ∃ st', u.statements[m]? = some st' ∧ st'.select = st.select) := by
  have hlanded : c.Landed t := by
    have hlaw := (keeps_selectItems (calls_obey c.landing n) id steps extent s).2
    rw [hrun] at hlaw
    exact hlaw h.landed
  obtain ⟨raw, s₁, m, list, hraw, rfl, rfl, hagain⟩ := run_selectItems_again hrun
  have hext := (derives_itemsOf (c.calls_derive n) id steps extent).extends_of_run hraw
  have hparameters := parameters_le_of_run_itemsOf h hraw
  generalize ht : (s₁.alter m fun st => { st with select := (register list raw).1 }) = t at *
  have hcontexts : t.contexts = s₁.contexts := ht ▸ rfl
  have hlength : s₁.statements.length = t.statements.length := ht ▸ (s₁.length_alter m _).symm
  have hknown : s₁.parameters = t.parameters := ht ▸ rfl
  let R : Replay := ⟨s, t, hlength ▸ hext.length_le, hknown ▸ hparameters⟩
  have hstart : R.start.InStep c :=
    Replay.inStep_start h.intact hlanded (hext.later.trans (BuildState.later_of_eq hcontexts))
  obtain ⟨k, raw', hk, hlater, hstep, hraw', hitems⟩ := Replay.repeats_itemsOf (ℓ := True) (Replay.repeats_calls c n)
    (Replay.at_start (has_of_run_itemsOf hraw)) steps extent hstart raw s₁ hraw
  have hext' := (derives_itemsOf (c.calls_derive n) id steps extent).extends_of_run hraw'
  have hhonest : k.Honest := Replay.honest hstep hlater
    (hk ▸ (BuildState.later_of_eq hcontexts).trans hext'.later)
  have hlasts : List.Forall₂ (fun x y : Item => y.member = x.member ∧ (y = x ↔ x.value.Lasts)) (register list raw).2
      (register (register list raw).1 raw').2 := by
    have hshifted := register_again list
      (P := fun v w => w = v.renumber R.renumbering ∧ ∀ l ∈ v.leaves, k.Fresh l)
      (hitems.imp fun x y hxy => ⟨hxy.1, hxy.2 trivial hhonest⟩)
    refine hshifted.imp fun x y ⟨hmember, ⟨hvalue, hfresh⟩, hxy⟩ => ?_
    rw [hvalue, Replay.renumber_eq_iff (hk ▸ hlength) (hk ▸ hknown) hfresh] at hxy
    exact ⟨hmember, hxy.trans and_comm⟩
  refine ⟨_, _, hagain raw' k.right hraw', hlasts, fun hall => ?_⟩
  have heq : (register (register list raw).1 raw').2 = (register list raw).2 := by
    have hboth := ((List.forall₂_and_left _ _).mpr ⟨hall, hlasts⟩).imp (S := fun x y => x = y)
      fun x y hxy => (hxy.2.2.mpr hxy.1).symm
    rw [List.forall₂_eq_eq_eq] at hboth
    exact hboth.symm
  refine ⟨heq, fun a st ha => ?_⟩
  obtain ⟨joins, -, hu⟩ := hext'.statements a st ha
  rw [BuildState.getElem?_alter, hu]
  split
  · next ham =>
    rw [← ht, BuildState.getElem?_alter, if_pos ham] at ha
    obtain ⟨st', -, rfl⟩ := Option.map_eq_some_iff.mp ha
    exact ⟨_, rfl, register_again_of_eq heq fun item hitem => (hall item hitem).1⟩
  · exact ⟨_, rfl, rfl⟩

end Compiler

/-- Employees with their names, and the number of departments beside each. -/
def headcounts : Node :=
  (Node.source "Employee").select ⟨["e"], .construct [("who", nameOf "e"),
    ("departments", .aggregate .count (.source "Department") none)]⟩

def headcountsBuilt : BuildState :=
  ((Compiler.company.root 12 headcounts).run {}).2

/-- The name is selected again as it was, and the number of departments as another sub-query. Of the staff everything is
selected again as it was. -/
theorem Compiler.selectItems_again_headcounts :
    (∃ who departments t, (selectItems (company.calls 12) 1 [] .all).run headcountsBuilt =
        (.ok [who, departments], t) ∧ ∃ departments' u, (selectItems (company.calls 12) 1 [] .all).run t =
          (.ok [who, departments'], u) ∧ departments' ≠ departments) ∧
      ∃ items t, (selectItems (company.calls 12) 1 [] .all).run staffBuilt = (.ok items, t) ∧ items.length = 4 ∧
        ∃ u, (selectItems (company.calls 12) 1 [] .all).run t = (.ok items, u) := by
  have hcounted : company.Visits (fun _ => True) headcountsBuilt := .root .absent 12 .start trivial
  have hstaff : company.Visits (fun _ => True) staffBuilt := .root .absent 12 .start trivial
  have hrun : ∃ who departments t, (selectItems (company.calls 12) 1 [] .all).run headcountsBuilt =
      (.ok [who, departments], t) ∧ who.value.Lasts ∧ ¬ departments.value.Lasts :=
    ⟨_, _, _, rfl, by decide, by decide⟩
  have hrun' : ∃ items t, (selectItems (company.calls 12) 1 [] .all).run staffBuilt = (.ok items, t) ∧
      items.length = 4 ∧ ∀ item ∈ items, item.value.Lasts := ⟨_, _, rfl, rfl, by decide⟩
  obtain ⟨who, departments, t, hrun, hwho, hdepartments⟩ := hrun
  obtain ⟨items, t', hrun', hlength, hlasts⟩ := hrun'
  obtain ⟨items', u, hagain, hitems, -⟩ := selectItems_again hcounted hrun
  obtain ⟨_, u', hagain', -, hall⟩ := selectItems_again hstaff hrun'
  obtain ⟨rfl, -⟩ := hall hlasts
  refine ⟨⟨who, departments, t, hrun, ?_⟩, _, t', hrun', hlength, u', hagain'⟩
  cases hitems with
  | cons hfirst hrest =>
    cases hrest with
    | cons hsecond hnone =>
      cases hnone
      obtain rfl := hfirst.2.mpr hwho
      exact ⟨_, u, hagain, mt hsecond.2.mp hdepartments⟩

end ObjectQuery
