import ObjectQuery.Proofs.Laws.Basic
import ObjectQuery.Proofs.OwnRow

/-!
The column that a set assigns. A value that is given assigns the column that the path denotes in the sequence. So
does a computed value as long as no target is known; then it assigns a column of the target, by its qualified name.
-/
namespace ObjectQuery

open Build

/-- From the state, setting the member to the operand succeeds, and appends an item for the column. -/
def Compiler.SetsColumn (c : Compiler) (fuel : Nat) (s : BuildState) (sequence : ContextId)
    (parent : Option ContextId) (member : Lambda) (operand : Argument) (k : ColumnId) : Prop :=
  ∃ (node : Node) (d : Context) (t : BuildState) (st : Statement) (before : List SetItem) (value : SqlExpr),
    node.operands = [.lambda member, operand] ∧ s.contexts[sequence]? = some d ∧
    (c.buildSet (c.calls fuel) node sequence parent).run s = (.ok sequence, t) ∧
    t.statements[d.statement]? = some st ∧ st.update.items = before ++ [⟨k, value⟩]

/-- From the state, a set of the path to the operand is one of the column. -/
def Compiler.AssignsTo (c : Compiler) (rec : Calls) (s : BuildState) (sequence : ContextId) (path : Path)
    (operand : Argument) (k : ColumnId) : Prop :=
  match operand with
  | .lambda _ => ∃ d st, s.contexts[sequence]? = some d ∧ s.statements[d.statement]? = some st ∧
      match st.update.target with
      | none => ∃ a, ((rec.classify sequence path.steps).run s).1 = .ok (.field k a)
      | some target => ∃ base, c.schema.mapping.entityOver? target = some base ∧
          base.member? path.qualifiedName = some (.column k)
  | _ => ∃ a, ((rec.classify sequence path.steps).run s).1 = .ok (.field k a)

variable {c : Compiler} {s : BuildState} {sequence : ContextId} {parent : Option ContextId} {fuel : Nat}
  {member : Lambda} {operand : Argument} {k k₁ k₂ : ColumnId} {path : Path}

theorem Compiler.longestMember?_join {e : Entity} {steps : List String} {m : Member} (hne : steps ≠ [])
    (hm : e.member? (Dotted.join steps) = some m) :
    longestMember? e steps = some (Dotted.join steps, m, []) := by
  have hfirst : (Path.prefixes steps).head? = some (Dotted.join steps, []) := by
    obtain ⟨n, hn⟩ := Nat.exists_eq_succ_of_ne_zero (mt List.eq_nil_of_length_eq_zero hne)
    have hle : steps.length ≤ n + 1 := by omega
    rw [Path.prefixes, hn, List.range_succ, List.reverse_append, List.reverse_singleton, List.singleton_append,
      List.map_cons, List.take_of_length_le hle, List.drop_of_length_le hle, List.head?_cons]
  cases hs : Path.prefixes steps with
  | nil => simp [hs] at hfirst
  | cons first shorter =>
    have hfirst' : first = (Dotted.join steps, []) := by simpa [hs] using hfirst
    simp [longestMember?, hs, hfirst', hm]

namespace Compiler

theorem path_of_selectedPath (h : selectedPath member = .ok path) : path.steps ≠ [] := by
  unfold selectedPath at h
  split at h
  · cases h
  · next row _ =>
    split at h
    · next hp =>
      cases h
      have hmember : path.root = row ∧ path.steps ≠ [] := by
        simpa using (Option.filter_eq_some_iff.mp hp).2
      exact hmember.2
    · cases h

theorem items_of_run_addItems {m : StatementId} {items : List SetItem} {t : BuildState} {st : Statement}
    (h : (addItems m items).run s = (.ok (), t)) (hst : t.statements[m]? = some st) :
    ∃ old : Statement, s.statements[m]? = some old ∧ st.update.items = old.update.items ++ items := by
  rw [addItems, run_modifyStatement] at h
  cases hold : s.statements[m]? with
  | none =>
    rw [hold] at h
    cases h
  | some old =>
    rw [hold] at h
    cases h
    have hst' : st = { old with update := old.update.append items } := by
      simpa [BuildState.alter, hold] using hst.symm
    exact ⟨old, rfl, by simp [hst', Assignments.append]⟩

theorem SetsColumn.item (h : c.SetsColumn fuel s sequence parent member operand k) :
    ∃ path value t, selectedPath member = .ok path ∧
      (c.setItem (c.calls fuel) member path operand sequence parent).run s = (.ok ⟨k, value⟩, t) := by
  obtain ⟨node, d, t, st, before, value, hoperands, hd, hrun, hst, hitems⟩ := h
  rw [buildSet, hoperands] at hrun
  obtain ⟨_, s₁, hcomposable, hbuild⟩ := exists_of_run_bind hrun
  obtain rfl := of_run_ensureComposable hcomposable
  obtain ⟨path, s₂, hselect, hread⟩ := exists_of_run_bind hbuild
  obtain ⟨hpath, rfl⟩ := of_run_ofExcept hselect
  obtain ⟨d', s₃, hcontext, hset⟩ := exists_of_run_bind hread
  obtain ⟨hd', rfl⟩ := of_run_context hcontext
  obtain ⟨item, s₄, hitem, hwrite⟩ := exists_of_run_bind hset
  obtain ⟨_, s₅, -, happend⟩ := exists_of_run_bind hwrite
  obtain ⟨_, s₆, hadd, hlast⟩ := exists_of_run_bind happend
  cases hlast
  have hsame : d' = d := by simpa [hd] using hd'.symm
  obtain ⟨old, -, hgained⟩ := items_of_run_addItems hadd (hsame ▸ hst)
  have hnew : item = ⟨k, value⟩ := by
    rw [hitems] at hgained
    simpa using (congrArg List.getLast? hgained).symm
  exact ⟨path, value, s₄, hpath, hnew ▸ hitem⟩

/-- A value that is given goes where the path leads. A computed value goes there as well, but to the target as soon as
there is one. -/
theorem assignsTo_of_run_setItem [Observer] {rec : Calls} {item : SetItem} {t : BuildState}
    (h : (c.setItem rec member path operand sequence parent).run s = (.ok item, t)) :
    c.AssignsTo rec s sequence path operand item.column := by
  cases operand with
  | «entity» | «sequence» => cases h
  | value e =>
    obtain ⟨column, s₁, hcolumn, hscope⟩ := exists_of_run_bind h
    obtain ⟨_, _, -, hvalue⟩ := exists_of_run_bind hscope
    obtain ⟨_, _, -, hlast⟩ := exists_of_run_bind hvalue
    cases hlast
    obtain ⟨a, hclassify⟩ := of_run_settableColumn hcolumn
    exact ⟨a, congrArg Prod.fst hclassify⟩
  | lambda l =>
    obtain ⟨column, s₁, hcolumn, hscope⟩ := exists_of_run_bind h
    obtain ⟨_, _, -, hvalue⟩ := exists_of_run_bind hscope
    obtain ⟨_, _, -, hlast⟩ := exists_of_run_bind hvalue
    cases hlast
    obtain ⟨d, s₂, hcontext, hread⟩ := exists_of_run_bind hcolumn
    obtain ⟨hd, rfl⟩ := of_run_context hcontext
    obtain ⟨st, s₃, hstatement, hchoice⟩ := exists_of_run_bind hread
    obtain ⟨hst, rfl⟩ := of_run_statement hstatement
    refine ⟨d, st, hd, hst, ?_⟩
    cases htarget : st.update.target with
    | none =>
      rw [htarget] at hchoice
      obtain ⟨a, hclassify⟩ := of_run_settableColumn hchoice
      exact ⟨a, congrArg Prod.fst hclassify⟩
    | some target =>
      rw [htarget] at hchoice
      obtain ⟨base, s₄, hbase, hmember⟩ := exists_of_run_bind hchoice
      obtain ⟨table, s₅, -, hentity⟩ := exists_of_run_bind hbase
      refine ⟨base, (of_run_orFail hentity).1, ?_⟩
      split at hmember
      · next column hm =>
        cases hmember
        exact hm
      · cases hmember

theorem SetsColumn.assignsTo (h : c.SetsColumn fuel s sequence parent member operand k)
    (hp : selectedPath member = .ok path) : c.AssignsTo (c.calls fuel) s sequence path operand k := by
  obtain ⟨path', value, t, hp', hitem⟩ := h.item
  obtain rfl := Except.ok.inj (hp'.symm.trans hp)
  exact assignsTo_of_run_setItem hitem

theorem SetsColumn.computed {l : Lambda} {d : Context}
    (h : c.SetsColumn fuel s sequence parent member (.lambda l) k) (hp : selectedPath member = .ok path)
    (hd : s.contexts[sequence]? = some d) :
    ∃ st, s.statements[d.statement]? = some st ∧
      match st.update.target with
      | none => ∃ a, (((c.calls fuel).classify sequence path.steps).run s).1 = .ok (.field k a)
      | some target => ∃ base, c.schema.mapping.entityOver? target = some base ∧
          base.member? path.qualifiedName = some (.column k) := by
  obtain ⟨d', st, hd', hst, hk⟩ := h.assignsTo hp
  obtain rfl := Option.some.inj (hd'.symm.trans hd)
  exact ⟨st, hst, hk⟩

theorem run_classifyMember_column {rec : Calls} {r : Rows} {d : Context} {e : Entity} {steps : List String}
    (hd : s.contexts[sequence]? = some d) (hr : d.rows? = some r) (he : c.schema.mapping.entity? r.entity = some e)
    (hne : steps ≠ []) (hm : e.member? (Dotted.join steps) = some (.column k)) :
    (c.classifyMember rec sequence steps).run s = (.ok (.field k r.aliasName), s) := by
  have hl := longestMember?_join hne hm
  rw [classifyMember, run_bind, run_context, hd]
  cases steps with
  | nil => exact absurd rfl hne
  | cons step steps => simp [orFail, hr, entity, he, hl]

/-- A path from rows to a column that their entity declares under the qualified name denotes that column. -/
theorem classify_eq_field {r : Rows} {d : Context} {e : Entity} {steps : List String} {x : Denotation}
    (hd : s.contexts[sequence]? = some d) (hr : d.rows? = some r) (he : c.schema.mapping.entity? r.entity = some e)
    (hne : steps ≠ []) (hm : e.member? (Dotted.join steps) = some (.column k))
    (hx : (((c.calls fuel).classify sequence steps).run s).1 = .ok x) : x = .field k r.aliasName := by
  cases fuel with
  | zero => cases hx
  | succ fuel =>
    have hclassify : (c.classify (c.calls fuel) sequence steps).run s =
        (c.classifyMember (c.calls fuel) sequence steps).run s := by
      rw [classify, run_bind, run_context, hd]
      cases d with
      | table | association => rfl
      | projection | lambda | update => cases hr
    have hx' : ((c.classify (c.calls fuel) sequence steps).run s).1 = .ok x := hx
    rw [hclassify, run_classifyMember_column hd hr he hne hm] at hx'
    exact (Except.ok.inj hx').symm

section SameColumn

variable {l : Lambda} {e : Expr} {d : Context} {st : Statement}
  (h₁ : c.SetsColumn fuel s sequence parent member (.lambda l) k₁)
  (h₂ : c.SetsColumn fuel s sequence parent member (.value e) k₂)
include h₁ h₂

theorem SetsColumn.eq_iff_declared (hp : selectedPath member = .ok path) (hd : s.contexts[sequence]? = some d)
    (hst : s.statements[d.statement]? = some st) :
    k₁ = k₂ ↔ ∀ target, st.update.target = some target →
      ∃ base, c.schema.mapping.entityOver? target = some base ∧
        base.member? path.qualifiedName = some (.column k₂) := by
  obtain ⟨a, hfield⟩ := h₂.assignsTo hp
  obtain ⟨st', hst', hcomputed⟩ := h₁.computed hp hd
  have hsame : st' = st := by simpa [hst] using hst'.symm
  rw [hsame] at hcomputed
  cases htarget : st.update.target with
  | none =>
    rw [htarget] at hcomputed
    obtain ⟨b, hb⟩ := hcomputed
    have hdenoted : Denotation.field k₁ b = .field k₂ a := Except.ok.inj (hb.symm.trans hfield)
    cases hdenoted
    exact iff_of_true rfl nofun
  | some target =>
    -- the name finds one column in the entity over the target, and this is the one that is assigned
    rw [htarget] at hcomputed
    obtain ⟨base, hbase, hm⟩ := hcomputed
    constructor
    · intro he table ht
      cases ht
      exact ⟨base, hbase, he ▸ hm⟩
    · intro hall
      obtain ⟨base', hbase', hm'⟩ := hall target rfl
      have hentity : base = base' := Option.some.inj (hbase.symm.trans hbase')
      rw [hentity, hm'] at hm
      cases hm
      rfl

/-- Rows of the entity that the target is looked up in know the name as the path does. -/
theorem SetsColumn.eq_of_rows {r : Rows} {target : TableId} (hp : selectedPath member = .ok path)
    (hd : s.contexts[sequence]? = some d) (hst : s.statements[d.statement]? = some st) (hr : d.rows? = some r)
    (htarget : st.update.target = some target)
    (hentity : c.schema.mapping.entityOver? target = c.schema.mapping.entity? r.entity) : k₁ = k₂ := by
  obtain ⟨a, hfield⟩ := h₂.assignsTo hp
  obtain ⟨st', hst', hcomputed⟩ := h₁.computed hp hd
  have hsame : st' = st := by simpa [hst] using hst'.symm
  rw [hsame, htarget] at hcomputed
  obtain ⟨base, hbase, hm⟩ := hcomputed
  have hx := classify_eq_field hd hr (hentity.symm.trans hbase) (path_of_selectedPath hp) hm hfield
  cases hx
  rfl

/-- A given value assigns the column that the path denotes. A computed one assigns the same column if and only if
the first entity over the target, if there is a target already, declares this column under the qualified name of
the path; that it does if the sequence consists of rows of this entity. -/
theorem SetsColumn.eq_iff :
    ∃ path a d st, selectedPath member = .ok path ∧
      (((c.calls fuel).classify sequence path.steps).run s).1 = .ok (.field k₂ a) ∧
      s.contexts[sequence]? = some d ∧ s.statements[d.statement]? = some st ∧
      (k₁ = k₂ ↔ ∀ target, st.update.target = some target →
        ∃ base, c.schema.mapping.entityOver? target = some base ∧
          base.member? path.qualifiedName = some (.column k₂)) ∧
      ∀ r target, d.rows? = some r → st.update.target = some target →
        c.schema.mapping.entityOver? target = c.schema.mapping.entity? r.entity → k₁ = k₂ := by
  obtain ⟨path, value, t, hp, -⟩ := h₂.item
  obtain ⟨a, hfield⟩ := h₂.assignsTo hp
  have hcontext : ∃ d, s.contexts[sequence]? = some d := by
    obtain ⟨node, d, t, st, before, value, -, hd, -⟩ := h₁
    exact ⟨d, hd⟩
  obtain ⟨d, hd⟩ := hcontext
  obtain ⟨st, hst, -⟩ := h₁.computed hp hd
  refine ⟨path, a, d, st, hp, hfield, hd, hst, h₁.eq_iff_declared h₂ hp hd hst, ?_⟩
  intro r target hr htarget hentity
  exact h₁.eq_of_rows h₂ hp hd hst hr htarget hentity

end SameColumn

end Compiler

def nameOf (parameter : String) : Expr :=
  .member (.parameter parameter) "name"

def renamedEmployees : Node :=
  ((Node.source "Employee").set ⟨["e"], nameOf "e"⟩ (.literal (.text "x"))).select
    ⟨["e"], .construct [("id", nameOf "e")]⟩

def selectRenamed : BuildState :=
  ((Compiler.company.root 9 renamedEmployees).run {}).2

def numberOf : Lambda :=
  ⟨["p"], .member (.parameter "p") "id"⟩

theorem setsColumn_given :
    Compiler.company.SetsColumn 9 selectRenamed 2 none numberOf (.value (.literal (.text "y"))) ⟨0, 1⟩ := by
  let node := (Node.source "Employee").set numberOf (.literal (.text "y"))
  let t := ((Compiler.company.buildSet (Compiler.company.calls 9) node 2 none).run selectRenamed).2
  exact ⟨node, selectRenamed.contexts[2]!, t, t.statements[0]!, [⟨⟨0, 1⟩, .literal (.text "x")⟩],
    .literal (.text "y"), rfl, rfl, rfl, rfl, rfl⟩

/-- A computed value assigns the number of the target, which is known by then. -/
theorem setsColumn_computed :
    Compiler.company.SetsColumn 9 selectRenamed 2 none numberOf (.lambda ⟨["q"], .literal (.text "y")⟩)
      ⟨0, 0⟩ := by
  let node := (Node.source "Employee").setWith numberOf ⟨["q"], .literal (.text "y")⟩
  let t := ((Compiler.company.buildSet (Compiler.company.calls 9) node 2 none).run selectRenamed).2
  exact ⟨node, selectRenamed.contexts[2]!, t, t.statements[0]!, [⟨⟨0, 1⟩, .literal (.text "x")⟩],
    .literal (.text "y"), rfl, rfl, rfl, rfl, rfl⟩

/-- A path does not settle what column is assigned: the form of the value matters too. -/
theorem not_column_of_path :
    ¬ ∀ (c : Compiler) (node : Node) (s : BuildState), c.Reached node s →
      ∀ fuel sequence parent member l e k₁ k₂, c.SetsColumn fuel s sequence parent member (.lambda l) k₁ →
        c.SetsColumn fuel s sequence parent member (.value e) k₂ → k₁ = k₂ := by
  intro h
  have hreached : Compiler.company.Reached renamedEmployees selectRenamed := ⟨.absent, 9, rfl⟩
  have hsame := h _ _ _ hreached _ _ _ _ _ _ _ _ setsColumn_computed setsColumn_given
  exact absurd hsame (by decide)

theorem setsColumn_eq_iff_renamedEmployees :
    Compiler.company.SetsColumn 9 selectRenamed 2 none numberOf (.lambda ⟨["q"], .literal (.text "y")⟩) ⟨0, 0⟩ ∧
      Compiler.company.SetsColumn 9 selectRenamed 2 none numberOf (.value (.literal (.text "y"))) ⟨0, 1⟩ ∧
      ∃ path st, Compiler.selectedPath numberOf = .ok path ∧ selectRenamed.statements[0]? = some st ∧
        ¬ ∀ target, st.update.target = some target →
          ∃ base, Compiler.company.schema.mapping.entityOver? target = some base ∧
            base.member? path.qualifiedName = some (.column ⟨0, 1⟩) := by
  obtain ⟨path, a, d, st, hp, -, hd, hst, hiff, -⟩ := setsColumn_computed.eq_iff setsColumn_given
  refine ⟨setsColumn_computed, setsColumn_given, path, st, hp, ?_, fun hall => ?_⟩
  · cases hd
    exact hst
  · exact absurd (hiff.mpr hall) (by decide)

end ObjectQuery
