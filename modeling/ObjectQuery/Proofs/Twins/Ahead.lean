import ObjectQuery.Proofs.Twins.Operators
import ObjectQuery.Proofs.Twins.Source

/-!
One assignment on both sides. On the left it is a set of its own, on the right one binding of a setter, whose item is
kept until all of them are there.
-/
namespace ObjectQuery

open Build

def Lambda.selector (parameter name : String) : Lambda :=
  ⟨[parameter], .member (.parameter parameter) name⟩

def Expr.conversions : Expr → Nat
  | .convert inner => inner.conversions + 1
  | _ => 0

/-- So much fuel that only this side can run out of it where the other does not, even if calls are nested deeper on the
left by some steps. -/
def Side.Spares (steps : Nat) : Side → Nat → Nat → Prop
  | .left, n, n' => n ≤ n'
  | .right, n, n' => n' + steps ≤ n

theorem Side.Spares.covers {side : Side} {steps n n' : Nat} (h : side.Spares steps n n') : side.Covers n n' := by
  cases side with
  | left => exact h
  | right => exact Nat.le_of_add_right_le h

namespace BuildState

variable {s t : BuildState} {m : StatementId} {u : Assignments} {table : TableId} {items : List SetItem}

def Updating (s : BuildState) (m : StatementId) (u : Assignments) : Prop :=
  ∃ st, s.statements[m]? = some st ∧ st.update = u

theorem Updating.mono (h : s.Updating m u) (hst : s.Extends t) : t.Updating m u := by
  obtain ⟨st, hm, rfl⟩ := h
  obtain ⟨joins, -, ht⟩ := hst.statements m st hm
  exact ⟨_, ht, rfl⟩

def reassign (s : BuildState) (m : StatementId) (f : Assignments → Assignments) : BuildState :=
  s.alter m fun st => { st with update := f st.update }

theorem Updating.reassign (h : s.Updating m u) (f : Assignments → Assignments) :
    (s.reassign m f).Updating m (f u) := by
  obtain ⟨st, hm, rfl⟩ := h
  exact ⟨_, (getElem?_alter ..).trans (by rw [if_pos rfl, hm]; rfl), rfl⟩

/-- The statement assigns these items, and to no other table. -/
def Assigning (s : BuildState) (m : StatementId) (table : TableId) (items : List SetItem) : Prop :=
  s.Updating m ⟨none, items⟩ ∨ s.Updating m ⟨some table, items⟩

theorem Assigning.mono (h : s.Assigning m table items) (hst : s.Extends t) : t.Assigning m table items :=
  h.imp (Updating.mono · hst) (Updating.mono · hst)

theorem Assigning.bind (h : s.Assigning m table items) :
    (s.reassign m fun u => u.bind table).Updating m ⟨some table, items⟩ :=
  h.elim (Updating.reassign · _) (Updating.reassign · _)

end BuildState

namespace Compiler

variable {c : Compiler} {s t : BuildState} {m : StatementId} {table : TableId} {items more : List SetItem}

theorem run_addItems {u : Assignments} (h : s.Updating m u) (items : List SetItem) :
    (addItems m items).run s = (.ok (), s.reassign m fun u => u.append items) := by
  obtain ⟨st, hm, -⟩ := h
  rw [addItems, run_modifyStatement, hm]
  rfl

theorem run_bindTarget (h : s.Assigning m table items) :
    (c.bindTarget m table).run s = (.ok (), s.reassign m fun u => u.bind table) := by
  have hrun : ∀ u, s.Updating m u → u.conflict? table = none →
      (c.bindTarget m table).run s = (.ok (), s.reassign m fun u => u.bind table) := by
    rintro _ ⟨st, hm, rfl⟩ hu
    rw [bindTarget, run_bind, run_statement, hm]
    simp only [Option.elim_some, hu, run_modifyStatement, hm]
    rfl
  cases h with
  | inl h => exact hrun _ h rfl
  | inr h => exact hrun _ h (by simp [Assignments.conflict?])

end Compiler

/-- An update on both sides: the statement, its table, the rows on the left and on the right, and there the scope of
the setter. -/
structure SharedUpdate where
  number : StatementId
  table : TableId
  left : ContextId
  right : ContextId
  parameter : String
  scope : ContextId

/-- The left side is ahead: its statement assigns items that the right side has yet to add. -/
structure SharedUpdate.Ahead (u : SharedUpdate) (w : Pairing) (items : List SetItem) (s t : BuildState) : Prop where
  alike : s.Alike (· = u.number) w t
  same : w.same u.left u.right
  rows : ∃ r, s.contexts[u.left]? = some (.table none u.number r) ∧ r.table = u.table
  scope : t.contexts[u.scope]? = some (.lambda none u.number [(u.parameter, u.right)])
  added : s.Assigning u.number u.table items
  target : t.Updating u.number ⟨some u.table, []⟩

namespace SharedUpdate

variable {u : SharedUpdate} {v w : Pairing} {items : List SetItem} {s s' t t' : BuildState}

theorem Ahead.mono (h : u.Ahead w items s t) (hs : s.Extends s') (ht : t.Extends t') (hw : w.Within v)
    (halike : s'.Alike (· = u.number) v t') : u.Ahead v items s' t' where
  alike := halike
  same := hw.same h.same
  rows := by
    obtain ⟨r, hd, hr⟩ := h.rows
    obtain ⟨more, hd⟩ := hs.contexts _ _ hd
    exact ⟨_, hd, hr⟩
  scope := by
    obtain ⟨more, hd⟩ := ht.contexts _ _ h.scope
    exact hd
  added := h.added.mono hs
  target := h.target.mono ht

theorem Ahead.add (h : u.Ahead w items s t) (item : SetItem) :
    u.Ahead w (items ++ [item])
      ((s.reassign u.number fun a => a.bind u.table).reassign u.number fun a => a.append [item]) t where
  alike := (h.alike.alterLeft rfl fun _ => ⟨_, rfl⟩).alterLeft rfl fun _ => ⟨_, rfl⟩
  same := h.same
  rows := h.rows
  scope := h.scope
  added := .inr (h.added.bind.reassign _)
  target := h.target

theorem Ahead.settle (h : u.Ahead w items s t) :
    (s.reassign u.number fun a => a.bind u.table).Alike (fun _ => False) w.disown
      (t.reassign u.number fun a => a.append items) := by
  have halike := (h.alike.alterLeft rfl fun st => ⟨st.update.bind u.table, rfl⟩).alterRight rfl
    fun st => ⟨st.update.append items, rfl⟩
  refine halike.freed False.elim ?_
  rintro m st st' rfl hst hst'
  obtain ⟨a, ha, hl⟩ := h.added.bind
  obtain ⟨b, hb, hr⟩ := h.target.reassign fun a => a.append items
  obtain ⟨b', hb', hab⟩ := halike.statements ha
  obtain rfl : st = a := Option.some.inj (hst.symm.trans ha)
  obtain rfl : st' = b := Option.some.inj (hst'.symm.trans hb)
  obtain rfl : st' = b' := Option.some.inj (hst'.symm.trans hb')
  obtain ⟨x, rfl⟩ := hab.assigns
  obtain rfl : x = ⟨some u.table, items⟩ := hl
  have hr : st'.update = ⟨some u.table, items⟩ := hr
  rw [← hr]

/-- The right side enters the setter, with the statement bound to the table. -/
theorem ahead_of_opened {id id' : ContextId} {m : StatementId} {table : TableId}
    (h : s.Alike (fun _ => False) w t) (hij : w.same id id') (hs : s.Opened id m table) (parameter : String) :
    Ahead ⟨m, table, id, id', parameter, t.contexts.length⟩ w.disown [] s
      ((t.reassign m fun a => a.bind table).enter (.lambda none m [(parameter, id')])) ∧
    t.Opened id' m table := by
  obtain ⟨r, st, hd, hr, hst, hu⟩ := hs
  obtain ⟨e, he, hde⟩ := h.exists_alike hij hd
  obtain ⟨st', hst', hlike⟩ := h.statements hst
  obtain rfl := hlike.eq not_false
  have hknown : ∀ {k}, k = m → k < s.statements.length := by
    rintro _ rfl
    exact (List.getElem?_eq_some_iff.mp hst).1
  have halike := (h.freed hknown False.elim).alterRight rfl fun st => ⟨st.update.bind table, rfl⟩
  have ht : t.Updating m .empty := ⟨st, hst', hu⟩
  refine ⟨⟨halike.enterRight _, hij, ⟨r, hd, hr⟩, BuildState.getElem?_enter_self _ _, .inl ⟨st, hst, hu⟩,
    ht.reassign fun a => a.bind table⟩, ?_⟩
  cases hde with
  | table parent rows =>
    cases parent
    obtain ⟨-⟩ := rows
    exact ⟨_, st, he, hr, hst', hu⟩

end SharedUpdate

namespace Compiler

variable {c : Compiler} {side : Side} {free : StatementId → Prop} {w : Pairing} {i j : ContextId} {n n' : Nat}
  {s t : BuildState} {u : SharedUpdate} {items : List SetItem} {name : String} {value : Expr} {depth : Nat}

theorem twins_strip (e : Expr) (hn : side.Spares e.conversions n n') (hij : w.same i j) :
    Build.Twins side free w Equal ((c.calls n).value i e) ((c.calls n').value j e.strip) := by
  induction e using Expr.strip.induct generalizing n with
  | case1 inner ih =>
    rw [Expr.strip]
    cases n with
    | zero =>
      cases side with
      | left => exact fun _ _ _ => .left rfl
      | right => exact absurd (Nat.le_zero.mp hn) (Nat.succ_ne_zero _)
    | succ n =>
      have hinner : side.Spares inner.conversions n n' := by
        cases side with
        | left => exact Nat.le_of_succ_le hn
        | right => exact Nat.le_of_succ_le_succ hn
      exact ih hinner
  | case2 e h =>
    rw [Expr.strip]
    · exact (calls_twins c hn.covers).value e hij
    · exact h

theorem run_settableColumn_some (rec : Calls) (id : ContextId) (steps : List String) (table : TableId)
    (s : BuildState) :
    (settableColumn rec id steps (some table)).run s =
      match (settableColumn rec id steps none).run s with
      | (.ok k, t) =>
        if table = k.table then (.ok k, t) else (.error (.failed (.notSettable (Dotted.join steps))), t)
      | (.error stop, t) => (.error stop, t) := by
  simp only [settableColumn, run_bind, run_attempt]
  cases (rec.classify id steps).run s with
  | mk result t =>
    cases result with
    | error stop =>
      cases stop with
      | failed e => cases e <;> rfl
      | outOfFuel | dangling => rfl
    | ok x =>
      cases x with
      | field k a =>
        by_cases hk : table = k.table
        · simp [hk]
        · simp [hk, fail]
          rfl
      | table | association | computed | object => rfl

/-- Naming the table makes no difference if it is the one that the column is of. -/
theorem agrees_settableColumn (h : u.Ahead w items s t) (hn : side.Covers n n') (steps : List String)
    (hown : ∀ k s', (settableColumn (c.calls n) u.left steps none).run s = (.ok k, s') → k.table = u.table) :
    Agrees side (fun k s' k' t' => k' = k ∧ k.table = u.table ∧ ∃ v, u.Ahead v items s' t') (fun _ _ => True)
      ((settableColumn (c.calls n) u.left steps none).run s)
      ((settableColumn (c.calls n') u.right steps (some u.table)).run t) := by
  have hagrees := twins_settableColumn (calls_twins c hn) h.same steps none s t h.alike
  have hextends : ∀ {n id s t} {r : Except Stop ColumnId},
      (settableColumn (c.calls n) id steps none).run s = (r, t) → s.Extends t := fun hrun =>
    (derives_settableColumn (c.calls_derive _) _ steps none).extends_of_run hrun
  rw [run_settableColumn_some]
  generalize hl : (settableColumn (c.calls n) u.left steps none).run s = x at hagrees hown
  generalize hr : (settableColumn (c.calls n') u.right steps none).run t = y at hagrees
  cases hagrees with
  | left h => exact .left h
  | right h => exact .right h
  | stops => exact .stops trivial
  | @gives k s' k' t' hpost =>
    obtain ⟨v, hv, halike, rfl⟩ := hpost
    have htable := hown k s' rfl
    dsimp only
    rw [if_pos htable.symm]
    exact .gives ⟨rfl, htable, v, h.mono (hextends hl) (hextends hr) hv halike⟩

theorem flattenBinding_eq (rec : Calls) (into : ContextId) (table : Option TableId) (scope : ContextId) (depth : Nat)
    (outer : List String) (name : String) (hv : value.bindings? = none) :
    flattenBinding c rec into table scope depth outer (name, value) = (do
      let column ← settableColumn rec into (outer ++ [name]) table
      let value ← rec.value scope value.strip
      pure [⟨column, value⟩]) := by
  simp only [flattenBinding, entered?, hv, pure_bind]

/-- The value is compiled in a scope of its own on the left, and in that of the setter on the right. -/
theorem agrees_setItem (h : u.Ahead w items s t) (hn : side.Spares value.conversions n n')
    (hv : value.bindings? = none)
    (hown : ∀ k s', (settableColumn (c.calls n) u.left [name] none).run s = (.ok k, s') → k.table = u.table) :
    Agrees side (fun item s' group t' => group = [item] ∧ item.column.table = u.table ∧ ∃ v, u.Ahead v items s' t')
      (fun _ _ => True)
      ((c.setItem (c.calls n) (.selector u.parameter name) ⟨u.parameter, [name]⟩ (.value value) u.left none).run s)
      ((flattenBinding c (c.calls n') u.right (some u.table) u.scope depth [] (name, value)).run t) := by
  rw [flattenBinding_eq _ _ _ _ _ _ _ hv]
  refine (agrees_settableColumn h hn.covers [name] hown).bind (fun k s₁ k' t₁ _ _ hpost => ?_) fun _ _ _ => trivial
  obtain ⟨rfl, htable, v, h⟩ := hpost
  obtain ⟨r, hd, -⟩ := h.rows
  rw [run_bind, run_lambdaScope rfl hd]
  dsimp only
  -- a scope may be paired with one that was entered long ago, even if that has other counterparts
  have hentry := s₁.getElem?_enter_self (.lambda none u.number [(u.parameter, u.left)])
  obtain ⟨x, hx, halike, hscope, -⟩ := (h.alike.enterLeft _).pair hentry h.scope
    (.lambda .none (.cons ⟨rfl, h.same⟩ .nil)) False False.elim nofun
  refine (twins_strip value hn hscope _ _ halike).bind (fun a s₂ b t₂ hl hr hpost => ?_) fun _ _ _ => trivial
  obtain ⟨y, hy, halike, rfl⟩ := hpost
  have hs := ((c.calls_derive n).value _ s₁.contexts.length value).extends_of_run hl
  have ht := ((c.calls_derive n').value _ u.scope value.strip).extends_of_run hr
  refine .gives ⟨rfl, htable, y, h.mono (((BuildState.Extends.refl s₁).enter _).trans hs) ht (hx.trans hy) halike⟩

theorem selectedPath_selector (parameter name : String) :
    selectedPath (.selector parameter name) = .ok ⟨parameter, [name]⟩ := by
  simp [selectedPath, Lambda.selector, Lambda.row?, Path.ofExpr?, Path.read, Option.filter]

theorem agrees_buildSet (h : u.Ahead w items s t) (hn : side.Spares value.conversions n n')
    (hv : value.bindings? = none)
    (hown : ∀ k s', (settableColumn (c.calls n) u.left [name] none).run s = (.ok k, s') → k.table = u.table)
    (node : Node) :
    Agrees side (fun id s' group t' => id = u.left ∧ ∃ v, u.Ahead v (items ++ group) s' t') (fun _ _ => True)
      ((c.buildSet (c.calls n) (node.set (.selector u.parameter name) value) u.left none).run s)
      ((flattenBinding c (c.calls n') u.right (some u.table) u.scope depth [] (name, value)).run t) := by
  obtain ⟨r, hd, -⟩ := h.rows
  have hset : (c.buildSet (c.calls n) (node.set (.selector u.parameter name) value) u.left none).run s =
      (do
        let item ← c.setItem (c.calls n) (.selector u.parameter name) ⟨u.parameter, [name]⟩ (.value value) u.left none
        c.bindTarget u.number item.column.table
        addItems u.number [item]
        pure u.left).run s := by
    rw [buildSet, run_bind, run_ensureComposable_of hd rfl]
    simp only [Node.set, Node.operands_chain, selectedPath_selector]
    change (context u.left >>= _).run s = _
    rw [run_bind, run_context_of hd]
    rfl
  rw [hset, ← bind_pure (flattenBinding c _ _ _ _ _ _ _)]
  refine (agrees_setItem h hn hv hown).bind (fun item s' group t' _ _ hpost => ?_) fun _ _ _ => trivial
  obtain ⟨rfl, htable, v, h⟩ := hpost
  rw [htable, run_bind, run_bindTarget h.added]
  dsimp only
  rw [run_bind, run_addItems h.added.bind]
  exact .gives ⟨rfl, v, h.add item⟩

end Compiler
end ObjectQuery
