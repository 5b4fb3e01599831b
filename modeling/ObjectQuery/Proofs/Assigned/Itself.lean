import ObjectQuery.Proofs.Assigned.Retargeted
import ObjectQuery.Proofs.Enumeration.Listed
import ObjectQuery.Proofs.Fuel.Calls
import ObjectQuery.Proofs.Parts

/-!
A setter that gives back the row that it is given. Its values are the columns of the row, listed under their qualified
names, and the parts of every name lead back to the column that the name belongs to.
-/
namespace ObjectQuery

open Build

def Lambda.itself (parameter : String) : Lambda :=
  ⟨[parameter], .parameter parameter⟩

def SetItem.keeping (aliasName : String) (column : ColumnId) : SetItem :=
  ⟨column, .column column (some aliasName)⟩

/-- From `s` to `t`, the sequence is found to stand for the rows of that context: those of the entity's table, or of an
association that is followed to the entity. -/
structure Compiler.FindsRows (c : Compiler) (n : Nat) (s : BuildState) (sequence rows : ContextId) (e : Entity)
    (r : Rows) (t : BuildState) : Prop where
  classify : ∃ d, ((c.calls n).classify sequence []).run s = (.ok d, t) ∧
    Request.table.answer d = ⟨true, some rows⟩
  context : ∃ x, t.contexts[rows]? = some x ∧ x.rows? = some r
  entity : c.schema.mapping.entity? r.entity = some e

/-- The source compiles to a sequence of these rows of the entity. -/
def Compiler.CompilesToRows (c : Compiler) (source : Node) (e : Entity) (r : Rows) : Prop :=
  ∃ n sequence s rows t, ((c.calls n).sequence none source).run {} = (.ok sequence, s) ∧
    c.FindsRows n s sequence rows e r t

/-- From this state on the sequence stands for these rows of the entity, as soon as calls may be nested this deep. -/
structure BuildState.Exposes (c : Compiler) (n : Nat) (s : BuildState) (sequence rows : ContextId) (e : Entity)
    (aliasName : String) : Prop where
  classify : ∃ d, Request.table.answer d = ⟨true, some rows⟩ ∧
    ∀ k u, n ≤ k → s.Later u → ((c.calls k).classify sequence []).run u = (.ok d, u)
  rows : ∃ x r, s.contexts[rows]? = some x ∧ x.rows? = some r ∧ c.schema.mapping.entity? r.entity = some e ∧
    r.aliasName = aliasName

namespace BuildState

variable {c : Compiler} {n : Nat} {s t : BuildState} {sequence rows : ContextId} {e : Entity} {aliasName : String}

theorem Exposes.mono (h : s.Exposes c n sequence rows e aliasName) (hst : s.Later t) :
    t.Exposes c n sequence rows e aliasName := by
  obtain ⟨⟨d, hd, hclassify⟩, x, r, hx, hr, he, ha⟩ := h
  obtain ⟨more, ht⟩ := hst rows x hx
  exact ⟨⟨d, hd, fun k u hk hu => hclassify k u hk (hst.trans hu)⟩,
    _, _, ht, Context.rows?_followAll_of hr more, he, ha⟩

end BuildState

namespace Compiler

variable {c : Compiler} {n k : Nat} {s t u : BuildState} {sequence rows : ContextId} {e : Entity}
  {aliasName : String} {table : Option TableId} {parent : Option ContextId}

/-! The rows. -/

theorem run_ask_of {rec : Calls} {steps : List String} {d : Denotation} (hs : s.Plain sequence)
    (hclassify : (rec.classify sequence steps).run s = (.ok d, t)) (request : Request) :
    (ask rec sequence steps request).run s = (.ok (request.answer d), t) := by
  obtain ⟨x, hx, hu⟩ := hs
  rw [ask, run_bind_of (run_context_of hx), hu]
  change (attempt (rec.classify sequence steps) >>= _).run s = _
  rw [run_bind, run_attempt, hclassify]
  rfl

namespace FindsRows

variable {r : Rows} (h : c.FindsRows n s sequence rows e r t)

include h

theorem exposes : t.Exposes c n sequence rows e r.aliasName := by
  obtain ⟨⟨d, hclassify, hd⟩, ⟨x, hx, hr⟩, he⟩ := h
  have hcomputed : ∀ v, d ≠ .computed v := by
    rintro v rfl
    cases hd
  exact ⟨⟨d, hd, fun k u hk hu => recalls_calls c hk sequence [] hclassify hcomputed hu⟩, x, r, hx, hr, he, rfl⟩

theorem run_updatedRows? (hn : n ≤ k) (hs : s.Plain sequence) :
    (Compiler.updatedRows? (c.calls k) sequence).run s = (.ok (some (rows, r.table)), t) := by
  obtain ⟨d, hclassify, hd⟩ := h.classify
  obtain ⟨x, hx, hr⟩ := h.context
  have hfound := ((calls_approximate hn).classify sequence []).run_eq hclassify
  have ht : t.Plain sequence := by
    have hkeeps := ((calls_obey c.rooting n).classify sequence [] s).1
    rw [hclassify] at hkeeps
    exact hs.mono hkeeps
  have hrows : (rowsOf? (c.calls k) sequence).run s = (.ok (some rows), t) := by
    rw [rowsOf?, run_bind_of (run_ask_of hs hfound .association)]
    cases d with
    | association =>
      cases hd
      rfl
    | table =>
      -- the question is put again, and finds the same
      cases hd
      have hagain := run_ask_of ht (classify_again hclassify nofun hn) .table
      change (ask (c.calls k) sequence [] .table >>= _).run t = _
      rw [run_bind_of hagain]
      rfl
    | field | computed | object => cases hd
  rw [Compiler.updatedRows?, run_bind_of hrows]
  change (Build.context rows >>= _).run t = _
  rw [run_bind_of (run_context_of hx), hr]
  rfl

end FindsRows

/-! The items of the setter. -/

def columnItem (aliasName : String) : String × ColumnId → Item
  | (name, column) => ⟨some name, .column column (some aliasName), none⟩

theorem of_run_itemsOf (h : s.Exposes c n sequence rows e aliasName) (hn : n ≤ k) {items : List Item}
    (hrun : (itemsOf (c.calls (k + 1)) sequence [] .all).run s = (.ok items, t)) :
    t = s ∧ items = e.stored.map (columnItem aliasName) := by
  obtain ⟨⟨d, hd, hclassify⟩, x, r, hx, hr, he, ha⟩ := h
  obtain ⟨listed, s₁, hmembers, hlast⟩ := exists_of_run_bind hrun
  obtain ⟨d', s₂, hclassify', hlist⟩ := exists_of_run_bind hmembers
  rw [hclassify k s hn (.refl s)] at hclassify'
  cases hclassify'
  have hcolumns : (c.rowColumns rows none .all).run s = (.ok listed, s₁) := by
    cases d <;> cases hd <;> exact hlist
  obtain ⟨x', r', e', hx', hr', he', rfl, rfl⟩ := of_run_rowColumns hcolumns
  obtain rfl := Option.some.inj (hx.symm.trans hx')
  obtain rfl := Option.some.inj (hr.symm.trans hr')
  obtain rfl := Option.some.inj (he.symm.trans he')
  cases hlast
  refine ⟨rfl, ?_⟩
  rw [List.map_map, ha]
  rfl

theorem of_run_settableColumn_of_stored (h : s.Exposes c n sequence rows e aliasName) {name : String}
    {column column' : ColumnId} (hmem : (name, column) ∈ e.stored)
    (hrun : (settableColumn (c.calls k) rows (Dotted.split name) table).run s = (.ok column', t)) :
    column' = column ∧ s.Later t := by
  obtain ⟨x, r, hx, hr, he, -⟩ := h.rows
  have hmember : e.member? (Dotted.join (Dotted.split name)) = some (.column column) :=
    (Dotted.join_split name).symm ▸ Entity.member?_of_mem_stored hmem
  obtain ⟨a, hclassify⟩ := of_run_settableColumn hrun
  have hfield := classify_eq_field hx hr he (Dotted.split_ne_nil name) hmember (congrArg Prod.fst hclassify)
  cases hfield
  exact ⟨rfl, (((c.calls_derive k).classify [] rows _).extends_of_run hclassify).later⟩

def assignItem (rec : Calls) (into : ContextId) (table : Option TableId) (item : Item) : Build SetItem := do
  let member ← orFail (.unsupportedShape .setterNotObject) item.member
  let column ← settableColumn rec into (Dotted.split member) table
  pure ⟨column, item.value⟩

theorem of_run_assignItem {name : String} {column : ColumnId} {item : SetItem}
    (h : s.Exposes c n sequence rows e aliasName) (hmem : (name, column) ∈ e.stored)
    (hrun : (assignItem (c.calls k) rows table (columnItem aliasName (name, column))).run s = (.ok item, t)) :
    item = .keeping aliasName column ∧ s.Later t := by
  obtain ⟨member, s₁, hmember, hassign⟩ := exists_of_run_bind hrun
  obtain ⟨⟨⟩, rfl⟩ := of_run_orFail hmember
  obtain ⟨column', s₂, hcolumn, hlast⟩ := exists_of_run_bind hassign
  obtain ⟨rfl, hlater⟩ := of_run_settableColumn_of_stored h hmem hcolumn
  cases hlast
  exact ⟨rfl, hlater⟩

theorem of_run_assignItems {columns : List (String × ColumnId)} {items : List SetItem}
    (h : s.Exposes c n sequence rows e aliasName) (hsub : columns ⊆ e.stored)
    (hrun : ((columns.map (columnItem aliasName)).mapM (assignItem (c.calls k) rows table)).run s = (.ok items, t)) :
    items = columns.map fun column => .keeping aliasName column.2 := by
  induction columns generalizing s items with
  | nil =>
    cases hrun
    rfl
  | cons column columns ih =>
    obtain ⟨hmem, hsub⟩ := List.cons_subset.mp hsub
    rw [List.map_cons, List.mapM_cons] at hrun
    obtain ⟨item, s₁, hitem, hrest⟩ := exists_of_run_bind hrun
    obtain ⟨more, s₂, hmore, hlast⟩ := exists_of_run_bind hrest
    cases hlast
    obtain ⟨rfl, hlater⟩ := of_run_assignItem h hmem hitem
    rw [ih (h.mono hlater) hsub hmore, List.map_cons]

theorem of_run_setterItems_itself (h : s.Exposes c n sequence rows e aliasName) (hn : n ≤ k) {parameter : String}
    {items : List SetItem}
    (hrun : (c.setterItems (c.calls (k + 1)) (.itself parameter) rows table sequence parent).run s = (.ok items, t)) :
    items = e.stored.map fun column => .keeping aliasName column.2 := by
  obtain ⟨scope, s₁, hscope, hitems⟩ := exists_of_run_bind hrun
  obtain ⟨row, m, hrow, hs₁⟩ := of_run_lambdaScope hscope
  cases hrow
  have h₁ := h.mono ((Derives.lambdaScope _ sequence parent).extends_of_run hscope).later
  obtain ⟨listed, s₂, hlisted, hassign⟩ := exists_of_run_bind hitems
  obtain ⟨sequence', s₃, hroot, hcolumns⟩ := exists_of_run_bind hlisted
  obtain ⟨hbinding, rfl⟩ := of_run_rootOf hroot
  -- the parameter is looked up in the scope that binds it
  have hsequence : sequence' = sequence := by
    obtain ⟨length, hlength⟩ :=
      Nat.exists_eq_succ_of_ne_zero (Nat.ne_zero_of_lt (List.getElem?_eq_some_iff.mp hs₁).1)
    rw [hlength, bindingFrom, hs₁] at hbinding
    simpa [Context.binding?] using hbinding.symm
  subst hsequence
  obtain ⟨rfl, rfl⟩ := of_run_itemsOf h₁ hn hcolumns
  exact of_run_assignItems h₁ (List.Subset.refl _) hassign

/-! The update. -/

theorem lists_of_run_updateWith_itself {r : Rows} {m : StatementId} {parameter : String}
    (h : c.FindsRows n s sequence rows e r t) (hn : n ≤ k) (hs : s.Plain sequence) (hl : s.Lists m [])
    (hrun : (c.updateWith (c.calls (k + 1)) m sequence (.itself parameter) parent).run s = (.ok (), u)) :
    u.Lists m (e.stored.map fun column => .keeping r.aliasName column.2) := by
  have hrows := h.run_updatedRows? (Nat.le_succ_of_le hn) hs
  have ht := hl.mono ((derives_updatedRows? (c.calls_derive _)).extends_of_run hrows)
  rw [updateWith, run_bind_of hrows] at hrun
  obtain ⟨_, s₁, hbind, hitems⟩ := exists_of_run_bind hrun
  obtain ⟨items, s₂, hsetter, hadd⟩ := exists_of_run_bind hitems
  have hbound := retains_bindTarget (c := c) m r.table
  obtain rfl := of_run_setterItems_itself (h.exposes.mono (hbound.later_of_run hbind)) hn hsetter
  exact lists_of_run_addItems (lists_of_run_setterItems (hbound.lists_of_run ht hbind) hsetter) hadd

end Compiler

/-- The update assigns every column of the entity from itself, in the order of declaration. -/
def CompiledQuery.Keeps (q : CompiledQuery) (e : Entity) (aliasName : String) : Prop :=
  ∃ st, q.statements[q.root]? = some st ∧
    st.update.items = e.stored.map fun (_, column) => ⟨column, .column column (some aliasName)⟩

theorem Compiler.keeps_of_compilesToRows {c : Compiler} {fuel : Nat} {source : Node} {parameter : String}
    {q : CompiledQuery} {e : Entity} {r : Rows} (hsets : source.sets = []) (hrows : c.CompilesToRows source e r)
    (h : c.compile fuel (source.updateWith (.itself parameter)) = .ok q) : q.Keeps e r.aliasName := by
  obtain ⟨n, sequence, s, rows, t, hsource, hfinds⟩ := hrows
  -- with more fuel, the source is compiled as deep as it was compiled alone
  have hmore : c.compile (max fuel (n + 2)) (source.updateWith (.itself parameter)) = .ok q :=
    (compile_of_le (by rw [h]; nofun) (Nat.le_max_left ..)).trans h
  obtain ⟨_, depth, sequence', s', d, u, v, hfuel, hprimary, hkind, hsource', hd, hroot, hassign, hcomplete, hq, -⟩ :=
    of_compile_update hmore rfl
  obtain rfl := Option.some.inj ((Node.primary?_chain ..).symm.trans hprimary)
  obtain ⟨k, rfl⟩ : ∃ k, depth = k + 1 := ⟨depth - 1, by omega⟩
  have hn : n ≤ k := by omega
  have hsame := ((calls_approximate (Nat.le_succ_of_le hn)).sequence none source).run_eq hsource
  rw [hsource'] at hsame
  cases hsame
  obtain ⟨m, items, hbuilds, hl, hall⟩ := lists_of_run_sequence hsource hkind
  rw [hsets] at hall
  cases hall
  obtain rfl : m = q.root := (statement_eq_of_builds hbuilds hd).symm.trans hroot
  have hitems := lists_of_run_updateWith_itself hfinds hn (plain_of_run_sequence hsource hkind) hl hassign
  obtain ⟨st, hst, hst'⟩ := (retains_completeUpdate q.root).lists_of_run hitems hcomplete
  exact ⟨st, hq ▸ hst, hst'⟩

end ObjectQuery
