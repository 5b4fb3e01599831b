import ObjectQuery.Proofs.Conversions.Operators
import ObjectQuery.Proofs.Enumeration.Addresses

/-!
The members of rows and objects, listed by name, are those that paths find: a path that goes on with the parts of the
name of an item stands for the value of this item.
-/
namespace ObjectQuery

open Build

variable {named : String → Prop} {s t u : BuildState}

theorem Expr.Unnested.constructedAt {e : Expr} (h : e.Unnested named) (steps : List String) :
    ∀ name ∈ e.constructedAt steps, named name := by
  induction steps generalizing e with
  | nil =>
    intro name hname
    cases hb : e.bindings? with
    | none => simp [Expr.constructedAt, hb] at hname
    | some bindings =>
      simp only [Expr.constructedAt, hb, Option.getD_some, List.mem_map] at hname
      obtain ⟨b, hmem, rfl⟩ := hname
      exact (h.bindings hb b hmem).1
  | cons step steps ih =>
    intro name hname
    cases hb : e.bindings? with
    | none => simp [Expr.constructedAt, hb] at hname
    | some bindings =>
      cases hl : bindings.lookup step with
      | none => simp [Expr.constructedAt, hb, hl] at hname
      | some value => exact ih (h.lookup hb hl) name (by simpa [Expr.constructedAt, hb, hl] using hname)

theorem BuildState.Later.unnested (h : s.Later t) (ht : t.Unnested named) : s.Unnested named := by
  intro d hd
  obtain ⟨id, hid⟩ := List.mem_iff_getElem?.mp hd
  obtain ⟨more, ht'⟩ := h id d hid
  have hu := ht _ (List.mem_of_getElem? ht')
  cases d <;> exact hu

theorem Entity.member?_of_mem_stored {e : Entity} {name : String} {k : ColumnId} (h : (name, k) ∈ e.stored) :
    e.member? name = some (.column k) := by
  obtain ⟨⟨name', m⟩, hmem, hm⟩ := List.mem_filterMap.mp h
  cases m with
  | column id =>
    cases hm
    exact Entity.member?_of_mem hmem
  | computed | association => cases hm

namespace Compiler

variable {c : Compiler} {id : ContextId} {steps : List String} {v : SqlExpr} {n : Nat}

/-- What has been found to be a value is found to be this value ever after. -/
theorem addresses_of_run (hc : c.schema.Unnested) (hp : c.settings.parameterizeConstants = false)
    {d : Denotation} (hs : s.Unnested named) (hrun : ((c.calls n).classify id steps).run s = (.ok d, t))
    (hv : d.value? = some v) (hu : t.Later u) : c.Addresses u id steps v := by
  filter_upwards [Filter.eventually_ge_atTop n] with m hm
  obtain ⟨w, hrun', hw⟩ := (((calls_recur hc hp hm).classify id steps) hs d t hrun).2.2 hu
  exact ⟨d, w, hrun', hw, hv⟩

theorem addresses_column {x : Context} {r : Rows} {e : Entity} {k : ColumnId} (hx : s.contexts[id]? = some x)
    (hr : x.rows? = some r) (he : c.schema.mapping.entity? r.entity = some e) (hne : steps ≠ [])
    (hm : e.member? (Dotted.join steps) = some (.column k)) (hu : s.Later u) :
    c.Addresses u id steps (.column k (some r.aliasName)) := by
  obtain ⟨more, hx'⟩ := hu id x hx
  have hr' := Context.rows?_followAll_of hr more
  refine addresses_of_classify (.of_forall fun m => ⟨.field k r.aliasName, u, ?_, .refl u, rfl⟩)
  rw [run_classify_of_rows hx' hr', run_classifyMember_column hx' hr' he hne hm]

theorem of_run_rowColumns {outer : Option String} {items : List (Option String × SqlExpr)}
    (hrun : (c.rowColumns id outer .all).run s = (.ok items, t)) :
    ∃ x r e, s.contexts[id]? = some x ∧ x.rows? = some r ∧ c.schema.mapping.entity? r.entity = some e ∧ t = s ∧
      items = (e.columnsWithin outer).map fun (name, k) => (some name, .column k (some r.aliasName)) := by
  obtain ⟨x, s₁, hcontext, hrows⟩ := exists_of_run_bind hrun
  obtain ⟨hx, rfl⟩ := of_run_context hcontext
  obtain ⟨r, s₂, hfound, hentity⟩ := exists_of_run_bind hrows
  obtain ⟨hr, rfl⟩ := of_run_orFail hfound
  obtain ⟨e, s₃, hdeclared, hlast⟩ := exists_of_run_bind hentity
  obtain ⟨he, rfl⟩ := of_run_orFail hdeclared
  cases hlast
  exact ⟨x, r, e, hx, hr, he, rfl, rfl⟩

def stepsOf (member : Option String) : List String :=
  member.elim [] Dotted.split

/-- Every listed value is found at the steps of its member, in all later states. -/
def Lists (c : Compiler) (t : BuildState) (id : ContextId) (steps : List String)
    (items : List (Option String × SqlExpr)) : Prop :=
  ∀ item ∈ items, ∀ u, t.Later u → c.Addresses u id (steps ++ stepsOf item.1) item.2

theorem lists_rowColumns {items : List (Option String × SqlExpr)}
    (hrun : (c.rowColumns id none .all).run s = (.ok items, t)) : c.Lists t id [] items := by
  obtain ⟨x, r, e, hx, hr, he, rfl, rfl⟩ := of_run_rowColumns hrun
  intro item hitem u hu
  obtain ⟨⟨name, k⟩, hmem, rfl⟩ := List.mem_map.mp hitem
  refine addresses_column hx hr he (Dotted.split_ne_nil name) ?_ hu
  exact (Dotted.join_split name).symm ▸ Entity.member?_of_mem_stored hmem

theorem lists_rowColumns_within {items : List (Option String × SqlExpr)}
    (hne : ∀ x r, s.contexts[id]? = some x → x.rows? = some r → steps ≠ [])
    (hrun : (c.rowColumns id (some (Dotted.join steps)) .all).run s = (.ok items, t)) : c.Lists t id steps items := by
  obtain ⟨x, r, e, hx, hr, he, rfl, rfl⟩ := of_run_rowColumns hrun
  intro item hitem u hu
  obtain ⟨⟨relative, k⟩, hrelative, rfl⟩ := List.mem_map.mp hitem
  obtain ⟨⟨name, k'⟩, hmem, hsame⟩ := List.mem_map.mp hrelative
  cases hsame
  obtain ⟨hstored, hwithin⟩ := List.mem_filter.mp hmem
  have hsteps := hne x r hx hr
  refine addresses_column hx hr he (List.append_ne_nil_of_left_ne_nil hsteps _) ?_ hu
  exact (Dotted.join_append_split_relativeTo hsteps hwithin).symm ▸ Entity.member?_of_mem_stored hstored

def under (name : String) (item : Option String × SqlExpr) : Option String × SqlExpr :=
  (some (item.1.elim name fun m => name ++ "." ++ m), item.2)

theorem stepsOf_under {name : String} (h : Dotted.Undotted name) (item : Option String × SqlExpr) :
    stepsOf (under name item).1 = name :: stepsOf item.1 := by
  obtain ⟨member, v⟩ := item
  cases member with
  | none => exact Dotted.split_of_undotted h
  | some m => exact Dotted.split_qualified h m

/-- The members of an object of a projection are those of what it constructs, name by name. -/
theorem of_run_groups {rec : Calls} (h : rec.Derive) {names : List String} {items : List (Option String × SqlExpr)}
    (hrun : (do
      let groups ← names.mapM fun name => do
        let items ← rec.members id (steps ++ [name]) .all
        pure (items.map (under name))
      pure groups.flatten).run s = (.ok items, t)) :
    s.Later t ∧ ∀ item ∈ items, ∃ name ∈ names, ∃ inner member u w,
      (rec.members id (steps ++ [name]) .all).run u = (.ok inner, w) ∧ w.Later t ∧ member ∈ inner ∧
        item = under name member := by
  obtain ⟨groups, s₁, hgroups, hlast⟩ := exists_of_run_bind hrun
  cases hlast
  have hderives : ∀ name, Derives [] silent (do
      let items ← rec.members id (steps ++ [name]) .all
      pure (items.map (under name))) :=
    fun name => (h.members [] id (steps ++ [name]) .all).bind fun _ => .quiet rfl
  obtain ⟨hlater, hall⟩ := forall₂_of_run_mapM hderives hgroups
  refine ⟨hlater, fun item hitem => ?_⟩
  obtain ⟨group, hgroup, hmem⟩ := List.mem_flatten.mp hitem
  obtain ⟨name, hname, u, v, hrun, hv⟩ := exists_of_mem_of_forall₂ hall hgroup
  obtain ⟨inner, w, hinner, hlast⟩ := exists_of_run_bind hrun
  cases hlast
  obtain ⟨member, hmember, rfl⟩ := List.mem_map.mp hmem
  exact ⟨name, hname, inner, member, u, v, hinner, hv, hmember, rfl⟩

theorem lists_members (hsep : c.schema.Separated) (hc : c.schema.Unnested)
    (hp : c.settings.parameterizeConstants = false) {items : List (Option String × SqlExpr)}
    (ht : t.Unnested Dotted.Undotted) (hrun : ((c.calls n).members id steps .all).run s = (.ok items, t)) :
    c.Lists t id steps items := by
  induction n generalizing id steps s t items with
  | zero => cases hrun
  | succ n ih =>
    have hst : s.Later t := ((derives_members (c.calls_derive n) id steps .all).extends_of_run hrun).later
    have hmembers : (c.members (c.calls n) id steps .all).run s = (.ok items, t) := hrun
    obtain ⟨d, s₁, hclassify, hlist⟩ := exists_of_run_bind hmembers
    have hsingle : ∀ v, d.value? = some v → s₁ = t → c.Lists t id steps [(none, v)] := by
      rintro v hv rfl item hitem u hu
      rw [List.mem_singleton.mp hitem, stepsOf, Option.elim_none, List.append_nil]
      exact addresses_of_run hc hp (hst.unnested ht) hclassify hv hu
    have hreroot : ∀ {k os}, d.base? = some (k, os) → s₁.Later t → c.Lists t k os items → c.Lists t id steps items := by
      intro k os hb hs₁ hlists item hitem u hu
      exact rerooted_of_run hsep hclassify hb u (hs₁.trans hu) _ _ (hlists item hitem u hu)
    cases d with
    | field column aliasName =>
      cases hlist
      exact hsingle _ rfl rfl
    | computed value =>
      cases hlist
      exact hsingle _ rfl rfl
    | table rows | association rows =>
      obtain ⟨_, _, _, -, -, -, rfl, -⟩ := of_run_rowColumns hlist
      exact hreroot rfl (.refl t) (lists_rowColumns hlist)
    | object owner objectSteps =>
      obtain ⟨x, s₂, hcontext, hlist⟩ := exists_of_run_bind hlist
      obtain ⟨hx, rfl⟩ := of_run_context hcontext
      cases x with
      | projection parent m sequence l scalar =>
        obtain ⟨hs₁, hgroups⟩ := of_run_groups (c.calls_derive n) hlist
        have hbody : l.body.Unnested Dotted.Undotted := (hs₁.unnested ht) _ (List.mem_of_getElem? hx)
        refine hreroot rfl hs₁ fun item hitem u hu => ?_
        obtain ⟨name, hname, inner, member, _, w, hinner, hw, hmember, rfl⟩ := hgroups item hitem
        have haddress := ih (hw.unnested ht) hinner member hmember u (hw.trans hu)
        rw [List.append_assoc] at haddress
        rw [stepsOf_under (hbody.constructedAt objectSteps name hname)]
        exact haddress
      | table | association | lambda | update =>
        obtain ⟨_, _, _, -, -, -, rfl, -⟩ := of_run_rowColumns hlist
        refine hreroot rfl (.refl t) (lists_rowColumns_within (fun y r hy hr => ?_) hlist)
        exact steps_ne_nil_of_run hclassify hy hr

theorem named_of_run_members {rec : Calls} {items : List (Option String × SqlExpr)} (h : rec.Derive)
    (hrun : (c.members rec id steps .all).run s = (.ok items, t)) :
    ∃ d s₁, (rec.classify id steps).run s = (.ok d, s₁) ∧ (d.base?.isSome → ∀ item ∈ items, item.1.isSome) := by
  obtain ⟨d, s₁, hclassify, hlist⟩ := exists_of_run_bind hrun
  have hcolumns : ∀ {k outer} {u : BuildState}, (c.rowColumns k outer .all).run u = (.ok items, t) →
      ∀ item ∈ items, item.1.isSome := by
    intro k outer u hcolumns item hitem
    obtain ⟨_, _, _, -, -, -, -, rfl⟩ := of_run_rowColumns hcolumns
    obtain ⟨column, -, rfl⟩ := List.mem_map.mp hitem
    rfl
  refine ⟨d, s₁, hclassify, fun hbase => ?_⟩
  cases d with
  | field | computed => cases hbase
  | table rows | association rows => exact hcolumns hlist
  | object owner objectSteps =>
    obtain ⟨x, s₂, hcontext, hlist⟩ := exists_of_run_bind hlist
    obtain ⟨hx, rfl⟩ := of_run_context hcontext
    cases x with
    | projection parent m sequence l scalar =>
      intro item hitem
      obtain ⟨-, hgroups⟩ := of_run_groups h hlist
      obtain ⟨name, -, inner, member, _, w, -, -, -, rfl⟩ := hgroups item hitem
      rfl
    | table | association | lambda | update => exact hcolumns hlist

/-- Steps that are classified again stand for the same, however deep calls may be nested. -/
theorem eq_of_run_classify (hc : c.schema.Unnested) (hp : c.settings.parameterizeConstants = false) {k : Nat}
    {d d' : Denotation} (hs : s.Unnested named) (ht : t.Unnested named)
    (hrun : ((c.calls n).classify id steps).run s = (.ok d, t))
    (hrun' : ((c.calls k).classify id steps).run t = (.ok d', u)) : d = d' := by
  have htu : t.Later u := (((c.calls_derive k).classify [] id steps).extends_of_run hrun').later
  obtain ⟨w, hw, -⟩ := (((calls_recur hc hp (Nat.le_max_left n k)).classify id steps) hs d t hrun).2.2 htu
  obtain ⟨w', hw', -⟩ := (((calls_recur hc hp (Nat.le_max_right n k)).classify id steps) ht d' u hrun').2.2 (.refl u)
  exact Except.ok.inj (congrArg Prod.fst (hw.symm.trans hw'))

end Compiler

/-- The members of rows or of an object, listed by name, are those that paths find. In any state that compilations pass
through, if the steps stand for rows or an object whose values can be listed, every item has a name, and the steps,
followed by the parts of this name between the dots, stand for the value of the item ever after. This holds as long as
no query is nested in the queries or in a computed member, names in constructions have no dots, and no declared name
goes on from the name of an association. -/
theorem Compiler.addresses_of_itemsOf {c : Compiler} (hsep : c.schema.Separated) (hc : c.schema.Unnested)
    (hp : c.settings.parameterizeConstants = false) {s s₁ t : BuildState}
    (hs : c.Visits (Node.Unnested Dotted.Undotted) s) {id : ContextId} {steps : List String} {n k : Nat}
    {d : Denotation} {items : List Item} (hclassify : ((c.calls n).classify id steps).run s = (.ok d, s₁))
    (hbase : d.base?.isSome) (hitems : (itemsOf (c.calls k) id steps .all).run s₁ = (.ok items, t)) :
    ∀ item ∈ items, ∃ member, item.member = some member ∧
      ∀ u, t.Later u → c.Addresses u id (steps ++ Dotted.split member) item.value := by
  have hs₁ : s₁.Unnested Dotted.Undotted := by
    have hstay := (calls_stay hc n).classify id steps s (hs.unnested hc)
    rwa [hclassify] at hstay
  have ht : t.Unnested Dotted.Undotted := by
    have hstay := stays_itemsOf (calls_stay hc k) id steps .all s₁ hs₁
    rwa [hitems] at hstay
  obtain ⟨listed, s₂, hmembers, hlast⟩ := exists_of_run_bind hitems
  cases hlast
  have hlists := lists_members hsep hc hp ht hmembers
  cases k with
  | zero => cases hmembers
  | succ k =>
    obtain ⟨d', s₂, hclassify', hnamed⟩ := named_of_run_members (c.calls_derive k) hmembers
    obtain rfl := eq_of_run_classify hc hp (hs.unnested hc) hs₁ hclassify hclassify'
    intro item hitem
    obtain ⟨⟨member, value⟩, hmem, rfl⟩ := List.mem_map.mp hitem
    obtain ⟨name, rfl⟩ := Option.isSome_iff_exists.mp (hnamed hbase _ hmem)
    exact ⟨name, rfl, fun u hu => hlists _ hmem u hu⟩

def staff : Node :=
  (Node.source "Employee").select ⟨["e"], .construct [("who", nameOf "e"),
    ("office", .member (.parameter "e") "department"),
    ("next", .construct [("id", .binary (.arithmetic .add) (.member (.parameter "e") "id") (.literal (.int 1)))])]⟩

def staffBuilt : BuildState :=
  ((Compiler.company.root 12 staff).run {}).2

def staffItems : List Item × BuildState :=
  match (Compiler.itemsOf (Compiler.company.calls 12) 1 [] .all).run staffBuilt with
  | (.ok items, t) => (items, t)
  | (.error _, t) => ([], t)

theorem Schema.separated_company : Schema.company.Separated :=
  separated_of_forall (by decide)

theorem Compiler.addresses_staffItems :
    Schema.company.Separated ∧ Schema.company.Unnested ∧
      Compiler.company.Visits (Node.Unnested Dotted.Undotted) staffBuilt ∧
      staffItems.1.map Item.member = [some "who", some "office.id", some "office.name", some "next.id"] ∧
      ∀ item ∈ staffItems.1, ∃ member, item.member = some member ∧
        Compiler.company.Addresses staffItems.2 1 (Dotted.split member) item.value := by
  have hunnested : Schema.company.Unnested := fun _ _ _ _ he hm => (Schema.plain_company.not_computed he hm).elim
  have hvisits : Compiler.company.Visits (Node.Unnested Dotted.Undotted) staffBuilt :=
    .root .absent 12 .start (by simp [staff, Node.select, Node.chain, Node.source, nameOf, Node.Unnested,
      Argument.UnnestedAll, Expr.Unnested, Expr.UnnestedBindings, Dotted.Undotted])
  have hclassify : ((Compiler.company.calls 12).classify 1 []).run staffBuilt = (.ok (.object 1 []), staffBuilt) := rfl
  have hitems : (Compiler.itemsOf (Compiler.company.calls 12) 1 [] .all).run staffBuilt =
      (.ok staffItems.1, staffItems.2) := rfl
  refine ⟨Schema.separated_company, hunnested, hvisits, rfl, fun item hitem => ?_⟩
  obtain ⟨member, hmember, haddress⟩ := Compiler.addresses_of_itemsOf Schema.separated_company hunnested rfl hvisits
    hclassify rfl hitems item hitem
  exact ⟨member, hmember, haddress _ (.refl _)⟩

/-- Employees have a number of departments, which is a query of its own. -/
def Compiler.tallied : Compiler where
  schema := {
    database := Schema.company.database
    mapping := ⟨[
      ⟨"Employee", 0, ⟨[("id", .column ⟨0, 0⟩),
        ("total", .computed ⟨["e"], .aggregate .count (.source "Department") none⟩)], by decide⟩⟩,
      ⟨"Department", 1, ⟨[("id", .column ⟨1, 0⟩)], by decide⟩⟩], by decide⟩ }

def totals : Node :=
  (Node.source "Employee").select ⟨["e"], .construct [("total", .member (.parameter "e") "total")]⟩

def totalsBuilt : BuildState :=
  ((Compiler.tallied.root 12 totals).run {}).2

def totalsItems : List Item × BuildState :=
  match (Compiler.itemsOf (Compiler.tallied.calls 12) 1 [] .all).run totalsBuilt with
  | (.ok items, t) => (items, t)
  | (.error _, t) => ([], t)

/-- What steps stand for does not depend on how deep calls may be nested. -/
theorem Compiler.eq_of_run_classify_of_same (c : Compiler) {m n : Nat} {id : ContextId} {steps : List String}
    {d d' : Denotation} {s t t' : BuildState} (hrun : ((c.calls m).classify id steps).run s = (.ok d, t))
    (hrun' : ((c.calls n).classify id steps).run s = (.ok d', t')) : d = d' := by
  -- with enough calls, both come to one end
  have hends : ∀ {k e u}, ((c.calls k).classify id steps).run s = (.ok e, u) →
      ∃ w, ∀ᶠ i in Filter.atTop, ((c.calls i).classify id steps).run s = (.ok e, w) := by
    intro k e u hrun
    obtain ⟨_, hout⟩ | ⟨r, hr, hecho⟩ := (calls_echo (Eq.refl c.erase) k).classify id steps s s rfl
    · rw [hrun] at hout
      cases hout
    · rw [hrun] at hecho
      cases hecho with
      | gives alike hab => exact ⟨_, hab ▸ hr⟩
  obtain ⟨w, hw⟩ := hends hrun
  obtain ⟨w', hw'⟩ := hends hrun'
  obtain ⟨i, hi, hi'⟩ := (hw.and hw').exists
  exact Except.ok.inj (congrArg Prod.fst (hi.symm.trans hi'))

/-- A query that is nested in a computed member becomes another statement whenever the member is looked up. -/
theorem Compiler.not_addresses_of_itemsOf :
    ¬ ∀ (c : Compiler), c.schema.Separated → c.settings.parameterizeConstants = false → ∀ s,
      c.Visits (Node.Unnested Dotted.Undotted) s → ∀ id steps n k d s₁ items t,
      ((c.calls n).classify id steps).run s = (.ok d, s₁) → d.base?.isSome →
      (itemsOf (c.calls k) id steps .all).run s₁ = (.ok items, t) → ∀ item ∈ items, ∃ member,
        item.member = some member ∧ ∃ m d w,
          ((c.calls m).classify id (steps ++ Dotted.split member)).run t = (.ok d, w) ∧ d.value? = some item.value := by
  intro h
  have hvisits : Compiler.tallied.Visits (Node.Unnested Dotted.Undotted) totalsBuilt :=
    .root .absent 12 .start (by simp [totals, Node.select, Node.chain, Node.source, Node.Unnested,
      Argument.UnnestedAll, Expr.Unnested, Expr.UnnestedBindings, Dotted.Undotted])
  have hclassify : ((Compiler.tallied.calls 12).classify 1 []).run totalsBuilt =
      (.ok (.object 1 []), totalsBuilt) := rfl
  have hitems : (itemsOf (Compiler.tallied.calls 12) 1 [] .all).run totalsBuilt =
      (.ok totalsItems.1, totalsItems.2) := rfl
  obtain ⟨member, hmember, m, d, w, hrun, hv⟩ := h Compiler.tallied (Schema.separated_of_forall (by decide)) rfl _
    hvisits 1 [] 12 12 _ _ _ _ hclassify rfl hitems ⟨some "total", .subquery 2, none⟩ (List.mem_singleton.mpr rfl)
  cases hmember
  obtain ⟨w', hagain⟩ : ∃ w', ((Compiler.tallied.calls 12).classify 1 (Dotted.split "total")).run totalsItems.2 =
      (.ok (.computed (.subquery 3)), w') := ⟨_, rfl⟩
  rw [List.nil_append] at hrun
  rw [eq_of_run_classify_of_same _ hrun hagain] at hv
  cases hv

end ObjectQuery
