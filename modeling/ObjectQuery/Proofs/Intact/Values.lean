import ObjectQuery.Proofs.Intact.Rules
import ObjectQuery.Proofs.Nested.Operators

/-!
Paths, values, conditions and rows keep states intact, provided that the calls they make do. What a path denotes can be
read, and a column that it denotes is there.
-/
namespace ObjectQuery

open Build

variable {c : Compiler} {rec : Calls} {s t : BuildState}

/-- Rows are those of a context that has some, columns are there, objects belong to something that can be read. -/
def BuildState.Fits (c : Compiler) (s : BuildState) : Denotation → Prop
  | .table rows => s.Tabled rows
  | .association rows => s.Tabled rows
  | .field column _ => c.Stores column
  | .computed _ => True
  | .object id _ => s.Sequence id

/-- Who asks for rows is told of a context that has some. -/
theorem BuildState.Fits.tabled {request : Request} {d : Denotation} {rows : ContextId} (h : s.Fits c d)
    (hr : (request.answer d).context = some rows) (hne : request ≠ .object) : s.Tabled rows := by
  cases d with
  | table id | association id =>
    cases request <;> simp only [Request.answer, Answer.no, reduceCtorEq, Option.some.injEq] at hr
    all_goals exact hr ▸ h
  | field | computed => cases request <;> cases hr
  | object => cases request <;> first | cases hr; done | exact absurd rfl hne

/-- The scope that something is nested in is there, if it is nested. -/
def BuildState.Hosts (s : BuildState) (parent : Option ContextId) : Prop :=
  ∀ p, parent = some p → s.Has p

theorem BuildState.Hosts.mono {parent : Option ContextId} (h : s.Hosts parent) (hw : s.Widens t) : t.Hosts parent :=
  fun p hp => (h p hp).mono hw

theorem BuildState.hosts_none (s : BuildState) : s.Hosts none :=
  nofun

theorem BuildState.Has.hosts {id : ContextId} (h : s.Has id) : s.Hosts (some id) := by
  rintro _ ⟨⟩
  exact h

/-- The context can be read and was made since there were `n` contexts, or it is that of an update. -/
def BuildState.Yields (s : BuildState) (n : Nat) (id : ContextId) : Prop :=
  ∃ d, s.contexts[id]? = some d ∧ (d.isUpdate ∨ d.isSequence ∧ n ≤ id)

/-- All calls keep states intact. -/
structure Calls.Secure (rec : Calls) (c : Compiler) : Prop where
  value : ∀ {s scope}, s.Has scope → ∀ e, Secures c s anything (rec.value scope e)
  condition : ∀ {s scope}, s.Has scope → ∀ e, Secures c s anything (rec.condition scope e)
  classify : ∀ {s id}, s.Sequence id → ∀ steps, Secures c s (fun d t => t.Fits c d) (rec.classify id steps)
  members : ∀ {s id}, s.Sequence id → ∀ steps extent, Secures c s anything (rec.members id steps extent)
  sequence : ∀ {s : BuildState} {parent}, s.Hosts parent → ∀ node,
    Secures c s (fun id t => t.Yields s.contexts.length id) (rec.sequence parent node)

theorem Calls.secure_exhausted (c : Compiler) : Calls.exhausted.Secure c :=
  ⟨fun _ _ => .throw fun _ => trivial, fun _ _ => .throw fun _ => trivial, fun _ _ => .throw fun _ => trivial,
    fun _ _ _ => .throw fun _ => trivial, fun _ _ => .throw fun _ => trivial⟩

namespace Compiler

variable {id scope : ContextId}

/-- An entity that is asked for is one of the schema. -/
theorem secures_entity (name : String) :
    Secures c s (fun e t => t = s ∧ e ∈ c.schema.mapping.items) (c.entity name) :=
  (Secures.orFail fun _ _ => rfl).imp fun _ _ _ ⟨ht, he⟩ => ⟨ht, Keyed.mem_of_find? he⟩

theorem secures_resolve (h : rec.Secure c) (hs : s.Has scope) (path : Path) :
    Secures c s (fun d t => t.Fits c d) (resolve rec scope path) := by
  refine (Secures.rootOf hs path).read fun sequence hq => (h.classify hq path.steps).recover ?_ ?_
  · exact fun d t _ hd => .pure hd
  · intro e t _ he
    cases e with
    | memberResolution => exact .fail fun _ => rfl
    | _ => exact .fail he

theorem secures_pathValue (h : rec.Secure c) (hs : s.Has scope) (e : Expr) :
    Secures c s anything (pathValue rec scope e) := by
  refine (Secures.orFail fun _ _ => rfl).read fun path _ => (secures_resolve h hs path).bind fun d t _ _ => ?_
  cases d with
  | field | computed => exact .done
  | table | association | object => exact .fail fun _ => rfl

theorem secures_condition (h : rec.Secure c) (hs : s.Has scope) (e : Expr) :
    Secures c s anything (condition rec scope e) := by
  unfold condition
  split
  · exact (h.condition hs _).bind fun _ t ht _ => (h.condition (hs.mono ht) _).bind fun _ _ _ _ => .done
  · exact (h.condition hs _).bind fun _ t ht _ => (h.condition (hs.mono ht) _).bind fun _ _ _ _ => .done
  · exact (h.value hs _).bind fun _ t ht _ => (h.value (hs.mono ht) _).bind fun _ _ _ _ => .done
  · exact .fail fun _ => rfl
  · exact (h.condition hs _).map fun _ _ _ => trivial
  · exact .done
  · refine (h.value hs _).bind fun v t _ _ => ?_
    split <;> exact .done

/-- Only an update cannot be asked. -/
theorem secures_ask (h : rec.Secure c) (hs : s.Sequence id) (steps : List String) (request : Request) :
    Secures c s (fun answer t => ∀ rows, answer.context = some rows → request ≠ .object → t.Tabled rows)
      (ask rec id steps request) := by
  refine (Secures.context hs.has).read fun d hd => ?_
  split
  · next hu =>
    obtain ⟨e, he, hread⟩ := hs
    obtain rfl := Option.some.inj (hd.symm.trans he)
    cases d with
    | update => cases hread
    | table | association | projection | lambda => cases hu
  · refine (h.classify hs steps).recover (fun d t _ hd => .pure fun rows => hd.tabled) fun e t _ he => ?_
    cases e with
    | memberResolution => exact .pure nofun
    | _ => exact .fail he

/-- Rows have columns. -/
theorem secures_rowColumns (hr : s.Tabled id) (outer : Option String) (extent : Extent) :
    Secures c s anything (c.rowColumns id outer extent) := by
  refine .of_intact fun hi => (Secures.context hr.sequence.has).read fun d hd => ?_
  obtain ⟨e, he, hrows⟩ := hr
  obtain rfl := Option.some.inj (hd.symm.trans he)
  refine (Secures.orFail fun hnone => by rw [hnone] at hrows; cases hrows).read fun r hr => ?_
  refine (secures_entity r.entity).read fun e _ => ?_
  cases extent with
  | key =>
    have hkeys : c.Ready → (c.schema.database.keyColumns? r.table).isSome := fun hc => by
      simpa [Database.keyColumns?] using (hi.refers id d hd).table r hr hc
    exact (Secures.orDangling hkeys).read fun _ _ => Secures.done.bind fun _ _ _ _ => .done
  | field | all => exact Secures.done.bind fun _ _ _ _ => .done

theorem secures_members (h : rec.Secure c) (hs : s.Sequence id) (steps : List String) (extent : Extent) :
    Secures c s anything (c.members rec id steps extent) := by
  refine (h.classify hs steps).bind fun d t _ hd => ?_
  cases d with
  | field | computed => exact .done
  | table | association => exact secures_rowColumns hd none extent
  | object owner objectSteps =>
    refine (Secures.context hd.has).read fun e he => ?_
    split
    · refine (Secures.mapM (Q := anything) _ (fun name _ u hu => ?_) fun _ _ _ _ _ => trivial).bind
        fun _ _ _ _ => .done
      exact (h.members (BuildState.Sequence.mono hd hu) _ extent).bind fun _ _ _ _ => .done
    · next hprojection =>
      -- what can be read and is no projection has rows
      obtain ⟨e', he', hread⟩ := hd
      obtain rfl := Option.some.inj (he.symm.trans he')
      refine secures_rowColumns ⟨e, he, ?_⟩ _ extent
      cases e with
      | table | association => rfl
      | projection p m q l scalar => exact absurd rfl (hprojection p m q l scalar)
      | lambda | update => cases hread

theorem secures_itemsOf (h : rec.Secure c) (hs : s.Sequence id) (steps : List String) (extent : Extent) :
    Secures c s anything (itemsOf rec id steps extent) :=
  (h.members hs steps extent).bind fun _ _ _ _ => .done

theorem secures_itemsOfExpr (h : rec.Secure c) (hs : s.Has scope) (e : Expr) (extent : Extent) :
    Secures c s anything (itemsOfExpr rec scope e extent) := by
  unfold itemsOfExpr
  split
  · exact (Secures.rootOf hs _).read fun sequence hq => secures_itemsOf h hq _ extent
  · exact (h.value hs e).bind fun _ _ _ _ => .done

theorem secures_settableColumn (h : rec.Secure c) (hs : s.Sequence id) (steps : List String) (table : Option TableId) :
    Secures c s (fun column _ => c.Stores column) (settableColumn rec id steps table) := by
  refine (h.classify hs steps).recover (fun d t _ hd => ?_) fun e t _ he => ?_
  · cases d with
    | field column aliasName =>
      dsimp only
      split
      · exact .fail fun _ => rfl
      · exact .pure hd
    | table | association | computed | object => exact .fail fun _ => rfl
  · cases e with
    | memberResolution => exact .fail fun _ => rfl
    | _ => exact .fail he

theorem secures_targetColumn {target : TableId} (ht : c.Knows target) (name : String) :
    Secures c s (fun column t => t = s ∧ c.Stores column) (c.targetColumn target name) := by
  have hentity : Secures c s (fun e t => t = s ∧ e ∈ c.schema.mapping.items) (c.entityOver target) :=
    (Secures.orDangling ht).read fun _ _ => (Secures.orFail fun _ _ => rfl).imp
      fun _ _ _ ⟨ht, he⟩ => ⟨ht, List.mem_of_find?_eq_some he⟩
  refine hentity.read fun e he => ?_
  split
  · next column hm => exact .pure ⟨rfl, stores_of_mem he hm⟩
  · exact .fail fun _ => rfl

theorem secures_entered? (h : rec.Secure c) (hs : s.Sequence id) (steps : List String) (value : Expr) :
    Secures c s anything (entered? rec id steps value) := by
  unfold entered?
  split
  · exact .done
  · exact (secures_ask h hs steps .field).bind fun _ _ _ _ => .done

/-- The columns of the items are there. -/
def storesItems (c : Compiler) (items : List SetItem) (_ : BuildState) : Prop :=
  ∀ i ∈ items, c.Stores i.column

theorem secures_flatten (h : rec.Secure c) {into : ContextId} (hi : s.Sequence into) (table : Option TableId)
    (hs : s.Has scope) (depth : Nat) (outer : List String) (bindings : List (String × Expr)) :
    Secures c s (storesItems c) (flatten c rec into table scope depth outer bindings) := by
  induction depth generalizing s outer bindings with
  | zero => exact .fail fun _ => rfl
  | succ depth ih =>
    rw [flatten_succ]
    refine (Secures.mapM (Q := storesItems c) _ (fun binding _ t ht => ?_) fun _ _ _ _ h => h).bind
      fun groups u _ hgroups => .pure ?_
    · refine (secures_entered? h (hi.mono ht) _ binding.2).bind fun nested u hu _ => ?_
      have hw := ht.trans hu
      cases nested with
      | some nested => exact ih (hi.mono hw) (hs.mono hw) _ nested
      | none =>
        refine (secures_settableColumn h (hi.mono hw) _ table).bind fun column v hv hcolumn => ?_
        exact (h.value (hs.mono (hw.trans hv)) _).bind fun _ _ _ _ => .pure fun i hmem => by
          rw [List.mem_singleton.mp hmem]
          exact hcolumn
    · intro i hmem
      obtain ⟨group, hgroup, hmem⟩ := List.mem_flatten.mp hmem
      exact hgroups group hgroup i hmem

variable [Observer]

theorem secures_setterItems (h : rec.Secure c) {into sequence : ContextId} {parent : Option ContextId} (setter : Lambda)
    (hi : s.Sequence into) (table : Option TableId) (hs : s.Sequence sequence) (hp : s.Hosts parent) :
    Secures c s (storesItems c) (c.setterItems rec setter into table sequence parent) := by
  refine (Secures.scope hs setter hp).bind fun scope t ht hscope => ?_
  split
  · exact secures_flatten h (hi.mono ht) table hscope _ [] _
  · refine (secures_itemsOfExpr h hscope _ .all).bind fun items u hu _ => ?_
    refine (Secures.mapM (Q := fun (item : SetItem) _ => c.Stores item.column) _ (fun item _ v hv => ?_)
      fun _ _ _ _ h => h).imp fun _ _ _ h => h
    refine (Secures.orFail fun _ _ => rfl).read fun member _ => ?_
    have hinto := hi.mono (ht.trans (hu.trans hv))
    exact (secures_settableColumn h hinto _ table).bind fun column _ _ hcolumn => .pure hcolumn

/-- The rows reached through an association have a context: that noted when it was first followed, or a new one. -/
theorem secures_followAssociation {owner : ContextId} (ho : s.Has owner) (name : String) (a : Association) :
    Secures c s (fun id t => t.Tabled id) (c.followAssociation owner name a) := by
  refine .of_intact fun hi => (Secures.context ho).read fun d hd => ?_
  have hrefers := hi.refers owner d hd
  split
  · next rows hl =>
    refine .pure ?_
    obtain ⟨l₁, l₂, hf, -⟩ := List.lookup_eq_some_iff.mp hl
    cases hr : d.rows? with
    | none => simp [hr] at hf
    | some r =>
      refine hrefers.followed r hr (name, rows) ?_
      rw [hr, Option.elim_some] at hf
      simp [hf]
  · refine (secures_entity a.target).read fun target htarget => Secures.nextAlias.bind fun aliasName t ht _ => ?_
    have hstatement : d.statement < t.statements.length := Nat.lt_of_lt_of_le hrefers.statement ht.statements
    refine Secures.bind (Secures.edit hstatement ?_) fun _ u hu _ => ?_
    · exact fun _ => rfl
    have hw := ht.trans hu
    let rows : Rows := ⟨target.name, target.table, aliasName, []⟩
    have hassociation : u.Refers c (.association owner d.statement name rows) :=
      .of_rows (Nat.lt_of_lt_of_le hrefers.statement hw.statements) rfl (knows_of_mem htarget) rfl
    refine (Secures.addContext hassociation (ho.mono hw).hosts).bind fun id v hv hid => ?_
    have htabled : v.Tabled id := by
      obtain ⟨rfl, rfl⟩ := hid
      exact ⟨_, u.getElem?_enter_self _, rfl⟩
    exact (Secures.follow ((ho.mono hw).mono hv) htabled).bind fun _ _ hφ _ => .pure (htabled.mono hφ)

theorem secures_classifyMember (h : rec.Secure c) (hr : s.Tabled id) (steps : List String) :
    Secures c s (fun d t => t.Fits c d) (c.classifyMember rec id steps) := by
  refine (Secures.context hr.sequence.has).read fun d hd => ?_
  have hrows : d.rows?.isSome := by
    obtain ⟨e, he, hrows⟩ := hr
    exact Option.some.inj (he.symm.trans hd) ▸ hrows
  cases steps with
  | nil =>
    dsimp only
    split <;> exact .pure hr
  | cons step steps =>
    refine (Secures.orFail fun hnone => by rw [hnone] at hrows; cases hrows).read fun r _ => ?_
    refine (secures_entity r.entity).read fun e he => ?_
    split
    · next column hl => exact .pure (stores_of_mem he (member?_of_longestMember? hl))
    · next l _ =>
      refine (Secures.scope hr.sequence l hr.sequence.has.hosts).bind fun scope t _ hscope => ?_
      exact (h.value hscope l.body).map fun _ _ _ => trivial
    · next name a rest _ =>
      exact (secures_followAssociation hr.sequence.has name a).bind fun target t _ ht => h.classify ht.sequence rest
    · exact .fail fun _ => rfl
    · split
      · exact .pure hr.sequence
      · exact .fail fun _ => rfl

theorem secures_classifyValue (h : rec.Secure c) {projection sequence : ContextId} (hp : s.Has projection)
    (hs : s.Sequence sequence) (l : Lambda) (e : Expr) (steps : List String) :
    Secures c s (fun d t => t.Fits c d) (classifyValue rec projection sequence l e steps) := by
  unfold classifyValue
  split
  · exact h.classify hs _
  · cases steps with
    | nil =>
      refine .of_intact fun hi => (Secures.context hp).read fun d hd => ?_
      refine (Secures.scope hs l fun k hk => hi.has_parent hd hk).bind fun scope t _ hscope => ?_
      exact (h.value hscope e).map fun _ _ _ => trivial
    | cons step steps => exact .fail fun _ => rfl

theorem secures_classifyProjected (h : rec.Secure c) {projection sequence : ContextId} (hp : s.Sequence projection)
    (hs : s.Sequence sequence) (l : Lambda) (e : Expr) (steps : List String) :
    Secures c s (fun d t => t.Fits c d) (classifyProjected rec projection sequence l e steps) := by
  induction steps generalizing e with
  | nil =>
    unfold classifyProjected
    split
    · exact .pure hp
    · exact secures_classifyValue h hp.has hs l _ _
  | cons name rest ih =>
    unfold classifyProjected
    split
    · exact secures_classifyValue h hp.has hs l _ _
    · split
      · exact .fail fun _ => rfl
      · next value _ =>
        refine (ih value).bind fun d t ht hd => ?_
        cases d with
        | object context steps =>
          dsimp only
          split
          · exact .pure (hp.mono ht)
          · exact .pure hd
        | table | association | field | computed => exact .pure hd

theorem secures_classify (h : rec.Secure c) (hs : s.Sequence id) (steps : List String) :
    Secures c s (fun d t => t.Fits c d) (c.classify rec id steps) := by
  refine .of_intact fun hi => (Secures.context hs.has).read fun d hd => ?_
  have hread : d.isSequence := by
    obtain ⟨e, he, hread⟩ := hs
    exact Option.some.inj (he.symm.trans hd) ▸ hread
  cases d with
  | table | association => exact secures_classifyMember h ⟨_, hd, rfl⟩ steps
  | projection p m sequence l scalar =>
    have hsequence : s.Sequence sequence := (hi.refers id _ hd).ranges sequence (List.mem_singleton_self _)
    dsimp only
    split
    · exact secures_classifyValue h hs.has hsequence l _ steps
    · exact secures_classifyProjected h hs hsequence l _ steps
  | lambda | update => cases hread

end Compiler
end ObjectQuery
