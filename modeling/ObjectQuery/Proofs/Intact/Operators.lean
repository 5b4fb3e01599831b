import ObjectQuery.Proofs.Intact.Values
import ObjectQuery.Proofs.Mirror.Shape

/-!
Operators keep states intact. The sequence that an operator applies to is not on the way up from where the query is
nested, so it may be placed under a scope that is.
-/
namespace ObjectQuery

open Build

variable {c : Compiler} {rec : Calls} {s t : BuildState} {id sequence scope : ContextId} {m : StatementId}
  {parent : Option ContextId}

/-- The sequence can be read, and from where the query is nested the parents come to an end without it. -/
structure BuildState.Subject (s : BuildState) (sequence : ContextId) (parent : Option ContextId) : Prop where
  read : s.Sequence sequence
  apart : s.Ends (· ≠ sequence) parent

theorem BuildState.Subject.hosts (h : s.Subject sequence parent) : s.Hosts parent := by
  rintro p rfl
  exact h.apart.has

theorem BuildState.Subject.mono (h : s.Subject sequence parent) (hw : s.Widens t) (hp : s.KeepsParents t) :
    t.Subject sequence parent :=
  ⟨h.read.mono hw, h.apart.keep hp⟩

/-- What was made later than the scopes around the query is not on the way up from them. -/
theorem BuildState.Intact.apart (hs : s.Intact c) (hosts : s.Hosts parent) (hp : s.KeepsParents t)
    (hn : s.contexts.length ≤ sequence) : t.Ends (· ≠ sequence) parent :=
  ((hs.ends_of_has hosts).known.imp fun _ hlt => Nat.ne_of_lt (Nat.lt_of_lt_of_le hlt hn)).keep hp

theorem Assignments.Intact.bind {a : Assignments} (h : a.Intact c) {table : TableId} (ht : c.Knows table) :
    (a.bind table).Intact c := by
  refine ⟨?_, h.items⟩
  rintro _ ⟨⟩
  cases hold : a.target with
  | none => exact ht
  | some existing => exact h.target existing hold

theorem Assignments.Intact.append {a : Assignments} (h : a.Intact c) {items : List SetItem}
    (hi : ∀ i ∈ items, c.Stores i.column) : (a.append items).Intact c :=
  ⟨h.target, fun i hmem => (List.mem_append.mp hmem).elim (h.items i) (hi i)⟩

theorem Assignments.intact_empty (c : Compiler) : Assignments.empty.Intact c :=
  ⟨nofun, nofun⟩

namespace Compiler

theorem secures_updatedRows? (h : rec.Secure c) (hs : s.Sequence id) :
    Secures c s (fun rows t => ∀ r, rows = some r → t.Tabled r.1 ∧ c.Knows r.2) (updatedRows? rec id) := by
  have hrows : Secures c s (fun rows t => ∀ r, rows = some r → t.Tabled r) (rowsOf? rec id) := by
    refine (secures_ask h hs [] .association).bind fun association t ht ha => ?_
    split
    · exact .pure fun r hr => ha r hr nofun
    · refine (secures_ask h (hs.mono ht) [] .table).bind fun table u _ htable => .pure fun r hr => ?_
      split at hr
      · exact htable r hr nofun
      · cases hr
  refine hrows.bind fun rows t _ hrows => ?_
  cases rows with
  | none => exact .pure nofun
  | some rows =>
    have htabled := hrows rows rfl
    refine .of_intact fun hi => (Secures.context htabled.sequence.has).read fun d hd => .pure fun r hr => ?_
    obtain ⟨r', hr', rfl⟩ := Option.map_eq_some_iff.mp hr
    exact ⟨htabled, (hi.refers rows d hd).table r' hr'⟩

variable [Observer]

/-! Values over sequences. -/

theorem secures_aggregateArgument (h : rec.Secure c) (hs : s.Has scope) (hq : s.Sequence sequence)
    (function : Aggregate) (selector : Option Lambda) :
    Secures c s anything (aggregateArgument rec scope function selector sequence) := by
  unfold aggregateArgument
  split
  · next l => exact (Secures.scope hq l hs.hosts).bind fun inner t _ hinner => h.value hinner l.body
  · exact .done
  · refine (h.members hq [] .field).bind fun members t _ _ => ?_
    split
    · exact .done
    · exact .fail fun _ => rfl

theorem secures_aggregate (h : rec.Secure c) (hs : s.Has scope) (function : Aggregate) (source : Node)
    (selector : Option Lambda) : Secures c s anything (aggregate rec scope function source selector) := by
  refine (h.sequence hs.hosts source).bind fun sequence t ht hyields => ?_
  obtain ⟨d, hd, hkind⟩ := hyields
  refine (Secures.ensureComposable ⟨d, hd⟩ _).read fun _ hcomposable => ?_
  have hq : t.Sequence sequence := by
    obtain ⟨e, he, hu⟩ := hcomposable
    obtain rfl := Option.some.inj (hd.symm.trans he)
    exact ⟨d, hd, (hkind.resolve_left (Bool.eq_false_iff.mp hu)).1⟩
  refine (secures_aggregateArgument h (hs.mono ht) hq function selector).bind fun argument u hu _ => ?_
  refine .of_intact fun hi => (Secures.context (hq.mono hu).has).read fun d hd => ?_
  refine (Secures.edit (hi.refers sequence d hd).statement ?_).bind fun _ _ _ _ => .done
  exact fun _ => rfl

theorem secures_value (h : rec.Secure c) (hs : s.Has scope) (e : Expr) :
    Secures c s anything (c.value rec scope e) := by
  cases e with
  | literal v =>
    rw [value]
    split
    · exact Secures.nextParameter.bind fun _ _ _ _ => .done
    · exact .done
  | external | null => exact .done
  | convert inner => exact h.value hs inner
  | parameter | member => exact secures_pathValue h hs _
  | binary op lhs rhs =>
    cases op with
    | arithmetic op =>
      exact (h.value hs lhs).bind fun _ t ht _ => (h.value (hs.mono ht) rhs).bind fun _ _ _ _ => .done
    | and | or | comparison => exact (h.condition hs _).map fun _ _ _ => trivial
  | not => exact (h.condition hs _).map fun _ _ _ => trivial
  | call function args =>
    refine (Secures.mapM (Q := anything) args (fun arg _ t ht => ?_) fun _ _ _ _ _ => trivial).map fun _ _ _ => trivial
    exact h.value (hs.mono ht) arg
  | construct => exact .fail fun _ => rfl
  | aggregate function source selector => exact (secures_aggregate h hs function source selector).inContext

/-! Work on statements. -/

theorem secures_bindTarget (hm : m < s.statements.length) {table : TableId} (ht : c.Knows table) :
    Secures c s anything (c.bindTarget m table) := by
  refine .of_intact fun hi => (Secures.statement hm).read fun st hst => ?_
  split
  · next existing hconflict =>
    have hexisting : c.Knows existing :=
      (hi.assigns m st hst).target existing (Option.filter_eq_some_iff.mp hconflict).1
    exact (Secures.orDangling hexisting).read fun _ _ => (Secures.orDangling ht).read fun _ _ => .fail fun _ => rfl
  · exact (Secures.modifyStatement hm fun st hst => (hi.assigns m st hst).bind ht).any

theorem secures_addItems (hm : m < s.statements.length) {items : List SetItem} (hi : ∀ i ∈ items, c.Stores i.column) :
    Secures c s anything (addItems m items) :=
  .of_intact fun hs => (Secures.modifyStatement hm fun st hst => (hs.assigns m st hst).append hi).any

theorem secures_selectItems (h : rec.Secure c) (hs : s.Sequence id) (steps : List String) (extent : Extent) :
    Secures c s anything (selectItems rec id steps extent) := by
  refine (secures_itemsOf h hs steps extent).bind fun items t ht _ => ?_
  refine .of_intact fun hi => (Secures.context (hs.mono ht).has).read fun d hd => ?_
  have hm := (hi.refers id d hd).statement
  refine (Secures.statement hm).read fun st _ => (Secures.edit hm ?_).bind fun _ _ _ _ => .done
  exact fun _ => rfl

theorem secures_restrict (h : rec.Secure c) (hs : s.Sequence sequence) (l : Lambda) (hp : s.Hosts parent) :
    Secures c s anything (restrict rec sequence l parent) := by
  have hcondition : Secures c s anything (lambdaCondition rec sequence l parent) :=
    (Secures.scope hs l hp).bind fun scope t _ hscope => h.condition hscope l.body
  refine hcondition.bind fun p t ht _ => ?_
  refine .of_intact fun hi => (Secures.context (hs.mono ht).has).read fun d hd => ?_
  refine (Secures.edit (hi.refers sequence d hd).statement ?_).any
  exact fun _ => rfl

theorem secures_updateWith (h : rec.Secure c) (hm : m < s.statements.length) (hs : s.Sequence sequence)
    (setter : Lambda) (hp : s.Hosts parent) :
    Secures c s anything (c.updateWith rec m sequence setter parent) := by
  refine (secures_updatedRows? h hs).bind fun rows t ht hrows => ?_
  have hm := Nat.lt_of_lt_of_le hm ht.statements
  have hs := hs.mono ht
  have hp := hp.mono ht
  cases rows with
  | some row =>
    obtain ⟨htabled, hknown⟩ := hrows row rfl
    refine (secures_bindTarget hm hknown).bind fun _ u hu _ => ?_
    refine (secures_setterItems h setter (htabled.mono hu).sequence _ (hs.mono hu) (hp.mono hu)).bind
      fun items v hv hitems => ?_
    exact secures_addItems (Nat.lt_of_lt_of_le hm (hu.trans hv).statements) hitems
  | none =>
    refine (secures_setterItems h setter hs none hs hp).bind fun items u hu hitems => ?_
    have hm := Nat.lt_of_lt_of_le hm hu.statements
    refine (Secures.forM items fun item hitem v hv => ?_).bind fun _ v hv _ => ?_
    · exact secures_bindTarget (Nat.lt_of_lt_of_le hm hv.statements) (hitems item hitem).knows
    · exact secures_addItems (Nat.lt_of_lt_of_le hm hv.statements) hitems

theorem secures_updateInto (h : rec.Secure c) (hm : m < s.statements.length) (hs : s.Sequence sequence)
    (target : Node) (setter : Lambda) (hp : s.Hosts parent) :
    Secures c s anything (c.updateInto rec m sequence target setter parent) := by
  refine (h.sequence hp target).bind fun into t ht hyields => ?_
  have htable : Secures c t (fun table u => u = t ∧ c.Knows table ∧ t.Sequence into) (targetTable into) := by
    obtain ⟨d, hd, -⟩ := hyields
    refine .of_intact fun hi => (Secures.context ⟨d, hd⟩).read fun e he => ?_
    split
    · next rows => exact .pure ⟨rfl, (hi.refers into _ he).table rows rfl, _, he, rfl⟩
    · exact .fail fun _ => rfl
  refine htable.read fun table ⟨hknown, hinto⟩ => ?_
  have hm := Nat.lt_of_lt_of_le hm ht.statements
  have hs := hs.mono ht
  refine (secures_selectItems h hs [] .all).bind fun _ u hu _ => ?_
  have hmu := Nat.lt_of_lt_of_le hm hu.statements
  refine Secures.bind (Secures.edit hmu ?_) fun _ v hv _ => ?_
  · exact fun _ => rfl
  have huv := hu.trans hv
  refine (secures_setterItems h setter (hinto.mono huv) _ (hs.mono huv) (hp.mono (ht.trans huv))).bind
    fun items w hw hitems => ?_
  have hmw := Nat.lt_of_lt_of_le hm (huv.trans hw).statements
  refine Secures.bind (Secures.edit hmw ?_) fun _ x hx _ => ?_
  · exact fun _ => rfl
  have hmx := Nat.lt_of_lt_of_le hmw hx.statements
  refine (secures_bindTarget hmx hknown).bind fun _ y hy _ => ?_
  exact secures_addItems (Nat.lt_of_lt_of_le hmx hy.statements) hitems

theorem secures_assign (h : rec.Secure c) (hm : m < s.statements.length) (hs : s.Sequence sequence)
    {node : Node} (hnode : Builder.Shape .update node) (hp : s.Hosts parent) :
    Secures c s anything (c.assign rec m sequence node.operands parent) := by
  cases hnode with
  | update source =>
    refine (secures_updatedRows? h hs).bind fun rows t ht hrows => ?_
    cases rows with
    | some row => exact secures_bindTarget (Nat.lt_of_lt_of_le hm ht.statements) (hrows row rfl).2
    | none => exact .done
  | updateWith source setter => exact secures_updateWith h hm hs setter hp
  | updateWhere source f setter =>
    refine (secures_restrict h hs f hp).bind fun _ t ht _ => ?_
    exact secures_updateWith h (Nat.lt_of_lt_of_le hm ht.statements) (hs.mono ht) setter (hp.mono ht)
  | updateInto source target setter => exact secures_updateInto h hm hs target setter hp

theorem secures_completeUpdate (hm : m < s.statements.length) : Secures c s anything (c.completeUpdate m) := by
  refine .of_intact fun hi => (Secures.statement hm).read fun st hst => ?_
  dsimp only
  split
  · next item hitem =>
    have hstored : c.Ready → (c.schema.database.qualifiedName? item.column).isSome := by
      intro hc
      obtain ⟨target, -, hfound⟩ := Option.bind_eq_some_iff.mp hitem
      have hcolumn := (hi.assigns m st hst).items item (List.mem_of_find?_eq_some hfound) hc
      rw [Database.column?] at hcolumn
      rw [Database.qualifiedName?]
      generalize c.schema.database.table? item.column.table = table at hcolumn ⊢
      cases table with
      | none => cases hcolumn
      | some table => simpa using hcolumn
    exact (Secures.orDangling hstored).read fun _ _ => .fail fun _ => rfl
  · refine (Secures.edit hm ?_).any
    exact fun _ => rfl

omit [Observer] in
theorem secures_computedColumn (h : rec.Secure c) (path : Path) (hs : s.Sequence sequence) :
    Secures c s (fun column _ => c.Stores column) (c.computedColumn rec path sequence) := by
  refine .of_intact fun hi => (Secures.context hs.has).read fun d hd => ?_
  refine (Secures.statement (hi.refers sequence d hd).statement).read fun st hst => ?_
  split
  · next target htarget =>
    exact (secures_targetColumn ((hi.assigns _ st hst).target target htarget) _).imp fun _ _ _ hcolumn => hcolumn.2
  · exact secures_settableColumn h hs _ none

theorem secures_setItem (h : rec.Secure c) (hd : rec.Derive) (member : Lambda) (path : Path) {operand : Argument}
    (ho : (∃ l, operand = .lambda l) ∨ ∃ e, operand = .value e) (hs : s.Subject sequence parent) :
    Secures c s (fun item _ => c.Stores item.column) (c.setItem rec member path operand sequence parent) := by
  obtain ⟨l, rfl⟩ | ⟨e, rfl⟩ := ho
  · refine (secures_computedColumn h path hs.read).bind_of_run fun column t hrun ht hcolumn => ?_
    have hs := hs.mono ht ((derives_computedColumn hd path sequence).extends_of_run hrun).keepsParents
    refine (Secures.lambdaScope hs.read l hs.hosts).bind fun scope u hu hscope => ?_
    obtain ⟨k, row, rfl, rfl⟩ := hscope
    -- the new scope leads on to the scopes around the query, and the sequence is none of them
    have hs' := hs.mono hu (t.keepsParents_enter _)
    have hscope := t.getElem?_enter_self (.lambda parent k [(row, sequence)])
    have hnew : t.contexts.length ≠ sequence := Nat.ne_of_gt hs.read.has.lt
    obtain ⟨d, hsequence, -⟩ := hs'.read
    refine Secures.bind (Secures.withParent hsequence (.up hnew hscope hs'.apart) (h.value ?_ l.body)
      fun v hv => ?_) fun _ _ _ _ => .pure hcolumn
    · exact BuildState.Has.mono ⟨_, hscope⟩ (BuildState.widens_adjust _ sequence (Context.core_withParent _))
    · exact hv ▸ (hd.value [] _ l.body _).1
  · refine (secures_settableColumn h hs.read _ none).bind fun column t ht hcolumn => ?_
    refine (Secures.scope (hs.read.mono ht) member (hs.hosts.mono ht)).bind fun scope u _ hscope => ?_
    exact (h.value hscope e).bind fun _ _ _ _ => .pure hcolumn

/-! The operators. -/

variable {node : Node} {n : Nat}

theorem secures_buildSource (hnode : Builder.Shape .source node) (hp : s.Hosts parent) :
    Secures c s (fun id t => t.Yields s.contexts.length id) (c.buildSource node parent) := by
  cases hnode with
  | source name =>
    refine (secures_entity name).read fun e he => Secures.nextAlias.bind fun aliasName t ht _ => ?_
    refine (Secures.addStatement (Assignments.intact_empty c)).bind fun number u hu hnumber => ?_
    have hw := ht.trans hu
    have hlt : number < u.statements.length := by
      obtain ⟨rfl, rfl⟩ := hnumber
      simp
    have hrefers : u.Refers c (.table parent number ⟨e.name, e.table, aliasName, []⟩) :=
      .of_rows hlt rfl (knows_of_mem he) rfl
    refine (Secures.addContext hrefers (hp.mono hw)).imp fun id v _ hv => ?_
    obtain ⟨rfl, rfl⟩ := hv
    exact ⟨_, u.getElem?_enter_self _, .inr ⟨rfl, hw.contexts_length_le⟩⟩

theorem secures_buildFilter (h : rec.Secure c) (hnode : Builder.Shape .filter node) (hs : s.Sequence sequence)
    (hn : n ≤ sequence) (hp : s.Hosts parent) :
    Secures c s (fun id t => t.Yields n id) (buildFilter rec node sequence parent) := by
  cases hnode with
  | filter source f =>
    refine (Secures.ensureComposable hs.has _).read fun _ _ => ?_
    refine (secures_restrict h hs f hp).bind fun _ t ht _ => .pure ?_
    obtain ⟨d, hd, hread⟩ := hs.mono ht
    exact ⟨d, hd, .inr ⟨hread, hn⟩⟩

theorem secures_buildSelect (hnode : Builder.Shape .select node) (hs : s.Sequence sequence) (hn : n ≤ sequence)
    (hp : s.Hosts parent) : Secures c s (fun id t => t.Yields n id) (buildSelect node sequence parent) := by
  cases hnode with
  | select source f =>
    refine (Secures.ensureComposable hs.has _).read fun _ _ => ?_
    refine .of_intact fun hi => (Secures.context hs.has).read fun d hd => ?_
    have hrefers : s.Refers c (.projection parent d.statement sequence f f.body.bindings?.isNone) := by
      refine .of_ranges (hi.refers sequence d hd).statement rfl fun q hq => ?_
      obtain rfl := List.mem_singleton.mp hq
      exact hs
    refine (Secures.addContext hrefers hp).imp fun id t _ ht => ?_
    obtain ⟨rfl, rfl⟩ := ht
    exact ⟨_, s.getElem?_enter_self _, .inr ⟨rfl, Nat.le_trans hn (Nat.le_of_lt hs.has.lt)⟩⟩

theorem secures_buildUpdate (h : rec.Secure c) (hnode : Builder.Shape .update node) (hs : s.Sequence sequence)
    (hp : s.Hosts parent) :
    Secures c s (fun id t => t.Yields n id) (c.buildUpdate rec node sequence parent) := by
  refine (Secures.ensureComposable hs.has _).read fun _ _ => ?_
  refine .of_intact fun hi => (Secures.context hs.has).read fun d hd => ?_
  have hm := (hi.refers sequence d hd).statement
  refine (secures_assign h hm hs hnode hp).bind fun _ t ht _ => ?_
  have hmt := Nat.lt_of_lt_of_le hm ht.statements
  refine (secures_completeUpdate hmt).bind fun _ u hu _ => ?_
  have hw := ht.trans hu
  have hrefers : u.Refers c (.update parent d.statement sequence) := by
    refine .of_ranges (Nat.lt_of_lt_of_le hmt hu.statements) rfl fun q hq => ?_
    obtain rfl := List.mem_singleton.mp hq
    exact hs.mono hw
  refine (Secures.addContext hrefers (hp.mono hw)).imp fun id v _ hv => ?_
  obtain ⟨rfl, rfl⟩ := hv
  exact ⟨_, u.getElem?_enter_self _, .inl rfl⟩

theorem secures_buildSet (h : rec.Secure c) (hd : rec.Derive) (hnode : Builder.Shape .set node)
    (hs : s.Subject sequence parent) (hn : n ≤ sequence) :
    Secures c s (fun id t => t.Yields n id) (c.buildSet rec node sequence parent) := by
  have hoperands : ∃ member operand, node.operands = [.lambda member, operand] ∧
      ((∃ l, operand = .lambda l) ∨ ∃ e, operand = .value e) := by
    cases hnode with
    | set source member value => exact ⟨member, .value value, rfl, .inr ⟨value, rfl⟩⟩
    | setWith source member value => exact ⟨member, .lambda value, rfl, .inl ⟨value, rfl⟩⟩
  obtain ⟨member, operand, hoperands, hoperand⟩ := hoperands
  refine (Secures.ensureComposable hs.read.has _).read fun _ _ => ?_
  rw [hoperands]
  have hpath : ∀ e, selectedPath member = .error e → c.Ready → e.isDefensive = false := by
    intro e he _
    unfold selectedPath at he
    repeat' split at he
    all_goals cases he
    all_goals rfl
  refine (Secures.ofExcept hpath).read fun path _ => ?_
  refine .of_intact fun hi => (Secures.context hs.read.has).read fun d hd' => ?_
  have hm := (hi.refers sequence d hd').statement
  refine (secures_setItem h hd member path hoperand hs).bind fun item t ht hitem => ?_
  have hmt := Nat.lt_of_lt_of_le hm ht.statements
  refine (secures_bindTarget hmt hitem.knows).bind fun _ u hu _ => ?_
  refine (secures_addItems (Nat.lt_of_lt_of_le hmt hu.statements) ?_).bind fun _ v hv _ => .pure ?_
  · exact List.forall_mem_singleton.mpr hitem
  · obtain ⟨e, he, hread⟩ := hs.read.mono ((ht.trans hu).trans hv)
    exact ⟨e, he, .inr ⟨hread, hn⟩⟩

/-- The builder that claims an operator finds what it takes apart. -/
theorem secures_sequence (h : rec.Secure c) (hd : rec.Derive) (hp : s.Hosts parent) (node : Node) :
    Secures c s (fun id t => t.Yields s.contexts.length id) (c.sequence rec parent node) := by
  have hbuilder : ∀ e, c.builderFor node = .error e → c.Ready → e.isDefensive = false := by
    intro e he _
    unfold builderFor at he
    split at he <;> cases he
    rfl
  refine (Secures.ofExcept hbuilder).read fun b hb => ?_
  have hshape := Builder.shape_of_claims (claims_of_builderFor hb)
  rcases primary?_of_builderFor hb with ⟨rfl, hprimary⟩ | ⟨hne, source, hprimary⟩
  · rw [primarySequence?, hprimary]
    exact secures_buildSource hshape hp
  · rw [primarySequence?, hprimary, bind_map_left]
    refine .of_intact fun hs => (h.sequence hp source).bind_of_run fun sequence t hrun ht hyields => ?_
    obtain ⟨d, hsequence, hkind⟩ := hyields
    cases hu : d.isUpdate with
    | true =>
      -- no operator applies to an update
      have hrefused : ∀ operation act, Secures c t (fun id t => BuildState.Yields t s.contexts.length id)
          (ensureComposable sequence operation >>= act) := fun operation act =>
        (Secures.ensureComposable ⟨d, hsequence⟩ operation).read fun _ hcomposable => by
          obtain ⟨e, he, he'⟩ := hcomposable
          rw [Option.some.inj (hsequence.symm.trans he), he'] at hu
          cases hu
      cases b with
      | source => exact absurd rfl hne
      | filter | select | update | set => exact hrefused _ _
    | false =>
      obtain ⟨hread, hn⟩ := hkind.resolve_left (Bool.eq_false_iff.mp hu)
      have hq : t.Sequence sequence := ⟨d, hsequence, hread⟩
      have hpt := hp.mono ht
      cases b with
      | source => exact absurd rfl hne
      | filter => exact secures_buildFilter h hshape hq hn hpt
      | select => exact secures_buildSelect hshape hq hn hpt
      | update => exact secures_buildUpdate h hshape hq hpt
      | set =>
        have hextends := (hd.sequence parent source).derives.extends_of_run hrun
        exact secures_buildSet h hd hshape ⟨hq, hs.apart hp hextends.keepsParents hn⟩ hn

/-- Every call keeps states intact, however deep calls may be nested. -/
theorem calls_secure (c : Compiler) (fuel : Nat) : (c.calls fuel).Secure c := by
  induction fuel with
  | zero => exact Calls.secure_exhausted c
  | succ fuel ih =>
    exact ⟨fun hs => secures_value ih hs, fun hs => secures_condition ih hs, fun hs => secures_classify ih hs,
      fun hs => secures_members ih hs, fun hp => secures_sequence ih (c.calls_derive fuel) hp⟩

theorem secures_root (c : Compiler) (fuel : Nat) (node : Node) : Secures c s anything (c.root fuel node) := by
  have h := c.calls_secure fuel
  refine (h.sequence s.hosts_none node).bind fun id t _ hyields => ?_
  obtain ⟨d, hd, hkind⟩ := hyields
  have hend : ∀ u : BuildState, t.Widens u →
      Secures c u anything (do pure ((← context id).statement, id) : Build (StatementId × ContextId)) :=
    fun u hu => (Secures.context (BuildState.Has.mono ⟨d, hd⟩ hu)).read fun _ _ => .done
  refine (Secures.context ⟨d, hd⟩).read fun e he => ?_
  obtain rfl := Option.some.inj (hd.symm.trans he)
  split
  · exact hend t (.refl t)
  · next hu =>
    refine (secures_selectItems h ⟨d, hd, (hkind.resolve_left hu).1⟩ [] .all).bind fun _ u hu _ => ?_
    exact hend u hu

end Compiler
end ObjectQuery
