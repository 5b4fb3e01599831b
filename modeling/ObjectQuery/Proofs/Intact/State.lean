import ObjectQuery.Proofs.Nested.Derives
import ObjectQuery.Proofs.Twins.Lookup

/-!
Intact states. Contexts and statements refer only to what is there and of the right kind: parameters and projections
range over sequences, followed associations lead to rows. From every context the parents come to an end.
-/
namespace ObjectQuery

namespace Context

/-- Rows and projections can be read; lambda scopes and updates cannot. -/
def isSequence : Context → Bool
  | .table .. | .association .. | .projection .. => true
  | .lambda .. | .update .. => false

variable {d e : Context}

theorem isSequence_eq_of_core (h : e.core = d.core) : e.isSequence = d.isSequence := by
  have hcore : ∀ d : Context, d.core.isSequence = d.isSequence := fun d => by cases d <;> rfl
  rw [← hcore e, h, hcore]

theorem isSequence_of_rows?_isSome (h : d.rows?.isSome) : d.isSequence := by
  cases d <;> first | rfl | cases h

@[simp] theorem parent_follow (name : String) (id : ContextId) (d : Context) :
    (d.follow name id).parent = d.parent := by
  cases d <;> rfl

end Context

/-- The tables and columns of the schema are all there. -/
structure Compiler.Ready (c : Compiler) : Prop where
  tables : ∀ e ∈ c.schema.mapping.items, (c.schema.database.table? e.table).isSome
  columns : ∀ e ∈ c.schema.mapping.items, ∀ name id, (name, .column id) ∈ e.members.items →
    (c.schema.database.column? id).isSome

namespace Compiler

variable {c : Compiler} {e : Entity}

/-- The table is there if all tables of the schema are. -/
def Knows (c : Compiler) (table : TableId) : Prop :=
  c.Ready → (c.schema.database.table? table).isSome

/-- The column is there if all columns of the schema are. -/
def Stores (c : Compiler) (id : ColumnId) : Prop :=
  c.Ready → (c.schema.database.column? id).isSome

theorem Stores.knows {id : ColumnId} (h : c.Stores id) : c.Knows id.table := by
  intro hc
  have hid := h hc
  rw [Database.column?] at hid
  cases ht : c.schema.database.table? id.table with
  | none => simp [ht] at hid
  | some => rfl

theorem knows_of_mem (he : e ∈ c.schema.mapping.items) : c.Knows e.table :=
  fun hc => hc.tables e he

theorem stores_of_mem (he : e ∈ c.schema.mapping.items) {name : String} {id : ColumnId}
    (hm : e.member? name = some (.column id)) : c.Stores id :=
  fun hc => hc.columns e he name id (Entity.mem_of_member? hm)

end Compiler

/-- Targets and items are those of tables and columns that are there. -/
structure Assignments.Intact (c : Compiler) (a : Assignments) : Prop where
  target : ∀ t, a.target = some t → c.Knows t
  items : ∀ i ∈ a.items, c.Stores i.column

namespace BuildState

variable {c : Compiler} {s t u : BuildState} {id : ContextId} {d : Context} {p : Option ContextId}

def Has (s : BuildState) (id : ContextId) : Prop :=
  ∃ d, s.contexts[id]? = some d

/-- The context is there and can be read. -/
def Sequence (s : BuildState) (id : ContextId) : Prop :=
  ∃ d, s.contexts[id]? = some d ∧ d.isSequence

/-- The context has the rows of a table. -/
def Tabled (s : BuildState) (id : ContextId) : Prop :=
  ∃ d, s.contexts[id]? = some d ∧ d.rows?.isSome

/-- What the context refers to is there, and of the right kind. -/
structure Refers (c : Compiler) (s : BuildState) (d : Context) : Prop where
  statement : d.statement < s.statements.length
  ranges : ∀ q ∈ d.ranges, s.Sequence q
  table : ∀ r, d.rows? = some r → c.Knows r.table
  followed : ∀ r, d.rows? = some r → ∀ p ∈ r.followed, s.Tabled p.2

/-- The parents come to an end, and the way leads through such contexts only. -/
inductive Ends (s : BuildState) (through : ContextId → Prop) : Option ContextId → Prop
  | none : Ends s through none
  | up {k : ContextId} {e : Context} (hk : through k) (he : s.contexts[k]? = some e)
      (h : Ends s through e.parent) : Ends s through (some k)

structure Intact (c : Compiler) (s : BuildState) : Prop where
  refers : ∀ (id : ContextId) (d : Context), s.contexts[id]? = some d → s.Refers c d
  ends : ∀ id, s.Has id → s.Ends (fun _ => True) (some id)
  assigns : ∀ (m : StatementId) (st : Statement), s.statements[m]? = some st → st.update.Intact c

/-- Contexts stay what they are, and no statement is lost. -/
structure Widens (s t : BuildState) : Prop where
  contexts : s.KeepsContexts t
  statements : s.statements.length ≤ t.statements.length

def KeepsParents (s t : BuildState) : Prop :=
  ∀ (id : ContextId) (d : Context), s.contexts[id]? = some d → ∃ e, t.contexts[id]? = some e ∧ e.parent = d.parent

theorem Widens.refl (s : BuildState) : s.Widens s :=
  ⟨.refl s, Nat.le_refl _⟩

theorem Widens.trans (h : s.Widens t) (k : t.Widens u) : s.Widens u :=
  ⟨h.contexts.trans k.contexts, Nat.le_trans h.statements k.statements⟩

theorem Widens.contexts_length_le (h : s.Widens t) : s.contexts.length ≤ t.contexts.length := by
  by_contra hlt
  obtain ⟨e, he, -⟩ := h.contexts t.contexts.length _ (List.getElem?_eq_getElem (Nat.lt_of_not_ge hlt))
  exact Nat.lt_irrefl _ (List.getElem?_eq_some_iff.mp he).1

theorem KeepsParents.refl (s : BuildState) : s.KeepsParents s :=
  fun _ d hd => ⟨d, hd, rfl⟩

theorem KeepsParents.trans (h : s.KeepsParents t) (k : t.KeepsParents u) : s.KeepsParents u := by
  intro id d hd
  obtain ⟨e, he, hp⟩ := h id d hd
  obtain ⟨f, hf, hq⟩ := k id e he
  exact ⟨f, hf, hq.trans hp⟩

theorem Extends.keepsParents (h : s.Extends t) : s.KeepsParents t := by
  intro id d hd
  obtain ⟨more, ht⟩ := h.contexts id d hd
  exact ⟨_, ht, d.parent_followAll more⟩

/-- A context that was under another parent meanwhile is put back under its own. -/
theorem Extends.keepsParents_restored (hd : s.contexts[id]? = some d)
    (h : (s.adjust id (Context.withParent p)).Extends t) :
    s.KeepsParents (t.adjust id (Context.withParent d.parent)) := by
  intro k e he
  have hk : (s.adjust id (Context.withParent p)).contexts[k]? = some (if id = k then e.withParent p else e) := by
    rw [getElem?_adjust, he]
    split <;> rfl
  obtain ⟨more, ht⟩ := h.contexts k _ hk
  rw [getElem?_adjust, ht]
  by_cases hk : id = k
  · subst hk
    obtain rfl : d = e := Option.some.inj (hd.symm.trans he)
    rw [if_pos rfl, if_pos rfl]
    refine ⟨_, rfl, ?_⟩
    cases d <;> rfl
  · rw [if_neg hk, if_neg hk]
    exact ⟨_, rfl, e.parent_followAll more⟩

/-! What is known of a context is not lost. -/

theorem Has.mono (h : s.Has id) (hw : s.Widens t) : t.Has id := by
  obtain ⟨d, hd⟩ := h
  obtain ⟨e, he, -⟩ := hw.contexts id d hd
  exact ⟨e, he⟩

theorem Has.lt (h : s.Has id) : id < s.contexts.length := by
  obtain ⟨d, hd⟩ := h
  exact (List.getElem?_eq_some_iff.mp hd).1

theorem Sequence.has (h : s.Sequence id) : s.Has id :=
  h.imp fun _ h => h.1

theorem Sequence.mono (h : s.Sequence id) (hw : s.Widens t) : t.Sequence id := by
  obtain ⟨d, hd, hs⟩ := h
  obtain ⟨e, he, hcore⟩ := hw.contexts id d hd
  exact ⟨e, he, (Context.isSequence_eq_of_core hcore).trans hs⟩

theorem Tabled.sequence (h : s.Tabled id) : s.Sequence id := by
  obtain ⟨d, hd, hr⟩ := h
  exact ⟨d, hd, Context.isSequence_of_rows?_isSome hr⟩

theorem Tabled.mono (h : s.Tabled id) (hw : s.Widens t) : t.Tabled id := by
  obtain ⟨d, hd, hr⟩ := h
  obtain ⟨e, he, hcore⟩ := hw.contexts id d hd
  obtain ⟨r, hr⟩ := Option.isSome_iff_exists.mp hr
  obtain ⟨f, hf⟩ := Context.rows?_of_core hcore hr
  exact ⟨e, he, Option.isSome_iff_exists.mpr ⟨_, hf⟩⟩

theorem Refers.mono (h : s.Refers c d) (hw : s.Widens t) : t.Refers c d where
  statement := Nat.lt_of_lt_of_le h.statement hw.statements
  ranges q hq := (h.ranges q hq).mono hw
  table := h.table
  followed r hr p hp := (h.followed r hr p hp).mono hw

theorem Refers.of_ranges (hm : d.statement < s.statements.length) (hr : d.rows? = none)
    (hq : ∀ q ∈ d.ranges, s.Sequence q) : s.Refers c d :=
  ⟨hm, hq, fun r h => by simp [hr] at h, fun r h => by simp [hr] at h⟩

theorem Refers.of_rows {r : Rows} (hm : d.statement < s.statements.length) (hr : d.rows? = some r)
    (ht : c.Knows r.table) (hf : r.followed = []) : s.Refers c d := by
  refine ⟨hm, fun q hq => ?_, fun r' hr' => ?_, fun r' hr' p hp => ?_⟩
  · cases d <;> first | cases hq; done | cases hr
  all_goals obtain rfl := Option.some.inj (hr.symm.trans hr')
  · exact ht
  · rw [hf] at hp
    cases hp

namespace Ends

variable {through through' : ContextId → Prop}

theorem imp (h : s.Ends through p) (ht : ∀ id, through id → through' id) : s.Ends through' p := by
  induction h with
  | none => exact .none
  | up hid hd _ ih => exact .up (ht _ hid) hd ih

theorem known (h : s.Ends through p) : s.Ends (fun id => id < s.contexts.length) p := by
  induction h with
  | none => exact .none
  | up _ hd _ ih => exact .up (List.getElem?_eq_some_iff.mp hd).1 hd ih

/-- The same way is there as long as the contexts on it are under their parents. -/
theorem mono (h : s.Ends through p)
    (ht : ∀ id, through id → ∀ d, s.contexts[id]? = some d → ∃ e, t.contexts[id]? = some e ∧ e.parent = d.parent) :
    t.Ends through p := by
  induction h with
  | none => exact .none
  | @up id d hid hd _ ih =>
    obtain ⟨e, he, hp⟩ := ht id hid d hd
    exact .up hid he (hp ▸ ih)

theorem keep (h : s.Ends through p) (ht : s.KeepsParents t) : t.Ends through p :=
  h.mono fun id _ => ht id

/-- Only the parent of one context is another, and from that context the parents come to an end. -/
theorem turn (h : s.Ends through p) (hid : t.Ends (fun _ => True) (some id))
    (ht : ∀ k, k ≠ id → ∀ d, s.contexts[k]? = some d → ∃ e, t.contexts[k]? = some e ∧ e.parent = d.parent) :
    t.Ends (fun _ => True) p := by
  induction h with
  | none => exact .none
  | @up k d _ hd _ ih =>
    by_cases hk : k = id
    · exact hk ▸ hid
    · obtain ⟨e, he, hp⟩ := ht k hk d hd
      exact .up trivial he (hp ▸ ih)

end Ends

/-! The changes of an intact state. -/

theorem Intact.ends_of_has (h : s.Intact c) (hp : ∀ id, p = some id → s.Has id) : s.Ends (fun _ => True) p := by
  cases p with
  | none => exact .none
  | some id => exact h.ends id (hp id rfl)

theorem Intact.restate (h : s.Intact c) (hc : t.contexts = s.contexts)
    (hn : s.statements.length ≤ t.statements.length)
    (ha : ∀ (m : StatementId) (st : Statement), t.statements[m]? = some st → st.update.Intact c) : t.Intact c where
  refers id d hd := by
    rw [hc] at hd
    exact (h.refers id d hd).mono ⟨fun k e he => ⟨e, by rwa [hc], rfl⟩, hn⟩
  ends id hid := by
    refine (h.ends id (by rwa [Has, ← hc])).keep fun k e he => ⟨e, by rwa [hc], rfl⟩
  assigns := ha

theorem Intact.begin (h : s.Intact c) {st : Statement} (hst : st.update.Intact c) :
    BuildState.Intact c { s with statements := s.statements ++ [st] } := by
  refine h.restate rfl (by simp) fun m other hm => ?_
  obtain hm | ⟨-, rfl⟩ := of_getElem?_concat hm
  · exact h.assigns m other hm
  · exact hst

theorem Intact.alter (h : s.Intact c) (m : StatementId) {f : Statement → Statement}
    (hf : ∀ st, s.statements[m]? = some st → (f st).update.Intact c) : (s.alter m f).Intact c := by
  refine h.restate rfl (Nat.le_of_eq (length_alter s m f).symm) fun k st hk => ?_
  rw [getElem?_alter] at hk
  split at hk
  · next hmk =>
    subst hmk
    obtain ⟨st', hst, rfl⟩ := Option.map_eq_some_iff.mp hk
    exact hf st' hst
  · exact h.assigns k st hk

theorem widens_enter (s : BuildState) (d : Context) : s.Widens (s.enter d) :=
  ⟨s.keepsContexts_enter d, Nat.le_refl _⟩

theorem keepsParents_enter (s : BuildState) (d : Context) : s.KeepsParents (s.enter d) :=
  fun _ e he => ⟨e, (List.getElem?_append_left (List.getElem?_eq_some_iff.mp he).1).trans he, rfl⟩

theorem Intact.enter (h : s.Intact c) (hd : s.Refers c d) (hp : ∀ id, d.parent = some id → s.Has id) :
    (s.enter d).Intact c where
  refers id e he := by
    obtain he | ⟨-, rfl⟩ := of_getElem?_concat he
    · exact (h.refers id e he).mono (s.widens_enter d)
    · exact hd.mono (s.widens_enter e)
  ends id hid := by
    obtain ⟨e, he⟩ := hid
    obtain hold | ⟨rfl, rfl⟩ := of_getElem?_concat he
    · exact (h.ends id ⟨e, hold⟩).keep (s.keepsParents_enter d)
    · exact .up trivial he ((h.ends_of_has hp).keep (s.keepsParents_enter e))
  assigns := h.assigns

theorem widens_adjust (s : BuildState) (id : ContextId) {f : Context → Context} (hf : ∀ d, (f d).core = d.core) :
    s.Widens (s.adjust id f) :=
  ⟨s.keepsContexts_adjust id hf, Nat.le_refl _⟩

theorem Refers.withParent (h : s.Refers c d) (p : Option ContextId) : s.Refers c (d.withParent p) := by
  cases d <;> exact ⟨h.statement, h.ranges, h.table, h.followed⟩

theorem Refers.follow (h : s.Refers c d) {name : String} (hid : s.Tabled id) : s.Refers c (d.follow name id) := by
  have hfollowed : ∀ r, d.rows? = some r → ∀ p ∈ r.followed ++ [(name, id)], s.Tabled p.2 := fun r hr =>
    List.forall_mem_append.mpr ⟨h.followed r hr, List.forall_mem_singleton.mpr hid⟩
  cases d with
  | table p m r =>
    refine ⟨h.statement, h.ranges, ?_, ?_⟩
    · rintro _ ⟨⟩
      exact h.table r rfl
    · rintro _ ⟨⟩
      exact hfollowed r rfl
  | association o m n r =>
    refine ⟨h.statement, h.ranges, ?_, ?_⟩
    · rintro _ ⟨⟩
      exact h.table r rfl
    · rintro _ ⟨⟩
      exact hfollowed r rfl
  | projection | lambda | update => exact h

theorem Intact.adjust (h : s.Intact c) {f : Context → Context} (hf : ∀ d, (f d).core = d.core)
    (hr : ∀ d, s.Refers c d → s.Refers c (f d))
    (he : ∀ k, s.Has k → (s.adjust id f).Ends (fun _ => True) (some k)) : (s.adjust id f).Intact c where
  refers k e hk := by
    obtain ⟨d, hd, rfl⟩ := of_getElem?_adjust hk
    have hd := h.refers k d hd
    refine Refers.mono ?_ (s.widens_adjust id hf)
    split
    · exact hr d hd
    · exact hd
  ends k hk := by
    obtain ⟨e, hk⟩ := hk
    obtain ⟨d, hd, -⟩ := of_getElem?_adjust hk
    exact he k ⟨d, hd⟩
  assigns := h.assigns

theorem Intact.follow (h : s.Intact c) {owner : ContextId} {name : String} (hid : s.Tabled id) :
    (s.adjust owner (Context.follow name id)).Intact c := by
  refine h.adjust (Context.core_follow name id) (fun d hd => hd.follow hid) fun k hk => (h.ends k hk).keep ?_
  intro k d hd
  rw [getElem?_adjust, hd]
  split
  · exact ⟨_, rfl, d.parent_follow name id⟩
  · exact ⟨d, rfl, rfl⟩

theorem getElem?_adjust_of_ne {k : ContextId} (hk : k ≠ id) (f : Context → Context) :
    (s.adjust id f).contexts[k]? = s.contexts[k]? := by
  rw [getElem?_adjust, if_neg hk.symm]

theorem keeps_of_ne_adjust (s : BuildState) (id : ContextId) (f : Context → Context) {k : ContextId} (hk : k ≠ id)
    (d : Context) (hd : s.contexts[k]? = some d) : ∃ e, (s.adjust id f).contexts[k]? = some e ∧ e.parent = d.parent :=
  ⟨d, (getElem?_adjust_of_ne hk f).trans hd, rfl⟩

/-- A context may be placed under another one from where the parents come to an end without it. -/
theorem Intact.reparent (h : s.Intact c) (hd : s.contexts[id]? = some d) (hp : s.Ends (· ≠ id) p) :
    (s.adjust id (Context.withParent p)).Intact c := by
  refine h.adjust (Context.core_withParent p) (fun d hd => hd.withParent p) fun k hk => ?_
  suffices hend : (s.adjust id (Context.withParent p)).Ends (fun _ => True) (some id) from
    (h.ends k hk).turn hend fun k hk d hd => s.keeps_of_ne_adjust id _ hk d hd
  have hend := (hp.mono fun k hk d hd => s.keeps_of_ne_adjust id (Context.withParent p) hk d hd).imp fun _ _ => trivial
  have hid : (s.adjust id (Context.withParent p)).contexts[id]? = some (d.withParent p) := by
    rw [getElem?_adjust, if_pos rfl, hd, Option.map_some]
  cases d with
  | association owner m name r =>
    -- an association stays under its owner
    have hsame : s.adjust id (Context.withParent p) = s := adjust_eq_self hd rfl
    rw [hsame]
    exact h.ends id ⟨_, hd⟩
  | table | projection | lambda | update => exact .up trivial hid hend

/-- The context is put back under the parent that it had. -/
theorem Intact.restore (h : t.Intact c) (hs : s.Intact c) (hd : s.contexts[id]? = some d)
    (hk : s.KeepsParents (t.adjust id (Context.withParent p))) : (t.adjust id (Context.withParent p)).Intact c := by
  refine h.adjust (Context.core_withParent p) (fun d hd => hd.withParent p) fun k hk' => ?_
  exact (h.ends k hk').turn ((hs.ends id ⟨d, hd⟩).keep hk) fun k hk d hd => t.keeps_of_ne_adjust id _ hk d hd

/-! Parameters are found. -/

theorem Ends.has {through : ContextId → Prop} (h : s.Ends through (some id)) : s.Has id := by
  cases h with
  | up _ hd => exact ⟨_, hd⟩

theorem Intact.has_parent (h : s.Intact c) (hd : s.contexts[id]? = some d) {k : ContextId} (hk : d.parent = some k) :
    s.Has k := by
  cases h.ends id ⟨d, hd⟩ with
  | up _ he hend =>
    obtain rfl := Option.some.inj (hd.symm.trans he)
    rw [hk] at hend
    exact hend.has

/-- Where the parents come to an end, so does the search for a parameter. -/
theorem Ends.exists_bindingFrom {through : ContextId → Prop} (h : s.Ends through p) (x : String) :
    ∃ n r, ObjectQuery.bindingFrom s.contexts x n p = .ok r := by
  induction h with
  | none => exact ⟨0, Option.none, rfl⟩
  | @up k e _ he _ ih =>
    obtain ⟨n, r, hr⟩ := ih
    cases hb : e.binding? x with
    | some q => exact ⟨1, some q, by simp [ObjectQuery.bindingFrom, he, hb]⟩
    | none => exact ⟨n + 1, r, by simpa [ObjectQuery.bindingFrom, he, hb] using hr⟩

/-- There are enough contexts to come to the end of the parents. -/
theorem Intact.exists_binding (h : s.Intact c) {scope : ContextId} (hscope : s.Has scope) (x : String) :
    ∃ r, ObjectQuery.bindingFrom s.contexts x s.contexts.length (some scope) = .ok r := by
  obtain ⟨n, r, hr⟩ := (h.ends scope hscope).exists_bindingFrom x
  have hfound : ObjectQuery.bindingFrom s.contexts x s.contexts.length (some scope) ≠ .error .outOfFuel := by
    intro hout
    have hnever := bindingFrom_of_out_of_fuel (S := s.Has) (fun _ hi => hi.lt)
      (fun _ _ _ _ hd hk => h.has_parent hd hk) hscope hout n
    rw [hnever] at hr
    cases hr
  refine ⟨r, ?_⟩
  rw [← bindingFrom_add n hfound, Nat.add_comm, bindingFrom_add _ (by simp [hr]), hr]

/-- A parameter is bound to a sequence. -/
theorem Intact.sequence_of_bindingFrom (h : s.Intact c) {x : String} {n : Nat} {q : ContextId}
    (hr : ObjectQuery.bindingFrom s.contexts x n p = .ok (some q)) : s.Sequence q := by
  induction n generalizing p with
  | zero => cases p <;> cases hr
  | succ n ih =>
    cases p with
    | none => cases hr
    | some id =>
      rw [ObjectQuery.bindingFrom] at hr
      cases hd : s.contexts[id]? with
      | none =>
        rw [hd] at hr
        cases hr
      | some d =>
        simp only [hd] at hr
        cases hb : d.binding? x with
        | none =>
          simp only [hb] at hr
          exact ih hr
        | some k =>
          simp only [hb, Except.ok.injEq, Option.some.injEq] at hr
          subst hr
          refine (h.refers id d hd).ranges k ?_
          cases d with
          | lambda _ _ bindings =>
            obtain ⟨l₁, l₂, rfl, -⟩ := List.lookup_eq_some_iff.mp hb
            simp [Context.ranges]
          | _ => cases hb

theorem intact_empty (c : Compiler) : ({} : BuildState).Intact c :=
  ⟨fun _ _ hd => by simp at hd, fun _ hid => absurd hid.lt (Nat.not_lt_zero _), fun _ _ hst => by simp at hst⟩

end BuildState

end ObjectQuery
