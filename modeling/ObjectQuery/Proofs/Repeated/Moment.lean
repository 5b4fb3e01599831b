import ObjectQuery.Proofs.Twins.Lookup
import ObjectQuery.Proofs.Repeated.Landed
import ObjectQuery.Proofs.Repeated.Renumber

/-!
A compilation that is made again, beside the first time. Every context of the first time has one that takes its place,
under whatever number. What was outside when it began is its own image, and an association that is followed from there
may have been followed since.
-/
namespace ObjectQuery

open Build

/-- The states that the first and the second compilation start from. No statement and no parameter was lost between. -/
structure Replay where
  first : BuildState
  second : BuildState
  statements : first.statements.length ≤ second.statements.length
  parameters : first.parameters ≤ second.parameters

namespace Replay

/-- By how much the numbers of new statements differ. -/
def shift (R : Replay) : Nat :=
  R.second.statements.length - R.first.statements.length

/-- By how much the numbers of new parameters differ. -/
def offset (R : Replay) : Nat :=
  R.second.parameters - R.first.parameters

/-- The statement that takes the place of the one: an old one its own, a new one another new one. -/
def slot (R : Replay) (m : StatementId) : StatementId :=
  if m < R.first.statements.length then m else m + R.shift

noncomputable def renumbering (R : Replay) : Renumbering :=
  .shift R.shift R.offset

variable {R : Replay}

theorem slot_of_le {m : StatementId} (h : R.first.statements.length ≤ m) : R.slot m = m + R.shift :=
  if_neg (Nat.not_lt.mpr h)

/-- Both states, the image of every context of the left one, and which of those are outside. -/
structure Moment (R : Replay) where
  images : List ContextId
  outer : ContextId → Prop
  left : BuildState
  right : BuildState

namespace Moment

variable {m n o : R.Moment} {ℓ ℓ' : Prop} {i j k l : ContextId} {p q : Option ContextId} {d e : Context} {r r' : Rows}
  {name : String}

/-- The one context has the other for its image, and is outside if that is asked for. -/
def At (m : R.Moment) (ℓ : Prop) (i j : ContextId) : Prop :=
  m.images[i]? = some j ∧ (ℓ → m.outer i)

theorem At.weaken (h : m.At ℓ i j) (hℓ : ℓ' → ℓ) : m.At ℓ' i j :=
  ⟨h.1, h.2 ∘ hℓ⟩

/-- A context of a new query on both sides, and no association. -/
def Own (m : R.Moment) (i j : ContextId) : Prop :=
  m.At False i j ∧ ∃ d, m.left.contexts[i]? = some d ∧ R.first.statements.length ≤ d.statement ∧ d.link? = none

/-- The same table, and whatever was followed on the left was followed on the right. The alias may be another one. -/
structure RowsImage (m : R.Moment) (ℓ : Prop) (r r' : Rows) : Prop where
  entity : r'.entity = r.entity
  table : r'.table = r.table
  followed : ∀ name i, r.followed.lookup name = some i → ∃ j, r'.followed.lookup name = some j ∧ m.At ℓ i j

/-- Contexts of the same kind, that refer to images. -/
inductive Image (m : R.Moment) (ℓ : Prop) : Context → Context → Prop
  | table {p q s s' r r'} (parent : Option.Rel (m.At ℓ) p q) (rows : m.RowsImage ℓ r r') :
    Image m ℓ (.table p s r) (.table q s' r')
  | association {o o' s s' name r r'} (owner : m.At ℓ o o') (rows : m.RowsImage ℓ r r') :
    Image m ℓ (.association o s name r) (.association o' s' name r')
  | projection {p q s s' o o' f scalar} (parent : Option.Rel (m.At ℓ) p q) (sequence : m.At ℓ o o') :
    Image m ℓ (.projection p s o f scalar) (.projection q s' o' f scalar)
  | lambda {p q s s' bs cs} (parent : Option.Rel (m.At ℓ) p q) (bindings : List.Forall₂ (Entry (m.At ℓ)) bs cs) :
    Image m ℓ (.lambda p s bs) (.lambda q s' cs)
  | update {p q s s' o o'} (parent : Option.Rel (m.At ℓ) p q) (sequence : m.At ℓ o o') :
    Image m ℓ (.update p s o) (.update q s' o')

theorem RowsImage.imp (h : m.RowsImage ℓ r r') (hmn : ∀ i j, m.At ℓ i j → n.At ℓ' i j) : n.RowsImage ℓ' r r' := by
  refine ⟨h.entity, h.table, fun name i hi => ?_⟩
  obtain ⟨j, hj, hij⟩ := h.followed name i hi
  exact ⟨j, hj, hmn i j hij⟩

theorem Image.imp (h : m.Image ℓ d e) (hmn : ∀ i j, m.At ℓ i j → n.At ℓ' i j) : n.Image ℓ' d e := by
  cases h with
  | table parent rows => exact .table (rel_imp hmn parent) (rows.imp hmn)
  | association owner rows => exact .association (hmn _ _ owner) (rows.imp hmn)
  | projection parent sequence => exact .projection (rel_imp hmn parent) (hmn _ _ sequence)
  | lambda parent bindings => exact .lambda (rel_imp hmn parent) (bindings.imp fun _ _ => And.imp_right (hmn _ _))
  | update parent sequence => exact .update (rel_imp hmn parent) (hmn _ _ sequence)

theorem Image.weaken (h : m.Image ℓ d e) (hℓ : ℓ' → ℓ) : m.Image ℓ' d e :=
  h.imp fun _ _ hij => hij.weaken hℓ

namespace Image

variable (h : m.Image ℓ d e)

include h

theorem isUpdate : e.isUpdate = d.isUpdate := by
  cases h <;> rfl

theorem link?_eq_none_iff : e.link? = none ↔ d.link? = none := by
  cases h <;> simp [Context.link?]

theorem rows? : Option.Rel (m.RowsImage ℓ) d.rows? e.rows? := by
  cases h with
  | table _ rows | association _ rows => exact .some rows
  | projection | lambda | update => exact .none

theorem parent : Option.Rel (m.At ℓ) d.parent e.parent := by
  cases h with
  | association owner => exact .some owner
  | table parent | projection parent | lambda parent | update parent => exact parent

theorem binding? (x : String) : Option.Rel (m.At ℓ) (d.binding? x) (e.binding? x) := by
  cases h with
  | lambda _ bindings => exact Entry.lookup bindings x
  | table | association | projection | update => exact .none

theorem withParent (hpq : Option.Rel (m.At ℓ) p q) : m.Image ℓ (d.withParent p) (e.withParent q) := by
  cases h with
  | table _ rows => exact .table hpq rows
  | association owner rows => exact .association owner rows
  | projection _ sequence => exact .projection hpq sequence
  | lambda _ bindings => exact .lambda hpq bindings
  | update _ sequence => exact .update hpq sequence

theorem followRight (name : String) (k : ContextId) : m.Image ℓ d (e.follow name k) := by
  have hrows : ∀ {r r' : Rows}, m.RowsImage ℓ r r' →
      m.RowsImage ℓ r { r' with followed := r'.followed ++ [(name, k)] } := by
    refine fun hr => ⟨hr.entity, hr.table, fun x i hi => ?_⟩
    obtain ⟨j, hj, hij⟩ := hr.followed x i hi
    exact ⟨j, by simp [List.lookup_append, hj], hij⟩
  cases h with
  | table parent rows => exact .table parent (hrows rows)
  | association owner rows => exact .association owner (hrows rows)
  | projection parent sequence => exact .projection parent sequence
  | lambda parent bindings => exact .lambda parent bindings
  | update parent sequence => exact .update parent sequence

theorem followLeft (hkl : m.At ℓ k l) (hl : ∀ r, e.rows? = some r → r.followed.lookup name = some l) :
    m.Image ℓ (d.follow name k) e := by
  have hrows : ∀ {r r' : Rows}, m.RowsImage ℓ r r' → r'.followed.lookup name = some l →
      m.RowsImage ℓ { r with followed := r.followed ++ [(name, k)] } r' := by
    refine fun hr hl => ⟨hr.entity, hr.table, fun x i hi => ?_⟩
    rw [List.lookup_append, Option.or_eq_some_iff] at hi
    obtain hi | ⟨-, hi⟩ := hi
    · exact hr.followed x i hi
    · rw [List.lookup_cons, List.lookup_nil] at hi
      split at hi
      · next hx =>
        cases hi
        exact ⟨l, beq_iff_eq.mp hx ▸ hl, hkl⟩
      · cases hi
  cases h with
  | table parent rows => exact .table parent (hrows rows (hl _ rfl))
  | association owner rows => exact .association owner (hrows rows (hl _ rfl))
  | projection parent sequence => exact .projection parent sequence
  | lambda parent bindings => exact .lambda parent bindings
  | update parent sequence => exact .update parent sequence

end Image

/-- Every context has its image. Only associations may share one with others. -/
structure Paired (c : Compiler) (m : R.Moment) : Prop where
  length : m.images.length = m.left.contexts.length
  contexts : ∀ {i : ContextId} {d : Context}, m.left.contexts[i]? = some d → ∃ j e, m.images[i]? = some j ∧
    m.right.contexts[j]? = some e ∧ m.Image (m.outer i) d e ∧ e.statement = R.slot d.statement
  outside : ∀ {i : ContextId}, m.outer i → ∃ d, m.left.contexts[i]? = some d ∧ d.statement < R.first.statements.length
  distinct : ∀ {i k j : ContextId} {e : Context}, m.images[i]? = some j → m.images[k]? = some j →
    m.right.contexts[j]? = some e → e.link? = none → i = k
  landed : c.Landed m.right

/-- New statements and parameters are as many on both sides, and new statements have the same targets. -/
structure Counted (m : R.Moment) : Prop where
  begun : R.first.statements.length ≤ m.left.statements.length
  length : m.right.statements.length = m.left.statements.length + R.shift
  targets : ∀ {k st}, R.first.statements.length ≤ k → m.left.statements[k]? = some st →
    ∃ st', m.right.statements[k + R.shift]? = some st' ∧ st'.update.target = st.update.target
  known : R.first.parameters ≤ m.left.parameters
  parameters : m.right.parameters = m.left.parameters + R.offset

/-- New rows outside are those of associations that were followed from rows outside. -/
def Noted (m : R.Moment) : Prop :=
  ∀ i d r, m.outer i → m.left.contexts[i]? = some d → d.rows? = some r → R.first.contexts.length ≤ i →
    ∃ owner s name q, d = .association owner s name q ∧ owner < i ∧ m.outer owner ∧ m.left.Follows owner name i

structure InStep (c : Compiler) (m : R.Moment) : Prop where
  paired : m.Paired c
  counted : m.Counted
  noted : m.Noted

/-- Images are kept, and so are all contexts up to their parents and what was followed from them. -/
structure Later (m n : R.Moment) : Prop where
  images : m.images <+: n.images
  outer : ∀ {i}, m.outer i → n.outer i
  left : m.left.KeepsContexts n.left
  right : m.right.KeepsContexts n.right
  statements : m.left.statements.length ≤ n.left.statements.length
  parameters : m.left.parameters ≤ n.left.parameters

theorem Later.refl (m : R.Moment) : m.Later m :=
  ⟨List.prefix_rfl, id, .refl _, .refl _, Nat.le_refl _, Nat.le_refl _⟩

theorem Later.trans (h : m.Later n) (k : n.Later o) : m.Later o where
  images := h.images.trans k.images
  outer hi := k.outer (h.outer hi)
  left := h.left.trans k.left
  right := h.right.trans k.right
  statements := Nat.le_trans h.statements k.statements
  parameters := Nat.le_trans h.parameters k.parameters

theorem At.mono (h : m.At ℓ i j) (hmn : m.Later n) : n.At ℓ i j := by
  obtain ⟨more, himages⟩ := hmn.images
  refine ⟨?_, fun hℓ => hmn.outer (h.2 hℓ)⟩
  rw [← himages, List.getElem?_append_left (List.getElem?_eq_some_iff.mp h.1).1, h.1]

namespace Paired

variable {c : Compiler} (h : m.Paired c)

include h

theorem statement_lt (hi : m.outer i) (hd : m.left.contexts[i]? = some d) :
    d.statement < R.first.statements.length := by
  obtain ⟨d', hd', hlt⟩ := h.outside hi
  rwa [Option.some.inj (hd.symm.trans hd')]

theorem lt_length (hij : m.At ℓ i j) : i < m.left.contexts.length ∧ j < m.right.contexts.length := by
  have hi : i < m.left.contexts.length := h.length ▸ (List.getElem?_eq_some_iff.mp hij.1).1
  obtain ⟨j', e, hj, he, -⟩ := h.contexts (List.getElem?_eq_getElem hi)
  obtain rfl := Option.some.inj (hij.1.symm.trans hj)
  exact ⟨hi, (List.getElem?_eq_some_iff.mp he).1⟩

theorem image (hij : m.At ℓ i j) : ∃ d e, m.left.contexts[i]? = some d ∧ m.right.contexts[j]? = some e ∧
    m.Image (m.outer i) d e ∧ e.statement = R.slot d.statement := by
  have hd := List.getElem?_eq_getElem (h.lt_length hij).1
  obtain ⟨j', e, hj, he, himage, hs⟩ := h.contexts hd
  obtain rfl := Option.some.inj (hij.1.symm.trans hj)
  exact ⟨_, e, hd, he, himage, hs⟩

theorem image_of_getElem? (hij : m.At ℓ i j) (hd : m.left.contexts[i]? = some d) :
    ∃ e, m.right.contexts[j]? = some e ∧ m.Image ℓ d e ∧ e.statement = R.slot d.statement := by
  obtain ⟨d', e, hd', he, himage, hs⟩ := h.image hij
  obtain rfl := Option.some.inj (hd.symm.trans hd')
  exact ⟨e, he, himage.weaken hij.2, hs⟩

end Paired
end Moment
end Replay
end ObjectQuery
