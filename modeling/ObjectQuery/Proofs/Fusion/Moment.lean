import ObjectQuery.Proofs.Fusion.Mode
import ObjectQuery.Proofs.Mirror.Lexical
import ObjectQuery.Proofs.Twins.Lookup

/-!
The compilation that reads a projection beside the one that does without it. Contexts of the one stand for contexts of
the other, under whatever numbers; the projection itself stands for nothing. Statements are the same.
-/
namespace ObjectQuery

open Build

namespace Fusion

/-- The context of the projection and the sequence that it is over, which has a number in either compilation. -/
structure Site where
  projection : ContextId
  rows : ContextId
  rows' : ContextId

/-- The states of both compilations, and which contexts stand for which. There is a site as soon as the projection has
been compiled. -/
structure Moment (φ : Fusion) where
  same : ContextId → ContextId → Prop
  site : Option Site
  left : BuildState
  right : BuildState

namespace Moment

variable {φ : Fusion} {m n o : φ.Moment} {i j k l : ContextId} {p q : Option ContextId} {d e : Context} {mode : Mode}

/-- On the left the row of the projection is all that is bound, on the right it is bound to the same rows. -/
def Inside (m : φ.Moment) (a b : ContextId) : Prop :=
  ∃ σ number, m.site = some σ ∧ m.left.contexts[a]? = some (.lambda none number [(φ.row, σ.rows)]) ∧
    Finds m.right.contexts φ.row (some b) (some σ.rows') ∧ ∃ i, m.same i b

/-- Whatever parameter but that of the condition is found on the left, the same is found on the right. -/
inductive Sees (m : φ.Moment) : Option ContextId → Option ContextId → Prop
  | none : Sees m none none
  | same {a b} (h : m.same a b) : Sees m (some a) (some b)
  | inside {a b} (h : m.Inside a b) : Sees m (some a) (some b)

/-- The parameter of the condition is the same on both sides if it is kept. If it is replaced, it is the projection on
the left, and the row of the projection is what that is over on the right. -/
def Holds (m : φ.Moment) : Mode → Option ContextId → Option ContextId → Prop
  | .kept, p, q => m.Sees p q ∧ ∃ r, Finds m.left.contexts φ.parameter p r ∧
      ∀ i, r = some i → ∃ j, Finds m.right.contexts φ.parameter q (some j) ∧ m.same i j
  | .absent, p, q => m.Sees p q
  | .fused, p, q => m.Sees p q ∧ ∃ σ, m.site = some σ ∧ Finds m.left.contexts φ.parameter p (some σ.projection) ∧
      Finds m.right.contexts φ.row q (some σ.rows')

/-- Contexts that stand for each other. -/
inductive Pair (m : φ.Moment) : Context → Context → Prop
  | table {p q number r r'} (parent : m.Sees p q) (rows : r.Alike m.same r') :
    Pair m (.table p number r) (.table q number r')
  | association {o o' number name r r'} (owner : m.same o o') (rows : r.Alike m.same r') :
    Pair m (.association o number name r) (.association o' number name r')
  | projection {p q number o o' f} (mode : Mode) (sequence : m.same o o') (parent : m.Holds mode p q)
    (takes : mode.TakesLambda φ f) :
    Pair m (.projection p number o f f.body.bindings?.isNone)
      (.projection q number o' (mode.lambda φ f) (mode.lambda φ f).body.bindings?.isNone)
  | lambda {p q number bs cs} (parent : m.Sees p q) (bindings : List.Forall₂ (Entry m.same) bs cs) :
    Pair m (.lambda p number bs) (.lambda q number cs)
  | read {number σ} (site : m.site = some σ) :
    Pair m (.lambda none number [(φ.parameter, σ.projection)]) (.lambda none number [(φ.row, σ.rows')])

structure Alike (m : φ.Moment) : Prop where
  aliases : m.right.aliases = m.left.aliases
  statements : m.right.statements = m.left.statements
  unique : ∀ {i j k l}, m.same i j → m.same k l → (i = k ↔ j = l)
  contexts : ∀ {i j}, m.same i j →
    ∃ d e, m.left.contexts[i]? = some d ∧ m.right.contexts[j]? = some e ∧ m.Pair d e
  site : ∀ {σ}, m.site = some σ → m.same σ.rows σ.rows' ∧ (∀ j, ¬ m.same σ.projection j) ∧
    ∃ number, m.left.contexts[σ.projection]? = some
      (.projection none number σ.rows φ.projection φ.projection.body.bindings?.isNone)

/-- Contexts go on to stand for each other, and no scope changes. -/
structure Keeps (m n : φ.Moment) : Prop where
  same : ∀ {i j}, m.same i j → n.same i j
  site : ∀ {σ}, m.site = some σ → n.site = some σ
  left : Supports m.left.contexts n.left.contexts
  right : Supports m.right.contexts n.right.contexts

/-- No context is lost on either side. -/
structure Later (m n : φ.Moment) : Prop where
  same : ∀ {i j}, m.same i j → n.same i j
  site : n.site = m.site
  left : Sustains m.left.contexts n.left.contexts
  right : Sustains m.right.contexts n.right.contexts

theorem Later.refl (m : φ.Moment) : m.Later m :=
  ⟨id, rfl, .refl _, .refl _⟩

theorem Later.trans (h : m.Later n) (k : n.Later o) : m.Later o :=
  ⟨fun hij => k.same (h.same hij), k.site.trans h.site, h.left.trans k.left, h.right.trans k.right⟩

theorem Later.keeps (h : m.Later n) : m.Keeps n :=
  ⟨h.same, h.site.trans, h.left.supports, h.right.supports⟩

theorem Inside.keep (h : m.Inside i j) (hk : m.Keeps n) : n.Inside i j := by
  obtain ⟨σ, number, hσ, hi, hj, k, hsame⟩ := h
  exact ⟨σ, number, hk.site hσ, hk.left.scopes _ _ hi rfl, hj.supports hk.right, k, hk.same hsame⟩

theorem Sees.keep (h : m.Sees p q) (hk : m.Keeps n) : n.Sees p q := by
  cases h with
  | none => exact .none
  | same h => exact .same (hk.same h)
  | inside h => exact .inside (h.keep hk)

theorem Holds.keep (h : m.Holds mode p q) (hk : m.Keeps n) : n.Holds mode p q := by
  cases mode with
  | kept =>
    obtain ⟨hsees, r, hr, hsame⟩ := h
    refine ⟨hsees.keep hk, r, hr.supports hk.left, fun i hi => ?_⟩
    obtain ⟨j, hj, hij⟩ := hsame i hi
    exact ⟨j, hj.supports hk.right, hk.same hij⟩
  | absent => exact Sees.keep h hk
  | fused =>
    obtain ⟨hsees, σ, hσ, hl, hr⟩ := h
    exact ⟨hsees.keep hk, σ, hk.site hσ, hl.supports hk.left, hr.supports hk.right⟩

theorem Sees.exists_same (h : m.Sees p (some j)) : ∃ i, m.same i j := by
  rcases h with _ | hij | ⟨_, _, _, _, _, i, hij⟩
  · exact ⟨_, hij⟩
  · exact ⟨i, hij⟩

theorem Holds.sees (h : m.Holds mode p q) : m.Sees p q := by
  cases mode with
  | kept | fused => exact h.1
  | absent => exact h

theorem Holds.mono (h : m.Holds mode p q) (hn : m.Later n) : n.Holds mode p q :=
  h.keep hn.keeps

theorem entries_keep {xs ys : List (String × ContextId)} (h : List.Forall₂ (Entry m.same) xs ys) (hk : m.Keeps n) :
    List.Forall₂ (Entry n.same) xs ys :=
  h.imp fun _ _ => And.imp_right hk.same

theorem rows_keep {r r' : Rows} (h : r.Alike m.same r') (hk : m.Keeps n) : r.Alike n.same r' := by
  obtain ⟨h⟩ := h
  exact ⟨entries_keep h hk⟩

theorem Pair.keep (h : m.Pair d e) (hk : m.Keeps n) : n.Pair d e := by
  cases h with
  | table parent rows => exact .table (parent.keep hk) (rows_keep rows hk)
  | association owner rows => exact .association (hk.same owner) (rows_keep rows hk)
  | projection mode sequence parent takes => exact .projection mode (hk.same sequence) (parent.keep hk) takes
  | lambda parent bindings => exact .lambda (parent.keep hk) (entries_keep bindings hk)
  | read site => exact .read (hk.site site)

namespace Pair

variable (h : m.Pair d e)

include h

theorem statement : e.statement = d.statement := by
  cases h <;> rfl

theorem isUpdate : d.isUpdate = false ∧ e.isUpdate = false := by
  cases h <;> exact ⟨rfl, rfl⟩

theorem rows? : Option.Rel (Rows.Alike m.same) d.rows? e.rows? := by
  cases h with
  | table _ rows | association _ rows => exact .some rows
  | projection | lambda | read => exact .none

theorem follow (name : String) (hij : m.same i j) : m.Pair (d.follow name i) (e.follow name j) := by
  have happend : ∀ {f g}, List.Forall₂ (Entry m.same) f g →
      List.Forall₂ (Entry m.same) (f ++ [(name, i)]) (g ++ [(name, j)]) :=
    fun hs => List.rel_append hs (.cons ⟨rfl, hij⟩ .nil)
  cases h with
  | table parent rows =>
    obtain ⟨hs⟩ := rows
    exact .table parent ⟨happend hs⟩
  | association owner rows =>
    obtain ⟨hs⟩ := rows
    exact .association owner ⟨happend hs⟩
  | projection mode sequence parent takes => exact .projection mode sequence parent takes
  | lambda parent bindings => exact .lambda parent bindings
  | read site => exact .read site

end Pair

namespace Alike

variable (h : m.Alike)

include h

theorem lt_length (hij : m.same i j) : i < m.left.contexts.length ∧ j < m.right.contexts.length := by
  obtain ⟨d, e, hd, he, -⟩ := h.contexts hij
  exact ⟨(List.getElem?_eq_some_iff.mp hd).1, (List.getElem?_eq_some_iff.mp he).1⟩

theorem pair (hij : m.same i j) (hd : m.left.contexts[i]? = some d) (he : m.right.contexts[j]? = some e) :
    m.Pair d e := by
  obtain ⟨d', e', hd', he', hde⟩ := h.contexts hij
  rw [hd, Option.some.injEq] at hd'
  rw [he, Option.some.injEq] at he'
  rwa [hd', he']

end Alike

/-! A context is entered on both sides, or on the left alone. -/

/-- The contexts entered stand for each other. -/
def enter (m : φ.Moment) (d e : Context) : φ.Moment :=
  { m with
    same i j := m.same i j ∨ i = m.left.contexts.length ∧ j = m.right.contexts.length
    left := m.left.enter d
    right := m.right.enter e }

def enterLeft (m : φ.Moment) (d : Context) : φ.Moment :=
  { m with left := m.left.enter d }

theorem later_enter (m : φ.Moment) (d e : Context) : m.Later (m.enter d e) :=
  ⟨.inl, rfl, sustains_concat _ _, sustains_concat _ _⟩

theorem later_enterLeft (m : φ.Moment) (d : Context) : m.Later (m.enterLeft d) :=
  ⟨id, rfl, sustains_concat _ _, .refl _⟩

theorem Alike.enter (h : m.Alike) (hde : (m.enter d e).Pair d e) : (m.enter d e).Alike where
  aliases := h.aliases
  statements := h.statements
  unique := by
    rintro i j k l (hij | ⟨rfl, rfl⟩) (hkl | ⟨rfl, rfl⟩)
    · exact h.unique hij hkl
    · exact iff_of_false (Nat.ne_of_lt (h.lt_length hij).1) (Nat.ne_of_lt (h.lt_length hij).2)
    · exact iff_of_false (Nat.ne_of_lt (h.lt_length hkl).1).symm (Nat.ne_of_lt (h.lt_length hkl).2).symm
    · exact iff_of_true rfl rfl
  contexts := by
    rintro i j (hij | ⟨rfl, rfl⟩)
    · obtain ⟨d', e', hd, he, hde⟩ := h.contexts hij
      exact ⟨d', e', (List.getElem?_append_left (h.lt_length hij).1).trans hd,
        (List.getElem?_append_left (h.lt_length hij).2).trans he, hde.keep (m.later_enter d e).keeps⟩
    · exact ⟨d, e, m.left.getElem?_enter_self d, m.right.getElem?_enter_self e, hde⟩
  site := by
    intro σ hσ
    obtain ⟨hrows, hapart, number, hprojection⟩ := h.site hσ
    have hlt := (List.getElem?_eq_some_iff.mp hprojection).1
    refine ⟨.inl hrows, fun j hj => ?_, number, (List.getElem?_append_left hlt).trans hprojection⟩
    rcases hj with hj | ⟨hj, -⟩
    · exact hapart j hj
    · exact Nat.ne_of_lt hlt hj

theorem Alike.enterLeft (h : m.Alike) (d : Context) : (m.enterLeft d).Alike where
  aliases := h.aliases
  statements := h.statements
  unique := h.unique
  contexts hij := by
    obtain ⟨d', e', hd, he, hde⟩ := h.contexts hij
    exact ⟨d', e', (List.getElem?_append_left (h.lt_length hij).1).trans hd, he,
      hde.keep (m.later_enterLeft d).keeps⟩
  site hσ := by
    obtain ⟨hrows, hapart, number, hprojection⟩ := h.site hσ
    have hlt := (List.getElem?_eq_some_iff.mp hprojection).1
    exact ⟨hrows, hapart, number, (List.getElem?_append_left hlt).trans hprojection⟩

/-! Contexts that stand for each other are changed. -/

def adjust (m : φ.Moment) (i j : ContextId) (f g : Context → Context) : φ.Moment :=
  { m with left := m.left.adjust i f, right := m.right.adjust j g }

theorem Alike.adjust (h : m.Alike) (hij : m.same i j) {f g : Context → Context} (hk : m.Keeps (m.adjust i j f g))
    (hf : ∀ d e, m.left.contexts[i]? = some d → m.right.contexts[j]? = some e → m.Pair d e →
      (m.adjust i j f g).Pair (f d) (g e)) : (m.adjust i j f g).Alike where
  aliases := h.aliases
  statements := h.statements
  unique := h.unique
  contexts := by
    intro k l hkl
    obtain ⟨d, e, hd, he, hde⟩ := h.contexts hkl
    have hunique := h.unique hij hkl
    change ∃ d' e', (m.left.adjust i f).contexts[k]? = some d' ∧ (m.right.adjust j g).contexts[l]? = some e' ∧ _
    rw [BuildState.getElem?_adjust, BuildState.getElem?_adjust, hd, he]
    by_cases hik : i = k
    · rw [if_pos hik, if_pos (hunique.mp hik)]
      subst hik
      obtain rfl := hunique.mp rfl
      exact ⟨f d, g e, rfl, rfl, hf d e hd he hde⟩
    · rw [if_neg hik, if_neg (mt hunique.mpr hik)]
      exact ⟨d, e, rfl, rfl, hde.keep hk⟩
  site := by
    intro σ hσ
    obtain ⟨hrows, hapart, number, hprojection⟩ := h.site hσ
    refine ⟨hrows, hapart, number, ?_⟩
    change (m.left.adjust i f).contexts[σ.projection]? = _
    rw [BuildState.getElem?_adjust, if_neg, hprojection]
    rintro rfl
    exact hapart j hij

theorem later_follow (m : φ.Moment) (i j : ContextId) (name : String) (k l : ContextId) :
    m.Later (m.adjust i j (Context.follow name k) (Context.follow name l)) :=
  ⟨id, rfl, sustains_follow _ _ _ _, sustains_follow _ _ _ _⟩

theorem Alike.follow (h : m.Alike) (hij : m.same i j) (hkl : m.same k l) (name : String) :
    (m.adjust i j (Context.follow name k) (Context.follow name l)).Alike :=
  h.adjust hij (m.later_follow i j name k l).keeps fun _ _ _ _ hde =>
    (hde.follow name hkl).keep (m.later_follow i j name k l).keeps

/-! The same is done to the statements. -/

/-- Contexts are as they were on either side. -/
def restate (m : φ.Moment) (f : BuildState → BuildState) : φ.Moment :=
  { m with left := f m.left, right := f m.right }

theorem later_restate (m : φ.Moment) {f : BuildState → BuildState} (hf : ∀ s, (f s).contexts = s.contexts) :
    m.Later (m.restate f) := by
  refine ⟨id, rfl, ?_, ?_⟩
  · change Sustains m.left.contexts (f m.left).contexts
    rw [hf]
    exact .refl _
  · change Sustains m.right.contexts (f m.right).contexts
    rw [hf]
    exact .refl _

theorem Alike.restate (h : m.Alike) {f : BuildState → BuildState} (hf : ∀ s, (f s).contexts = s.contexts)
    (haliases : ∀ s t : BuildState, t.aliases = s.aliases → (f t).aliases = (f s).aliases)
    (hstatements : ∀ s t : BuildState, t.statements = s.statements → (f t).statements = (f s).statements) :
    (m.restate f).Alike where
  aliases := haliases _ _ h.aliases
  statements := hstatements _ _ h.statements
  unique := h.unique
  contexts hij := by
    obtain ⟨d, e, hd, he, hde⟩ := h.contexts hij
    exact ⟨d, e, (congrArg (·[_]?) (hf _)).trans hd, (congrArg (·[_]?) (hf _)).trans he,
      hde.keep (m.later_restate hf).keeps⟩
  site hσ := by
    obtain ⟨hrows, hapart, number, hprojection⟩ := h.site hσ
    exact ⟨hrows, hapart, number, (congrArg (·[_]?) (hf _)).trans hprojection⟩

end Moment
end Fusion
end ObjectQuery
