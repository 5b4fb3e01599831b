import ObjectQuery.Compile.Operator
import ObjectQuery.Proofs.Laws.Follow
import ObjectQuery.Proofs.Mirror.Shape
import ObjectQuery.Proofs.Twins.Pairing

/-!
The contexts of two compilations in step: contexts of the same number are the same, up to the names of parameters. Which
names may stand for each other is open here, as long as they are found bound to the same sequence.
-/
namespace ObjectQuery

open Build

/-- All but the associations followed so far. -/
def Context.bare : Context → Context
  | .table p s rows => .table p s { rows with followed := [] }
  | .association owner s name rows => .association owner s name { rows with followed := [] }
  | d => d

theorem Context.isScope_of_bare {d e : Context} (h : e.bare = d.bare) : e.isScope = d.isScope := by
  cases d <;> cases e <;> first | rfl | cases h

theorem Context.eq_of_bare {d e : Context} (h : e.bare = d.bare) (hr : d.rows? = none) : e = d := by
  cases d with
  | table | association => cases hr
  | projection | lambda | update => cases e <;> first | exact h | cases h

/-- Every context is there, up to the associations followed from it. -/
def Sustains (l l' : List Context) : Prop :=
  ∀ (id : ContextId) (d : Context), l[id]? = some d → ∃ e, l'[id]? = some e ∧ e.bare = d.bare

/-- The context has the rows of an association. -/
def Associated (l : List Context) (id : ContextId) : Prop :=
  ∃ owner m name rows, l[id]? = some (.association owner m name rows)

/-- Every lambda scope is there, and every association has its rows. -/
structure Supports (l l' : List Context) : Prop where
  scopes : ∀ (id : ContextId) (d : Context), l[id]? = some d → d.isScope → l'[id]? = some d
  associated : ∀ id, Associated l id → Associated l' id

variable {l l' l'' : List Context} {d e : Context} {id : ContextId}

theorem Sustains.refl (l : List Context) : Sustains l l :=
  fun _ d hd => ⟨d, hd, rfl⟩

theorem Sustains.trans (h : Sustains l l') (k : Sustains l' l'') : Sustains l l'' := by
  intro id d hd
  obtain ⟨e, he, hed⟩ := h id d hd
  obtain ⟨f, hf, hfe⟩ := k id e he
  exact ⟨f, hf, hfe.trans hed⟩

theorem Sustains.of_rows?_eq_none (h : Sustains l l') (hd : l[id]? = some d) (hr : d.rows? = none) :
    l'[id]? = some d := by
  obtain ⟨e, he, hed⟩ := h id d hd
  rw [he, Context.eq_of_bare hed hr]

theorem Sustains.supports (h : Sustains l l') : Supports l l' where
  scopes id d hd hs := h.of_rows?_eq_none hd (by cases d <;> first | rfl | cases hs)
  associated id := by
    rintro ⟨owner, m, name, rows, hd⟩
    obtain ⟨e, he, hed⟩ := h id _ hd
    cases e with
    | association o m' name' rows' => exact ⟨o, m', name', rows', he⟩
    | table | projection | lambda | update => cases hed

theorem Supports.trans (h : Supports l l') (k : Supports l' l'') : Supports l l'' :=
  ⟨fun id d hd hs => k.scopes id d (h.scopes id d hd hs) hs, fun id hid => k.associated id (h.associated id hid)⟩

theorem Sustains.length_le (h : Sustains l l') : l.length ≤ l'.length := by
  by_contra hlt
  obtain ⟨e, he, -⟩ := h l'.length _ (List.getElem?_eq_getElem (Nat.lt_of_not_le hlt))
  exact Nat.lt_irrefl _ (List.getElem?_eq_some_iff.mp he).1

theorem sustains_concat (l : List Context) (d : Context) : Sustains l (l ++ [d]) := by
  intro id e he
  exact ⟨e, (List.getElem?_append_left (List.getElem?_eq_some_iff.mp he).1).trans he, rfl⟩

/-- Another parent of a context that is no scope. -/
theorem supports_withParent (l : List Context) {id : ContextId} (p : Option ContextId)
    (hs : ∀ d, l[id]? = some d → d.isScope = false) : Supports l (l.modify id (Context.withParent p)) := by
  have hget : ∀ k d, l[k]? = some d →
      (l.modify id (Context.withParent p))[k]? = some (if id = k then d.withParent p else d) := by
    intro k d hd
    rw [List.getElem?_modify, hd]
    split <;> rfl
  constructor
  · intro k d hd hscope
    rw [hget k d hd]
    split
    · next hk =>
      subst hk
      rw [hs d hd] at hscope
      cases hscope
    · rfl
  · rintro k ⟨owner, m, name, rows, hd⟩
    refine ⟨owner, m, name, rows, ?_⟩
    rw [hget k _ hd]
    split <;> rfl

theorem sustains_follow (l : List Context) (id : ContextId) (name : String) (k : ContextId) :
    Sustains l (l.modify id (Context.follow name k)) := by
  intro j d hd
  refine ⟨if id = j then d.follow name k else d, ?_, ?_⟩
  · rw [List.getElem?_modify, hd]
    split <;> rfl
  · split
    · cases d <;> rfl
    · rfl

/-- What the names of two queries have to do with each other where these are compiled: which parameters may stand for
each other, and when two of them, looked up from a context, are bound to the same sequence, one known before context
`n` is entered. -/
structure Lexicon where
  likeness : Likeness
  agree : (l r : List Context) → (n : ContextId) → (scope : Option ContextId) → String → String → Prop

namespace Lexicon

variable {L : Lexicon} {l r l' r' : List Context} {n : ContextId} {p : Option ContextId} {f g : Lambda}

/-- The names of either side that stand for each other are bound to the same. -/
def Knows (L : Lexicon) (l r : List Context) (n : ContextId) (p : Option ContextId) (ρ : Names) : Prop :=
  ∀ x y, ρ x y → L.agree l r n p x y

/-- The lambdas are alike as seen from the scope. -/
def Closure (L : Lexicon) (l r : List Context) (n : ContextId) (p : Option ContextId) (f g : Lambda) : Prop :=
  ∃ ρ, f.Alike L.likeness ρ g ∧ L.Knows l r n p ρ

/-- Contexts of the same number, on either side. -/
inductive Pair (L : Lexicon) (l r : List Context) (id : ContextId) : Context → Context → Prop
  | table {p m rows} (followed : ∀ e ∈ rows.followed, Associated l e.2) :
    Pair L l r id (.table p m rows) (.table p m rows)
  | association {o m name rows} (followed : ∀ e ∈ rows.followed, Associated l e.2) :
    Pair L l r id (.association o m name rows) (.association o m name rows)
  | projection {p m q f g scalar} (sequence : q < id) (closure : L.Closure l r id p f g) :
    Pair L l r id (.projection p m q f scalar) (.projection p m q g scalar)
  | lambda {p m bs cs} (bindings : List.Forall₂ (fun b c => L.likeness.binder b.1 c.1 ∧ b.2 = c.2) bs cs) :
    Pair L l r id (.lambda p m bs) (.lambda p m cs)
  | update {p m q} : Pair L l r id (.update p m q) (.update p m q)

structure Pairs (L : Lexicon) (l r : List Context) : Prop where
  length : r.length = l.length
  pair : ∀ {id d e}, l[id]? = some d → r[id]? = some e → L.Pair l r id d e

/-- Parameters are found, and go on to be found as scopes are entered. A projection that is safe from a lambda keeps
what it sees when it is seen from below a scope of that lambda. Computed members see nothing but their own row. -/
structure Lawful (L : Lexicon) (schema : Schema) : Prop where
  lookup : ∀ {l r n p x y}, L.Pairs l r → L.agree l r n p x y →
    bindingFrom l x l.length p = bindingFrom r y r.length p
  keep : ∀ {l r l' r' n p x y}, Supports l l' → Supports r r' → L.agree l r n p x y → L.agree l' r' n p x y
  widen : ∀ {l r n n' p x y}, n ≤ n' → L.agree l r n p x y → L.agree l r n' p x y
  here : ∀ {l r p m x y q}, r.length = l.length → q < l.length → L.likeness.binder x y →
    L.agree (l ++ [.lambda p m [(x, q)]]) (r ++ [.lambda p m [(y, q)]]) l.length (some l.length) x y
  outer : ∀ {l r n p m a b q x y}, r.length = l.length → a ≠ x → b ≠ y → L.agree l r n p x y →
    L.agree (l ++ [.lambda p m [(a, q)]]) (r ++ [.lambda p m [(b, q)]]) n (some l.length) x y
  shift : ∀ {l r n p m v w a b q f g}, r.length = l.length → v.row? = some a → w.row? = some b →
    L.likeness.shields f v → L.likeness.shields g w → L.Closure l r n p f g →
    L.Closure (l ++ [.lambda p m [(a, q)]]) (r ++ [.lambda p m [(b, q)]]) n (some l.length) f g
  computed : ∀ {name : String} {e : Entity} {member : String} {f : Lambda} (l r : List Context) (n : ContextId)
    (p : Option ContextId), schema.mapping.entity? name = some e → e.member? member = some (.computed f) →
    L.Closure l r n p f f

theorem Knows.keep {schema : Schema} {ρ : Names} (hL : L.Lawful schema) (hl : Supports l l') (hr : Supports r r')
    (h : L.Knows l r n p ρ) : L.Knows l' r' n p ρ :=
  fun x y hxy => hL.keep hl hr (h x y hxy)

theorem Closure.keep {schema : Schema} (hL : L.Lawful schema) (hl : Supports l l') (hr : Supports r r')
    (h : L.Closure l r n p f g) : L.Closure l' r' n p f g := by
  obtain ⟨ρ, hfg, hρ⟩ := h
  exact ⟨ρ, hfg, hρ.keep hL hl hr⟩

namespace Pair

variable {id : ContextId} {d e : Context}

theorem keep {schema : Schema} (hL : L.Lawful schema) (hl : Supports l l') (hr : Supports r r')
    (h : L.Pair l r id d e) : L.Pair l' r' id d e := by
  cases h with
  | table followed => exact .table fun e he => hl.associated _ (followed e he)
  | association followed => exact .association fun e he => hl.associated _ (followed e he)
  | projection sequence closure => exact .projection sequence (closure.keep hL hl hr)
  | lambda bindings => exact .lambda bindings
  | update => exact .update

variable (h : L.Pair l r id d e)

include h

theorem statement : e.statement = d.statement := by
  cases h <;> rfl

theorem parent : e.parent = d.parent := by
  cases h <;> rfl

theorem isUpdate : e.isUpdate = d.isUpdate := by
  cases h <;> rfl

theorem isScope : e.isScope = d.isScope := by
  cases h <;> rfl

theorem kindName : e.kindName = d.kindName := by
  cases h <;> rfl

theorem rows? : e.rows? = d.rows? := by
  cases h <;> rfl

theorem associated {name : String} {k : ContextId} (hk : (d.rows?.elim [] Rows.followed).lookup name = some k) :
    Associated l k := by
  have hmem : ∀ {rows : Rows}, rows.followed.lookup name = some k → (name, k) ∈ rows.followed := by
    intro rows hlookup
    obtain ⟨xs, ys, heq, -⟩ := List.lookup_eq_some_iff.mp hlookup
    simp [heq]
  cases h with
  | table followed | association followed => exact followed _ (hmem hk)
  | projection | lambda | update => cases hk

theorem follow {name : String} {k : ContextId} (hk : Associated l k) :
    L.Pair l r id (d.follow name k) (e.follow name k) := by
  have happend : ∀ {rows : Rows}, (∀ e ∈ rows.followed, Associated l e.2) →
      ∀ e ∈ rows.followed ++ [(name, k)], Associated l e.2 := fun h =>
    List.forall_mem_append.mpr ⟨h, List.forall_mem_singleton.mpr hk⟩
  cases h with
  | table followed => exact .table (happend followed)
  | association followed => exact .association (happend followed)
  | projection sequence closure => exact .projection sequence closure
  | lambda bindings => exact .lambda bindings
  | update => exact .update

/-- Under another parent the projections have to be alike as seen from there. -/
theorem withParent {parent : Option ContextId} (hclosure : ∀ {p m q f g scalar}, d = .projection p m q f scalar →
      e = .projection p m q g scalar → L.Closure l r id parent f g) :
    L.Pair l r id (d.withParent parent) (e.withParent parent) := by
  cases h with
  | table followed => exact .table followed
  | association followed => exact .association followed
  | projection sequence closure => exact .projection sequence (hclosure rfl rfl)
  | lambda bindings => exact .lambda bindings
  | update => exact .update

end Pair

namespace Pairs

variable {id : ContextId} {d e : Context}

theorem lt_iff (h : L.Pairs l r) : id < r.length ↔ id < l.length := by
  rw [h.length]

/-- A context is there on both sides, or on neither. -/
theorem cases (h : L.Pairs l r) (id : ContextId) :
    l[id]? = none ∧ r[id]? = none ∨ ∃ d e, l[id]? = some d ∧ r[id]? = some e ∧ L.Pair l r id d e := by
  by_cases hid : id < l.length
  · have hl := List.getElem?_eq_getElem hid
    have hr := List.getElem?_eq_getElem (h.lt_iff.mpr hid)
    exact .inr ⟨_, _, hl, hr, h.pair hl hr⟩
  · exact .inl ⟨List.getElem?_eq_none (Nat.le_of_not_lt hid),
      List.getElem?_eq_none (Nat.le_of_not_lt (mt h.lt_iff.mp hid))⟩

theorem keep {schema : Schema} (hL : L.Lawful schema) (hl : Supports l l') (hr : Supports r r') (h : L.Pairs l r)
    {k : ContextId} {d e : Context} (hd : l[k]? = some d) (he : r[k]? = some e) : L.Pair l' r' k d e :=
  (h.pair hd he).keep hL hl hr

theorem enter {schema : Schema} (hL : L.Lawful schema) (h : L.Pairs l r)
    (hde : L.Pair (l ++ [d]) (r ++ [e]) l.length d e) : L.Pairs (l ++ [d]) (r ++ [e]) := by
  refine ⟨by simp [h.length], fun {id d' e'} hd he => ?_⟩
  rcases of_getElem?_concat hd with hd | ⟨rfl, rfl⟩
  · have hlt := (List.getElem?_eq_some_iff.mp hd).1
    rw [List.getElem?_append_left (h.lt_iff.mpr hlt)] at he
    exact h.keep hL (sustains_concat l d).supports (sustains_concat r e).supports hd he
  · rw [← h.length, List.getElem?_concat_length, Option.some.injEq] at he
    exact he ▸ hde

/-- A change of one context that keeps the others as they were. -/
theorem modify {schema : Schema} (hL : L.Lawful schema) (h : L.Pairs l r) {F : Context → Context}
    (hl : Supports l (l.modify id F)) (hr : Supports r (r.modify id F))
    (hF : ∀ d e, l[id]? = some d → r[id]? = some e →
      L.Pair (l.modify id F) (r.modify id F) id (F d) (F e)) : L.Pairs (l.modify id F) (r.modify id F) := by
  refine ⟨by simp [h.length], fun {k d e} hd he => ?_⟩
  rw [List.getElem?_modify] at hd he
  by_cases hk : id = k
  · subst hk
    simp only [if_true, Option.map_eq_map, Option.map_eq_some_iff] at hd he
    obtain ⟨d, hd, rfl⟩ := hd
    obtain ⟨e, he, rfl⟩ := he
    exact hF d e hd he
  · simp only [hk, if_false, id_map'] at hd he
    exact h.keep hL hl hr hd he

end Pairs

end Lexicon
end ObjectQuery
