import ObjectQuery.Proofs.Mirror.Lexical

/-!
What a compilation keeps of the contexts that it has, also while one of them is under another parent. Scopes stay as
they are, and what is free in a projection goes on to be bound to the same.
-/
namespace ObjectQuery

/-- Rows stay rows. A projection may be under another parent, as long as its parameters are bound as before. -/
inductive Persists (l l' : List Context) : Context → Context → Prop
  | rows {d e} (hd : d.rows?.isSome) (he : e.rows?.isSome) : Persists l l' d e
  | projection {p p' m q f scalar} (sees : ∀ x ∈ f.free, ∀ r, Finds l x p r → Finds l' x p' r) :
    Persists l l' (.projection p m q f scalar) (.projection p' m q f scalar)
  | lambda (p m bs) : Persists l l' (.lambda p m bs) (.lambda p m bs)
  | update {p p'} (m q) : Persists l l' (.update p m q) (.update p' m q)

structure Preserves (l l' : List Context) : Prop where
  supports : Supports l l'
  persists : ∀ (id : ContextId) (d : Context), l[id]? = some d → ∃ e, l'[id]? = some e ∧ Persists l l' d e

/-- The context has rows. -/
def Tabular (l : List Context) (id : ContextId) : Prop :=
  ∃ d, l[id]? = some d ∧ d.rows?.isSome

/-- What was followed from rows leads to rows. -/
def Sound (l : List Context) : Prop :=
  ∀ (id : ContextId) (d : Context), l[id]? = some d → ∀ e ∈ d.rows?.elim [] Rows.followed, Associated l e.2

variable {l l' l'' : List Context} {d e : Context} {id : ContextId}

namespace Persists

theorem mono {k k' : List Context} (h : Persists l l' d e) (hl : Supports k l) (hl' : Supports l' k') :
    Persists k k' d e := by
  cases h with
  | rows hd he => exact .rows hd he
  | projection sees => exact .projection fun x hx r hr => (sees x hx r (hr.supports hl)).supports hl'
  | lambda => exact .lambda ..
  | update => exact .update ..

theorem trans {f : Context} (h : Persists l l' d e) (k : Persists l' l'' e f) : Persists l l'' d f := by
  cases h with
  | rows hd he =>
    cases k with
    | rows _ hf => exact .rows hd hf
    | projection | lambda | update => cases he
  | projection sees =>
    cases k with
    | rows he => cases he
    | projection sees' => exact .projection fun x hx r hr => sees' x hx r (sees x hx r hr)
  | lambda =>
    cases k with
    | rows he => cases he
    | lambda => exact .lambda ..
  | update =>
    cases k with
    | rows he => cases he
    | update => exact .update ..

theorem rows?_isSome (h : Persists l l' d e) (hd : d.rows?.isSome) : e.rows?.isSome := by
  cases h with
  | rows _ he => exact he
  | projection | lambda | update => cases hd

theorem isScope (h : Persists l l' d e) (hd : d.isScope = false) : e.isScope = false := by
  cases h with
  | rows _ he =>
    cases e with
    | table | association => rfl
    | projection | lambda | update => cases he
  | projection => rfl
  | lambda => cases hd
  | update => rfl

end Persists

namespace Preserves

theorem refl (l : List Context) : Preserves l l := by
  refine ⟨(Sustains.refl l).supports, fun id d hd => ⟨d, hd, ?_⟩⟩
  cases d with
  | table | association => exact .rows rfl rfl
  | projection => exact .projection fun _ _ _ h => h
  | lambda => exact .lambda ..
  | update => exact .update ..

theorem trans (h : Preserves l l') (k : Preserves l' l'') : Preserves l l'' := by
  refine ⟨h.supports.trans k.supports, fun id d hd => ?_⟩
  obtain ⟨e, he, hde⟩ := h.persists id d hd
  obtain ⟨f, hf, hef⟩ := k.persists id e he
  exact ⟨f, hf, hde.trans hef⟩

end Preserves

theorem Context.rows?_isSome_of_bare (h : e.bare = d.bare) : e.rows?.isSome = d.rows?.isSome := by
  have hbare : ∀ d : Context, d.bare.rows?.isSome = d.rows?.isSome := fun d => by cases d <;> rfl
  rw [← hbare e, h, hbare]

theorem Tabular.mono (h : Tabular l id) (hl : Preserves l l') : Tabular l' id := by
  obtain ⟨d, hd, hrows⟩ := h
  obtain ⟨e, he, hpersists⟩ := hl.persists id d hd
  exact ⟨e, he, hpersists.rows?_isSome hrows⟩

theorem Associated.tabular (h : Associated l id) : Tabular l id := by
  obtain ⟨owner, m, name, rows, hid⟩ := h
  exact ⟨_, hid, rfl⟩

theorem Sustains.preserves (h : Sustains l l') : Preserves l l' := by
  refine ⟨h.supports, fun id d hd => ?_⟩
  obtain ⟨e, he, hbare⟩ := h id d hd
  refine ⟨e, he, ?_⟩
  cases hr : d.rows? with
  | some => exact .rows (by rw [hr]; rfl) (by rw [Context.rows?_isSome_of_bare hbare, hr]; rfl)
  | none =>
    rw [Context.eq_of_bare hbare hr]
    cases d with
    | table | association => cases hr
    | projection => exact .projection fun _ _ _ hx => hx.supports h.supports
    | lambda => exact .lambda ..
    | update => exact .update ..

/-- A projection under a parent from where its parameters are bound as before. -/
theorem preserves_reparent (p : Option ContextId) (hd : l[id]? = some d) (hs : d.isScope = false)
    (hsees : ∀ q m k f scalar, d = .projection q m k f scalar → ∀ x ∈ f.free, ∀ r, Finds l x q r → Finds l x p r) :
    Preserves l (l.modify id (Context.withParent p)) := by
  have hscope : ∀ e, l[id]? = some e → e.isScope = false := fun e he => Option.some.inj (hd.symm.trans he) ▸ hs
  have hl := supports_withParent l p hscope
  refine ⟨hl, fun k e he => ?_⟩
  obtain ⟨e', he', hee'⟩ := (Preserves.refl l).persists k e he
  obtain rfl := Option.some.inj (he.symm.trans he')
  refine ⟨if id = k then e.withParent p else e, by rw [List.getElem?_modify, he]; split <;> rfl, ?_⟩
  split
  · next hk =>
    subst hk
    obtain rfl := Option.some.inj (hd.symm.trans he)
    cases d with
    | table | association => exact .rows rfl rfl
    | projection q m k f scalar =>
      exact .projection fun x hx r hr => (hsees q m k f scalar rfl x hx r hr).supports hl
    | lambda => cases hs
    | update => exact .update ..
  · exact hee'.mono (Sustains.refl l).supports hl

/-- The context is under its own parent again. -/
theorem preserves_restore {p : Option ContextId} (hd : l[id]? = some d) (hs : d.isScope = false)
    (h : Preserves (l.modify id (Context.withParent p)) l') :
    Preserves l (l'.modify id (Context.withParent d.parent)) := by
  have hscope : ∀ e, l[id]? = some e → e.isScope = false := fun e he => Option.some.inj (hd.symm.trans he) ▸ hs
  have hl := supports_withParent l p hscope
  have hl' : Supports l' (l'.modify id (Context.withParent d.parent)) := by
    refine supports_withParent l' _ fun e he => ?_
    obtain ⟨e', he', hde⟩ := h.persists id (d.withParent p) (by rw [List.getElem?_modify, hd]; simp)
    obtain rfl := Option.some.inj (he'.symm.trans he)
    exact hde.isScope (by cases d <;> first | rfl | cases hs)
  have hall := hl.trans (h.supports.trans hl')
  refine ⟨hall, fun k e he => ?_⟩
  obtain ⟨e', he', hee'⟩ := h.persists k (if id = k then e.withParent p else e) (by
    rw [List.getElem?_modify, he]
    split <;> rfl)
  refine ⟨if id = k then e'.withParent d.parent else e', by rw [List.getElem?_modify, he']; split <;> rfl, ?_⟩
  by_cases hk : id = k
  · subst hk
    obtain rfl := Option.some.inj (hd.symm.trans he)
    rw [if_pos rfl] at hee' ⊢
    cases d with
    | table | association =>
      cases e' with
      | table | association => exact .rows rfl rfl
      | projection | lambda | update => cases hee'; contradiction
    | projection =>
      cases hee' with
      | rows hd => cases hd
      | projection => exact .projection fun _ _ _ hx => hx.supports hall
    | lambda => cases hs
    | update =>
      cases hee' with
      | rows hd => cases hd
      | update => exact .update ..
  · rw [if_neg hk] at hee' ⊢
    exact hee'.mono hl hl'

/-! What is followed. -/

theorem Sound.enter (h : Sound l) (hd : d.rows?.elim [] Rows.followed = []) : Sound (l ++ [d]) := by
  intro id e he k hk
  rcases of_getElem?_concat he with he | ⟨-, rfl⟩
  · exact (sustains_concat l d).supports.associated _ (h id e he k hk)
  · rw [hd] at hk
    cases hk

/-- A change of one context. -/
theorem Sound.modify {f : Context → Context} (h : Sound l) (hl : Supports l (l.modify id f))
    (hf : ∀ d, ∀ k ∈ (f d).rows?.elim [] Rows.followed, k ∈ d.rows?.elim [] Rows.followed ∨ Associated l k.2) :
    Sound (l.modify id f) := by
  intro j e he k hk
  rw [List.getElem?_modify] at he
  obtain ⟨d, hd, rfl⟩ := Option.map_eq_some_iff.mp he
  split at hk
  · exact hl.associated _ ((hf d k hk).elim (h j d hd k) fun h => h)
  · exact hl.associated _ (h j d hd k hk)

theorem Sound.withParent (h : Sound l) {p : Option ContextId}
    (hl : Supports l (l.modify id (Context.withParent p))) : Sound (l.modify id (Context.withParent p)) :=
  h.modify hl fun d k hk => .inl (by cases d <;> exact hk)

theorem Sound.follow (h : Sound l) {owner : ContextId} {name : String} (hid : Associated l id) :
    Sound (l.modify owner (Context.follow name id)) := by
  refine h.modify (sustains_follow l owner name id).supports fun d k hk => ?_
  cases d with
  | table | association =>
    rcases List.mem_append.mp hk with hk | hk
    · exact .inl hk
    · exact .inr (by rwa [List.mem_singleton.mp hk])
  | projection | lambda | update => cases hk

end ObjectQuery
