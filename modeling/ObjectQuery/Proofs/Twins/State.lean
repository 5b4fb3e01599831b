import ObjectQuery.Proofs.Twins.Pairing

/-!
States of two compilations whose contexts are paired. Whatever both of them do to paired contexts and to the same
statement leaves the states alike.
-/
namespace ObjectQuery

/-- The states agree on all statements, up to what the free ones assign, and on all contexts that are paired. -/
structure BuildState.Alike (free : StatementId → Prop) (w : Pairing) (s t : BuildState) : Prop where
  aliases : t.aliases = s.aliases
  parameters : t.parameters = s.parameters
  length : t.statements.length = s.statements.length
  known : ∀ {m}, free m → m < s.statements.length
  statements : ∀ {m : StatementId} {st : Statement}, s.statements[m]? = some st →
    ∃ st', t.statements[m]? = some st' ∧ st.Alike (free m) st'
  contexts : ∀ {i j}, w.same i j → ∃ d e, s.contexts[i]? = some d ∧ t.contexts[j]? = some e ∧ d.Alike w.same e
  twins : ∀ {i j} {d : Context}, w.same i j → s.contexts[i]? = some d → (w.twin i j ↔ d.isScope = false)
  own : ∀ {i j} {d : Context}, w.own i j → s.contexts[i]? = some d → ¬ free d.statement

namespace BuildState

variable {free : StatementId → Prop} {w : Pairing} {s t : BuildState} {i j : ContextId} {d e : Context}
  {m : StatementId}

theorem alike_empty : ({} : BuildState).Alike (fun _ => False) .void {} :=
  ⟨rfl, rfl, rfl, nofun, nofun, nofun, nofun, nofun⟩

namespace Alike

variable (h : s.Alike free w t)

include h

theorem lt_length (hij : w.same i j) : i < s.contexts.length ∧ j < t.contexts.length := by
  obtain ⟨d, e, hd, he, -⟩ := h.contexts hij
  exact ⟨(List.getElem?_eq_some_iff.mp hd).1, (List.getElem?_eq_some_iff.mp he).1⟩

theorem exists_alike (hij : w.same i j) (hd : s.contexts[i]? = some d) :
    ∃ e, t.contexts[j]? = some e ∧ d.Alike w.same e := by
  obtain ⟨d', e, hd', he, hde⟩ := h.contexts hij
  rw [hd, Option.some.injEq] at hd'
  exact ⟨e, he, hd' ▸ hde⟩

theorem not_isScope_of_twin (hij : w.twin i j) (hd : s.contexts[i]? = some d) : d.isScope = false :=
  (h.twins (w.same_of_twin hij) hd).mp hij

/-! One side may have contexts that the other has not. -/

theorem enterLeft (d : Context) : (s.enter d).Alike free w t where
  aliases := h.aliases
  parameters := h.parameters
  length := h.length
  known := h.known
  statements := h.statements
  contexts hij := by
    obtain ⟨d', e, hd, he, hde⟩ := h.contexts hij
    exact ⟨d', e, (List.getElem?_append_left (h.lt_length hij).1).trans hd, he, hde⟩
  twins hij hd := h.twins hij ((List.getElem?_append_left (h.lt_length hij).1).symm.trans hd)
  own hij hd := h.own hij ((List.getElem?_append_left (h.lt_length (w.same_of_own hij)).1).symm.trans hd)

theorem enterRight (e : Context) : s.Alike free w (t.enter e) where
  aliases := h.aliases
  parameters := h.parameters
  length := h.length
  known := h.known
  statements := h.statements
  contexts hij := by
    obtain ⟨d, e', hd, he, hde⟩ := h.contexts hij
    exact ⟨d, e', hd, (List.getElem?_append_left (h.lt_length hij).2).trans he, hde⟩
  twins := h.twins
  own := h.own

/-- Two contexts that look alike may be paired. A scope may have several counterparts. -/
theorem pair (hd : s.contexts[i]? = some d) (he : t.contexts[j]? = some e) (hde : d.Alike w.same e) (o : Prop)
    (ho : o → d.isScope = false ∧ ¬ free d.statement)
    (hnew : d.isScope = false → ∀ {k l}, w.same k l → k ≠ i ∧ l ≠ j) :
    ∃ v, w.Within v ∧ s.Alike free v t ∧ v.same i j ∧ (o → v.own i j) := by
  -- twins are no scopes, and what is no scope was not paired before
  have hold : ∀ {k l}, w.twin k l → (k = i ↔ l = j) := by
    intro k l hkl
    have hne : d.isScope = false → k ≠ i ∧ l ≠ j := fun hs => hnew hs (w.same_of_twin hkl)
    cases hs : d.isScope with
    | false => exact iff_of_false (hne hs).1 (hne hs).2
    | true =>
      obtain ⟨d', e', hd', he', hde'⟩ := h.contexts (w.same_of_twin hkl)
      have hd'' := h.not_isScope_of_twin hkl hd'
      refine iff_of_false ?_ ?_
      · rintro rfl
        rw [hd, Option.some.injEq] at hd'
        rw [← hd', hs] at hd''
        cases hd''
      · rintro rfl
        rw [he, Option.some.injEq] at he'
        rw [← hde'.isScope, ← he', hde.isScope, hs] at hd''
        cases hd''
  refine ⟨w.add i j (d.isScope = false) o (fun h => (ho h).1) hold fun hs k l hkl =>
    iff_of_false (hnew hs hkl).1.symm (hnew hs hkl).2.symm, Pairing.within_add, ?_, .inr ⟨rfl, rfl⟩,
    fun h => .inr ⟨h, rfl, rfl⟩⟩
  refine ⟨h.aliases, h.parameters, h.length, h.known, h.statements, ?_, ?_, ?_⟩
  · rintro k l (hkl | ⟨rfl, rfl⟩)
    · obtain ⟨d', e', hd', he', hde'⟩ := h.contexts hkl
      exact ⟨d', e', hd', he', hde'.mono fun _ _ => .inl⟩
    · exact ⟨d, e, hd, he, hde.mono fun _ _ => .inl⟩
  · rintro k l d' (hkl | ⟨rfl, rfl⟩) hd'
    · rw [← h.twins hkl hd']
      refine ⟨?_, .inl⟩
      rintro (hkl' | ⟨hs, rfl, rfl⟩)
      · exact hkl'
      · exact absurd rfl (hnew hs hkl).1
    · rw [hd, Option.some.injEq] at hd'
      subst hd'
      refine ⟨?_, fun hs => .inr ⟨hs, rfl, rfl⟩⟩
      rintro (hkl | ⟨hs, -⟩)
      · exact h.not_isScope_of_twin hkl hd
      · exact hs
  · rintro k l d' (hkl | ⟨h, rfl, rfl⟩) hd'
    · exact Alike.own ‹_› hkl hd'
    · rw [hd, Option.some.injEq] at hd'
      exact hd' ▸ (ho h).2

theorem enter (hde : d.Alike w.same e) (o : Prop) (ho : o → d.isScope = false ∧ ¬ free d.statement) :
    ∃ v, w.Within v ∧ (s.enter d).Alike free v (t.enter e) ∧ v.same s.contexts.length t.contexts.length ∧
      (o → v.own s.contexts.length t.contexts.length) := by
  refine ((h.enterLeft d).enterRight e).pair (s.getElem?_enter_self d) (t.getElem?_enter_self e) hde o ho ?_
  intro _ k l hkl
  exact ⟨Nat.ne_of_lt (h.lt_length hkl).1, Nat.ne_of_lt (h.lt_length hkl).2⟩

end Alike

theorem getElem?_adjust (s : BuildState) (i k : ContextId) (f : Context → Context) :
    (s.adjust i f).contexts[k]? = if i = k then s.contexts[k]?.map f else s.contexts[k]? := by
  rw [adjust, List.getElem?_modify]
  by_cases h : i = k <;> simp [h]

theorem adjust_eq_self {f : Context → Context} (hd : s.contexts[i]? = some d) (hf : f d = d) : s.adjust i f = s := by
  have hcontexts : s.contexts.modify i f = s.contexts := by
    change (s.adjust i f).contexts = s.contexts
    refine List.ext_getElem? fun k => ?_
    rw [getElem?_adjust]
    by_cases hk : i = k
    · rw [if_pos hk, ← hk, hd, Option.map_some, hf]
    · rw [if_neg hk]
  rw [adjust, hcontexts]

namespace Alike

variable (h : s.Alike free w t)

include h

theorem adjust (hij : w.twin i j) {f g : Context → Context}
    (hf : ∀ d e, d.Alike w.same e → (f d).Alike w.same (g e))
    (hkeep : ∀ d, (f d).isScope = d.isScope ∧ (f d).statement = d.statement) :
    (s.adjust i f).Alike free w (t.adjust j g) := by
  have hold : ∀ {k : ContextId} {d : Context}, (s.adjust i f).contexts[k]? = some d →
      ∃ d' : Context, s.contexts[k]? = some d' ∧ d.isScope = d'.isScope ∧ d.statement = d'.statement := by
    intro k d hd
    rw [getElem?_adjust] at hd
    split at hd
    · obtain ⟨d', hd', rfl⟩ := Option.map_eq_some_iff.mp hd
      exact ⟨d', hd', (hkeep d').1, (hkeep d').2⟩
    · exact ⟨d, hd, rfl, rfl⟩
  refine ⟨h.aliases, h.parameters, h.length, h.known, h.statements, ?_, ?_, ?_⟩
  · intro k l hkl
    obtain ⟨d, e, hd, he, hde⟩ := h.contexts hkl
    have hunique := w.unique hij hkl
    rw [getElem?_adjust, getElem?_adjust, hd, he]
    by_cases hk : i = k
    · rw [if_pos hk, if_pos (hunique.mp hk)]
      exact ⟨f d, g e, rfl, rfl, hf d e hde⟩
    · rw [if_neg hk, if_neg (mt hunique.mpr hk)]
      exact ⟨d, e, rfl, rfl, hde⟩
  · intro k l d hkl hd
    obtain ⟨d', hd', hs, -⟩ := hold hd
    rw [hs]
    exact h.twins hkl hd'
  · intro k l d hkl hd
    obtain ⟨d', hd', -, hm⟩ := hold hd
    rw [hm]
    exact h.own hkl hd'

/-- A change that does not depend on what is assigned. -/
theorem alter (m : StatementId) {f : Statement → Statement} (hf : Statement.Blind f) :
    (s.alter m f).Alike free w (t.alter m f) := by
  refine ⟨h.aliases, h.parameters, ?_, ?_, ?_, h.contexts, h.twins, h.own⟩
  · rw [length_alter, length_alter, h.length]
  · intro k hk
    rw [length_alter]
    exact h.known hk
  · intro k st hst
    rw [getElem?_alter] at hst ⊢
    by_cases hk : m = k
    · rw [if_pos hk] at hst ⊢
      obtain ⟨st, hold, rfl⟩ := Option.map_eq_some_iff.mp hst
      obtain ⟨st', hst', halike⟩ := h.statements hold
      exact ⟨f st', by rw [hst', Option.map_some], halike.blind hf⟩
    · rw [if_neg hk] at hst ⊢
      exact h.statements hst

/-- What a free statement assigns may be changed on one side only. -/
theorem alterLeft (hm : free m) {f : Statement → Statement} (hf : ∀ st, ∃ u, f st = { st with update := u }) :
    (s.alter m f).Alike free w t := by
  refine ⟨h.aliases, h.parameters, ?_, ?_, ?_, h.contexts, h.twins, h.own⟩
  · rw [length_alter, h.length]
  · intro k hk
    rw [length_alter]
    exact h.known hk
  · intro k st hst
    rw [getElem?_alter] at hst
    by_cases hk : m = k
    · rw [if_pos hk] at hst
      obtain ⟨st, hold, rfl⟩ := Option.map_eq_some_iff.mp hst
      obtain ⟨st', hst', halike⟩ := h.statements hold
      obtain ⟨u, rfl⟩ := halike.assigns
      obtain ⟨u', hu⟩ := hf { st' with update := u }
      exact ⟨st', hst', ⟨u', hu⟩, fun hfree => absurd (hk ▸ hm) hfree⟩
    · rw [if_neg hk] at hst
      exact h.statements hst

theorem alterRight (hm : free m) {f : Statement → Statement} (hf : ∀ st, ∃ u, f st = { st with update := u }) :
    s.Alike free w (t.alter m f) := by
  refine ⟨h.aliases, h.parameters, ?_, h.known, ?_, h.contexts, h.twins, h.own⟩
  · rw [length_alter, h.length]
  · intro k st hst
    obtain ⟨st', hst', halike⟩ := h.statements hst
    rw [getElem?_alter]
    by_cases hk : m = k
    · obtain ⟨u, rfl⟩ := halike.assigns
      obtain ⟨u', hu⟩ := hf st'
      refine ⟨f st', by rw [if_pos hk, hst', Option.map_some], ⟨u, by rw [hu]⟩, fun hfree => absurd (hk ▸ hm) hfree⟩
    · exact ⟨st', by rw [if_neg hk, hst'], halike⟩

/-- Other statements may be free, if those that were are the same by now. -/
theorem freed {free' : StatementId → Prop} (hknown : ∀ {m}, free' m → m < s.statements.length)
    (hsame : ∀ {m st st'}, free m → s.statements[m]? = some st → t.statements[m]? = some st' → st = st') :
    s.Alike free' w.disown t := by
  refine ⟨h.aliases, h.parameters, h.length, hknown, ?_, h.contexts, h.twins, nofun⟩
  intro m st hst
  obtain ⟨st', hst', halike⟩ := h.statements hst
  obtain rfl : st = st' := by
    by_cases hm : free m
    · exact hsame hm hst hst'
    · exact halike.eq hm
  exact ⟨st, hst', Statement.alike_refl _ st⟩

theorem statements_eq (hfree : ∀ m, ¬ free m) : t.statements = s.statements := by
  refine List.ext_getElem? fun m => ?_
  cases hm : s.statements[m]? with
  | none =>
    rw [List.getElem?_eq_none_iff] at hm ⊢
    exact h.length ▸ hm
  | some st =>
    obtain ⟨st', hst', halike⟩ := h.statements hm
    rw [hst', halike.eq (hfree m)]

theorem begin (st : Statement) :
    ({ s with statements := s.statements ++ [st] } : BuildState).Alike free w
      { t with statements := t.statements ++ [st] } := by
  refine ⟨h.aliases, h.parameters, ?_, ?_, ?_, h.contexts, h.twins, h.own⟩
  · rw [List.length_append, List.length_append, h.length]
  · intro m hm
    exact Nat.lt_of_lt_of_le (h.known hm) (List.length_append ▸ Nat.le_add_right ..)
  · intro m st' hm
    cases of_getElem?_concat hm with
    | inl hold =>
      obtain ⟨st'', hst, halike⟩ := h.statements hold
      have hlt : m < t.statements.length := (List.getElem?_eq_some_iff.mp hst).1
      exact ⟨st'', (List.getElem?_append_left hlt).trans hst, halike⟩
    | inr hnew =>
      obtain ⟨rfl, rfl⟩ := hnew
      refine ⟨st', ?_, Statement.alike_refl _ st'⟩
      rw [← h.length]
      exact List.getElem?_concat_length ..

theorem not_free_length : ¬ free s.statements.length :=
  fun hfree => Nat.lt_irrefl _ (h.known hfree)

theorem countAlias : s.countAlias.Alike free w t.countAlias :=
  ⟨congrArg (· + 1) h.aliases, h.parameters, h.length, h.known, h.statements, h.contexts, h.twins, h.own⟩

theorem countParameter : ({ s with parameters := s.parameters + 1 } : BuildState).Alike free w
    { t with parameters := t.parameters + 1 } :=
  ⟨h.aliases, congrArg (· + 1) h.parameters, h.length, h.known, h.statements, h.contexts, h.twins, h.own⟩

end Alike

end BuildState
end ObjectQuery
