import ObjectQuery.Proofs.Repeated.Moment

/-!
What both compilations do to their states, and how the moment changes with it. An association may be followed on the
left alone, if it was followed on the right before.
-/
namespace ObjectQuery

open Build

namespace Context

theorem link?_follow (name : String) (id : ContextId) (d : Context) : (d.follow name id).link? = d.link? := by
  cases d <;> rfl

theorem link?_withParent (p : Option ContextId) (d : Context) : (d.withParent p).link? = d.link? := by
  cases d <;> rfl

theorem link?_eq_none_of_core {d e : Context} (h : e.core = d.core) (hd : d.link? = none) : e.link? = none := by
  cases e with
  | association =>
    cases d with
    | association => cases hd
    | _ => cases h
  | _ => rfl

theorem statement_withParent (p : Option ContextId) (d : Context) : (d.withParent p).statement = d.statement := by
  cases d <;> rfl

end Context

namespace Replay.Moment

variable {R : Replay} {m n : R.Moment} {ℓ : Prop} {c : Compiler} {i j k l : ContextId} {p q : Option ContextId}
  {d e : Context} {name : String}

def enterRight (m : R.Moment) (e : Context) : R.Moment :=
  { m with right := m.right.enter e }

/-- The context entered has an image already. -/
def enterLeft (m : R.Moment) (d : Context) (j : ContextId) (ℓ : Prop) : R.Moment where
  images := m.images ++ [j]
  outer i := m.outer i ∨ ℓ ∧ i = m.left.contexts.length
  left := m.left.enter d
  right := m.right

def adjustLeft (m : R.Moment) (i : ContextId) (f : Context → Context) : R.Moment :=
  { m with left := m.left.adjust i f }

def adjustRight (m : R.Moment) (j : ContextId) (f : Context → Context) : R.Moment :=
  { m with right := m.right.adjust j f }

/-- Contexts stay as they are. -/
def restate (m : R.Moment) (s t : BuildState) : R.Moment :=
  { m with left := s, right := t }

theorem later_enterRight (m : R.Moment) (e : Context) : m.Later (m.enterRight e) :=
  ⟨List.prefix_rfl, id, .refl _, m.right.keepsContexts_enter e, Nat.le_refl _, Nat.le_refl _⟩

theorem later_enterLeft (m : R.Moment) (d : Context) (j : ContextId) (ℓ : Prop) : m.Later (m.enterLeft d j ℓ) :=
  ⟨List.prefix_append _ _, .inl, m.left.keepsContexts_enter d, .refl _, Nat.le_refl _, Nat.le_refl _⟩

theorem later_adjustLeft (m : R.Moment) (i : ContextId) {f : Context → Context} (hf : ∀ d, (f d).core = d.core) :
    m.Later (m.adjustLeft i f) :=
  ⟨List.prefix_rfl, id, m.left.keepsContexts_adjust i hf, .refl _, Nat.le_refl _, Nat.le_refl _⟩

theorem later_adjustRight (m : R.Moment) (j : ContextId) {f : Context → Context} (hf : ∀ d, (f d).core = d.core) :
    m.Later (m.adjustRight j f) :=
  ⟨List.prefix_rfl, id, .refl _, m.right.keepsContexts_adjust j hf, Nat.le_refl _, Nat.le_refl _⟩

theorem later_withParent (m : R.Moment) (i j : ContextId) (p q : Option ContextId) :
    m.Later ((m.adjustLeft i (Context.withParent p)).adjustRight j (Context.withParent q)) :=
  (m.later_adjustLeft i (Context.core_withParent p)).trans (later_adjustRight _ j (Context.core_withParent q))

theorem later_restate {s t : BuildState} (hs : s.contexts = m.left.contexts) (ht : t.contexts = m.right.contexts)
    (hm : m.left.statements.length ≤ s.statements.length) (hp : m.left.parameters ≤ s.parameters) :
    m.Later (m.restate s t) :=
  ⟨List.prefix_rfl, id, fun k d hd => ⟨d, by rwa [restate, hs], rfl⟩, fun k d hd => ⟨d, by rwa [restate, ht], rfl⟩, hm,
    hp⟩

theorem Own.mono (h : m.Own i j) (hmn : m.Later n) : n.Own i j := by
  obtain ⟨hij, d, hd, hnew, hlink⟩ := h
  obtain ⟨e, he, hcore⟩ := hmn.left i d hd
  exact ⟨hij.mono hmn, e, he, Context.statement_eq_of_core hcore ▸ hnew, Context.link?_eq_none_of_core hcore hlink⟩

/-! Contexts stay paired. -/

namespace Paired

variable (h : m.Paired c)

include h

theorem outer_lt (hi : m.outer i) : i < m.left.contexts.length := by
  obtain ⟨d, hd, -⟩ := h.outside hi
  exact (List.getElem?_eq_some_iff.mp hd).1

theorem image_lt (hij : m.images[i]? = some j) : j < m.right.contexts.length :=
  (h.lt_length (ℓ := False) ⟨hij, False.elim⟩).2

theorem enterRight (he : ∀ r, e.rows? = some r → r.followed = []) : (m.enterRight e).Paired c where
  length := h.length
  contexts hd := by
    obtain ⟨j, e', hj, he', himage, hs⟩ := h.contexts hd
    exact ⟨j, e', hj, (List.getElem?_append_left (h.image_lt hj)).trans he', himage.imp fun _ _ => id, hs⟩
  outside := h.outside
  distinct hi hk he' := h.distinct hi hk ((List.getElem?_append_left (h.image_lt hi)).symm.trans he')
  landed := h.landed.enter he

theorem enterLeft (he : m.right.contexts[j]? = some e) (hde : m.Image ℓ d e) (hs : e.statement = R.slot d.statement)
    (hℓ : ℓ → d.statement < R.first.statements.length) (hnew : e.link? = none → j ∉ m.images) :
    (m.enterLeft d j ℓ).Paired c := by
  have hlater := m.later_enterLeft d j ℓ
  refine ⟨?_, fun {k d'} hd => ?_, ?_, fun {a b j' e'} ha hb he' hlink => ?_, h.landed⟩
  · simp [Moment.enterLeft, BuildState.enter, h.length]
  · obtain hold | ⟨rfl, rfl⟩ := of_getElem?_concat hd
    · obtain ⟨j', e', hj, he', himage, hs'⟩ := h.contexts hold
      have houter : (m.enterLeft d j ℓ).outer k → m.outer k := fun hk =>
        hk.resolve_right fun hk => Nat.ne_of_lt (List.getElem?_eq_some_iff.mp hold).1 hk.2
      have hj' : (m.enterLeft d j ℓ).At False k j' := At.mono ⟨hj, False.elim⟩ hlater
      exact ⟨j', e', hj'.1, he', (himage.weaken houter).imp fun _ _ hij => hij.mono hlater, hs'⟩
    · have houter : (m.enterLeft d' j ℓ).outer m.left.contexts.length → ℓ := fun hk =>
        hk.elim (fun hk => absurd (h.outer_lt hk) (Nat.lt_irrefl _)) And.left
      refine ⟨j, e, ?_, he, (hde.weaken houter).imp fun _ _ hij => hij.mono hlater, hs⟩
      rw [← h.length]
      exact List.getElem?_concat_length
  · rintro k (hk | ⟨hk, rfl⟩)
    · obtain ⟨d', hd', hlt⟩ := h.outside hk
      exact ⟨d', (List.getElem?_append_left (h.outer_lt hk)).trans hd', hlt⟩
    · exact ⟨d, m.left.getElem?_enter_self d, hℓ hk⟩
  · have hapart : ∀ k : ContextId, m.images[k]? = some j → j' ≠ j := by
      rintro k hk rfl
      obtain rfl := Option.some.inj (he.symm.trans he')
      exact hnew hlink (List.mem_of_getElem? hk)
    obtain ha' | ⟨rfl, rfl⟩ := of_getElem?_concat ha
    · obtain hb' | ⟨-, hj⟩ := of_getElem?_concat hb
      · exact h.distinct ha' hb' he' hlink
      · exact (hapart a (hj ▸ ha') hj).elim
    · obtain hb' | ⟨rfl, -⟩ := of_getElem?_concat hb
      · exact (hapart b hb' rfl).elim
      · rfl

theorem followRight (hl : c.Lands m.right j name l) : (m.adjustRight j (Context.follow name l)).Paired c where
  length := h.length
  contexts hd := by
    obtain ⟨k, e, hk, he, himage, hs⟩ := h.contexts hd
    have hright := BuildState.getElem?_adjust m.right j k (Context.follow name l)
    rw [he] at hright
    by_cases hjk : j = k
    · rw [if_pos hjk] at hright
      refine ⟨k, _, hk, hright, (himage.followRight name l).imp fun _ _ => id, ?_⟩
      rw [Context.follow_eq_followAll, Context.statement_followAll, hs]
    · rw [if_neg hjk] at hright
      exact ⟨k, e, hk, hright, himage.imp fun _ _ => id, hs⟩
  outside := h.outside
  distinct hi hk he hlink := by
    obtain ⟨e', he', rfl⟩ := BuildState.of_getElem?_adjust he
    refine h.distinct hi hk he' ?_
    split at hlink
    · rwa [Context.link?_follow] at hlink
    · exact hlink
  landed := h.landed.follow hl

theorem followLeft (hij : m.images[i]? = some j) (hkl : m.At (m.outer i) k l) (hl : m.right.Follows j name l) :
    (m.adjustLeft i (Context.follow name k)).Paired c where
  length := by rw [adjustLeft, BuildState.adjust, List.length_modify, h.length]
  contexts hd := by
    obtain ⟨d, hd', rfl⟩ := BuildState.of_getElem?_adjust hd
    obtain ⟨j', e, hj, he, himage, hs⟩ := h.contexts hd'
    refine ⟨j', e, hj, he, ?_⟩
    split
    · next hi =>
      subst hi
      obtain rfl := Option.some.inj (hij.symm.trans hj)
      refine ⟨(himage.followLeft hkl fun r hr => ?_).imp fun _ _ => id, ?_⟩
      · obtain ⟨e', r', he', hr', hlookup⟩ := hl
        obtain rfl := Option.some.inj (he.symm.trans he')
        rwa [Option.some.inj (hr.symm.trans hr')]
      · rw [Context.follow_eq_followAll, Context.statement_followAll, hs]
    · exact ⟨himage.imp fun _ _ => id, hs⟩
  outside := fun {x} hx => by
    obtain ⟨d, hd, hlt⟩ := h.outside hx
    obtain ⟨e, he, hcore⟩ := m.left.keepsContexts_adjust i (Context.core_follow name k) x d hd
    exact ⟨e, he, (Context.statement_eq_of_core hcore).symm ▸ hlt⟩
  distinct := h.distinct
  landed := h.landed

/-- Contexts of queries are placed under other parents on both sides. -/
theorem withParent (hij : m.images[i]? = some j) (hd : m.left.contexts[i]? = some d) (hlink : d.link? = none)
    (hpq : Option.Rel (m.At (m.outer i)) p q) :
    ((m.adjustLeft i (Context.withParent p)).adjustRight j (Context.withParent q)).Paired c where
  length := by rw [adjustRight, adjustLeft, BuildState.adjust, List.length_modify, h.length]
  contexts := fun {k d'} hd' => by
    obtain ⟨d₀, hd₀, rfl⟩ := BuildState.of_getElem?_adjust hd'
    obtain ⟨j', e, hj, he, himage, hs⟩ := h.contexts hd₀
    have hright := BuildState.getElem?_adjust m.right j j' (Context.withParent q)
    rw [he] at hright
    by_cases hi : i = k
    · subst hi
      obtain rfl := Option.some.inj (hij.symm.trans hj)
      rw [if_pos rfl] at hright ⊢
      refine ⟨j, _, hj, hright, (himage.withParent hpq).imp fun _ _ => id, ?_⟩
      rw [Context.statement_withParent, Context.statement_withParent, hs]
    · -- only one context has that image
      have hjj : j ≠ j' := by
        rintro rfl
        obtain ⟨j', e', hj', he', himage', -⟩ := h.contexts hd
        obtain rfl := Option.some.inj (hij.symm.trans hj')
        exact hi (h.distinct hij hj he' (himage'.link?_eq_none_iff.mpr hlink))
      rw [if_neg hjj] at hright
      rw [if_neg hi]
      exact ⟨j', e, hj, hright, himage.imp fun _ _ => id, hs⟩
  outside := fun {x} hx => by
    obtain ⟨d', hd', hlt⟩ := h.outside hx
    obtain ⟨e, he, hcore⟩ := m.left.keepsContexts_adjust i (Context.core_withParent p) x d' hd'
    exact ⟨e, he, (Context.statement_eq_of_core hcore).symm ▸ hlt⟩
  distinct ha hb he hlink' := by
    obtain ⟨e', he', rfl⟩ := BuildState.of_getElem?_adjust he
    refine h.distinct ha hb he' ?_
    split at hlink'
    · rwa [Context.link?_withParent] at hlink'
    · exact hlink'
  landed := h.landed.withParent j q

theorem restate {s t : BuildState} (hs : s.contexts = m.left.contexts) (ht : t.contexts = m.right.contexts) :
    (m.restate s t).Paired c where
  length := h.length.trans (congrArg _ hs.symm)
  contexts hd := by
    obtain ⟨j, e, hj, he, himage, hm⟩ := h.contexts ((congrArg (·[_]?) hs.symm).trans hd)
    exact ⟨j, e, hj, (congrArg (·[_]?) ht).trans he, himage.imp fun _ _ => id, hm⟩
  outside hi := by
    obtain ⟨d, hd, hlt⟩ := h.outside hi
    exact ⟨d, (congrArg (·[_]?) hs).trans hd, hlt⟩
  distinct hi hk he := h.distinct hi hk ((congrArg (·[_]?) ht.symm).trans he)
  landed := h.landed.of_contexts ht

end Paired

/-! New statements and parameters stay as many on both sides. -/

namespace Counted

variable (h : m.Counted)

include h

theorem congr (hs : n.left.statements = m.left.statements) (ht : n.right.statements = m.right.statements)
    (hp : n.left.parameters = m.left.parameters) (hq : n.right.parameters = m.right.parameters) : n.Counted := by
  refine ⟨?_, ?_, ?_, ?_, ?_⟩
  · rw [hs]
    exact h.begun
  · rw [hs, ht]
    exact h.length
  · rw [hs, ht]
    exact h.targets
  · rw [hp]
    exact h.known
  · rw [hp, hq]
    exact h.parameters

theorem begin {st st' : Statement} (hst : st'.update.target = st.update.target) :
    (m.restate { m.left with statements := m.left.statements ++ [st] }
      { m.right with statements := m.right.statements ++ [st'] }).Counted where
  begun := by
    simp only [Moment.restate, List.length_append]
    exact Nat.le_add_right_of_le h.begun
  length := by
    simp only [Moment.restate, List.length_append, List.length_singleton, h.length]
    exact Nat.add_right_comm ..
  targets := fun {k x} hk hx => by
    obtain hold | ⟨rfl, rfl⟩ := of_getElem?_concat hx
    · obtain ⟨x', hx', htarget⟩ := h.targets hk hold
      exact ⟨x', (List.getElem?_append_left (List.getElem?_eq_some_iff.mp hx').1).trans hx', htarget⟩
    · refine ⟨st', ?_, hst⟩
      rw [← h.length]
      exact List.getElem?_concat_length
  known := h.known
  parameters := h.parameters

theorem slot_lt {k : StatementId} (hk : k < m.left.statements.length) : R.slot k < m.right.statements.length := by
  rw [h.length]
  unfold slot
  split
  · exact Nat.lt_add_right _ hk
  · exact Nat.add_lt_add_right hk _

/-- Both sides change the statement so that its targets stay the same. -/
theorem alter (k : StatementId) {f g : Statement → Statement}
    (hfg : ∀ st st', st'.update.target = st.update.target → (g st').update.target = (f st).update.target) :
    (m.restate (m.left.alter k f) (m.right.alter (R.slot k) g)).Counted where
  begun := by
    rw [Moment.restate, BuildState.length_alter]
    exact h.begun
  length := by
    simp only [Moment.restate, BuildState.length_alter]
    exact h.length
  targets := fun {a x} ha hx => by
    simp only [Moment.restate, BuildState.getElem?_alter] at hx ⊢
    have hslot : R.slot k = a + R.shift ↔ k = a := by
      unfold slot
      split
      · next hk =>
        exact iff_of_false (Nat.ne_of_lt (Nat.lt_of_lt_of_le hk (Nat.le_add_right_of_le ha)))
          (Nat.ne_of_lt (Nat.lt_of_lt_of_le hk ha))
      · exact Nat.add_right_cancel_iff
    by_cases hk : k = a
    · rw [if_pos hk, Option.map_eq_some_iff] at hx
      obtain ⟨st, hst, rfl⟩ := hx
      obtain ⟨st', hst', htarget⟩ := h.targets ha hst
      exact ⟨g st', by rw [if_pos (hslot.mpr hk), hst', Option.map_some], hfg st st' htarget⟩
    · rw [if_neg hk] at hx
      obtain ⟨st', hst', htarget⟩ := h.targets ha hx
      exact ⟨st', by rw [if_neg (mt hslot.mp hk), hst'], htarget⟩
  known := h.known
  parameters := h.parameters

/-- One side alone changes a statement, but not its target. -/
theorem alterLeft (k : StatementId) {f : Statement → Statement} (hf : ∀ st, (f st).update.target = st.update.target) :
    (m.restate (m.left.alter k f) m.right).Counted where
  begun := by
    rw [Moment.restate, BuildState.length_alter]
    exact h.begun
  length := by
    simp only [Moment.restate, BuildState.length_alter]
    exact h.length
  targets := fun {a x} ha hx => by
    simp only [Moment.restate, BuildState.getElem?_alter] at hx ⊢
    split at hx
    · obtain ⟨st, hst, rfl⟩ := Option.map_eq_some_iff.mp hx
      rw [hf]
      exact h.targets ha hst
    · exact h.targets ha hx
  known := h.known
  parameters := h.parameters

theorem parameter : (m.restate { m.left with parameters := m.left.parameters + 1 }
    { m.right with parameters := m.right.parameters + 1 }).Counted where
  begun := h.begun
  length := h.length
  targets := h.targets
  known := Nat.le_succ_of_le h.known
  parameters := by
    simp only [Moment.restate, h.parameters]
    exact Nat.add_right_comm ..

end Counted

/-! Rows that are new outside stay noted. -/

namespace Noted

variable (h : m.Noted)

include h

theorem congr (ho : n.outer = m.outer) (hl : n.left.contexts = m.left.contexts) : n.Noted := by
  intro i d r hi hd hr hle
  rw [ho] at hi
  rw [hl] at hd
  obtain ⟨owner, s, name, q, rfl, hlt, houter, e, x, he, hx⟩ := h i d r hi hd hr hle
  exact ⟨owner, s, name, q, rfl, hlt, ho ▸ houter, e, x, (congrArg (·[_]?) hl).trans he, hx⟩

theorem enterLeft (hp : m.Paired c) (hd : ℓ → d.rows? = none) : (m.enterLeft d j ℓ).Noted := by
  rintro i d' r (hi | ⟨hℓ, rfl⟩) hd' hr hle
  · have hold : m.left.contexts[i]? = some d' := (List.getElem?_append_left (hp.outer_lt hi)).symm.trans hd'
    obtain ⟨owner, s, name, q, rfl, hlt, houter, hfollows⟩ := h i d' r hi hold hr hle
    exact ⟨owner, s, name, q, rfl, hlt, .inl houter, hfollows.mono (m.left.later_enter d)⟩
  · obtain rfl := Option.some.inj (hd'.symm.trans (m.left.getElem?_enter_self d))
    rw [hd hℓ] at hr
    cases hr

theorem withParent (i : ContextId) (p : Option ContextId) : (m.adjustLeft i (Context.withParent p)).Noted := by
  intro k d r hk hd' hr hle
  obtain ⟨d, hd, rfl⟩ := BuildState.of_getElem?_adjust hd'
  have hrows : d.rows? = some r := by
    split at hr
    · cases d <;> exact hr
    · exact hr
  obtain ⟨owner, s, name, q, rfl, hlt, houter, hfollows⟩ := h k d r hk hd hrows hle
  refine ⟨owner, s, name, q, ?_, hlt, houter, BuildState.follows_withParent.mpr hfollows⟩
  split <;> rfl

/-- The rows of an association enter, and the owner notes that it was followed. -/
theorem note (hp : m.Paired c) (hd : m.left.contexts[i]? = some d) {r : Rows} (hr : d.rows? = some r)
    (hl : r.followed.lookup name = none) (s : StatementId) (q : Rows) :
    ((m.enterLeft (.association i s name q) j (m.outer i)).adjustLeft i
      (Context.follow name m.left.contexts.length)).Noted := by
  have hi := (List.getElem?_eq_some_iff.mp hd).1
  have hlater : (m.left.enter (.association i s name q)).Later
      ((m.left.enter (.association i s name q)).adjust i (Context.follow name m.left.contexts.length)) :=
    ((BuildState.Extends.refl _).note i name m.left.contexts.length).later
  rintro k d' x (hk | ⟨hℓ, rfl⟩) hd' hx hle
  · obtain ⟨e, he, rfl⟩ := BuildState.of_getElem?_adjust hd'
    have hold : m.left.contexts[k]? = some e := (List.getElem?_append_left (hp.outer_lt hk)).symm.trans he
    have hrows : ∃ y, e.rows? = some y := by
      split at hx
      · rw [Context.follow_eq_followAll, Context.rows?_followAll] at hx
        exact (Option.map_eq_some_iff.mp hx).imp fun _ h => h.1
      · exact ⟨x, hx⟩
    obtain ⟨y, hy⟩ := hrows
    obtain ⟨owner, s', name', q', rfl, hlt, houter, hfollows⟩ := h k e y hk hold hy hle
    have hfollows := (hfollows.mono (m.left.later_enter _)).mono hlater
    split
    · exact ⟨owner, s', name', _, rfl, hlt, .inl houter, hfollows⟩
    · exact ⟨owner, s', name', q', rfl, hlt, .inl houter, hfollows⟩
  · obtain ⟨e, he, rfl⟩ := BuildState.of_getElem?_adjust hd'
    obtain rfl := Option.some.inj (he.symm.trans (m.left.getElem?_enter_self _))
    rw [if_neg (Nat.ne_of_lt hi)]
    refine ⟨i, s, name, q, rfl, hi, .inl hℓ, d.follow name m.left.contexts.length, ?_⟩
    have hleft := BuildState.getElem?_adjust (m.left.enter (.association i s name q)) i i
      (Context.follow name m.left.contexts.length)
    rw [if_pos rfl] at hleft
    have howner : (m.left.enter (.association i s name q)).contexts[i]? = some d :=
      (List.getElem?_append_left hi).trans hd
    rw [howner] at hleft
    refine ⟨{ r with followed := r.followed ++ [(name, m.left.contexts.length)] }, hleft, ?_, ?_⟩
    · rw [Context.follow_eq_followAll]
      exact Context.rows?_followAll_of hr _
    · simp [List.lookup_append, hl]

end Noted

/-! An association that is followed for the first time on the left. -/

namespace InStep

variable {r : Rows} {a : Association} {target : Entity} (h : m.InStep c)

include h

/-- The statements on both sides may be changed, as long as they keep their targets. -/
theorem restate {s t : BuildState} (hs : s.contexts = m.left.contexts) (ht : t.contexts = m.right.contexts)
    (hc : (m.restate s t).Counted) : (m.restate s t).InStep c :=
  ⟨h.paired.restate hs ht, hc, h.noted.congr rfl hs⟩

/-- Contexts of new queries are placed under other parents on both sides. -/
theorem withParent (hij : m.Own i j) (hpq : Option.Rel (m.At False) p q) :
    ((m.adjustLeft i (Context.withParent p)).adjustRight j (Context.withParent q)).InStep c := by
  obtain ⟨hij, d, hd, hnew, hlink⟩ := hij
  have houter : ¬ m.outer i := fun hi => Nat.not_lt.mpr hnew (h.paired.statement_lt hi hd)
  exact ⟨h.paired.withParent hij.1 hd hlink (rel_imp (fun _ _ hab => hab.weaken houter) hpq),
    h.counted.congr rfl rfl rfl rfl, (h.noted.withParent i p).congr rfl rfl⟩

/-- Both sides read one more table. -/
theorem joinSource {s s' : StatementId} (hs : s' = R.slot s) (r r' : Rows) (a : Association) (table : TableId) :
    (m.restate (m.left.joinSource s r a table) (m.right.joinSource s' r' a table)).InStep c := by
  have hcounted : (m.restate m.left.countAlias m.right.countAlias).Counted := h.counted.congr rfl rfl rfl rfl
  subst hs
  exact h.restate rfl rfl (hcounted.alter s fun _ _ htarget => htarget)

theorem joinSourceLeft (k : StatementId) (r : Rows) (a : Association) (table : TableId) :
    (m.restate (m.left.joinSource k r a table) m.right).InStep c := by
  have hcounted : (m.restate m.left.countAlias m.right).Counted := h.counted.congr rfl rfl rfl rfl
  exact h.restate rfl rfl (hcounted.alterLeft k fun _ => rfl)

/-- On the right it is noted that the association was followed. -/
theorem noteRight (hrows : ∀ r, e.rows? = some r → r.followed = [])
    (hl : c.Lands (m.right.enter e) j name m.right.contexts.length) :
    ((m.enterRight e).adjustRight j (Context.follow name m.right.contexts.length)).InStep c :=
  ⟨(h.paired.enterRight hrows).followRight hl, h.counted.congr rfl rfl rfl rfl, h.noted.congr rfl rfl⟩

/-- On the left it is noted that the association was followed; on the right it was before. -/
theorem noteLeft (hij : m.At ℓ i j) (hd : m.left.contexts[i]? = some d) (hr : d.rows? = some r)
    (hmissing : r.followed.lookup name = none) (hfollows : m.right.Follows j name l) {s : StatementId} {q y : Rows}
    (hl : m.right.contexts[l]? = some (.association j s name q)) (hs : s = R.slot d.statement)
    (hentity : q.entity = y.entity) (htable : q.table = y.table) (hy : y.followed = []) :
    ∃ n : R.Moment, n.left = (m.left.enter (.association i d.statement name y)).adjust i
        (Context.follow name m.left.contexts.length) ∧ n.right = m.right ∧ m.Later n ∧ n.InStep c ∧
      n.At (m.outer i) m.left.contexts.length l := by
  have himage : m.Image (m.outer i) (.association i d.statement name y) (.association j s name q) :=
    .association ⟨hij.1, id⟩ ⟨hentity, htable, fun x k hk => by simp [hy] at hk⟩
  have hlater := m.later_enterLeft (.association i d.statement name y) l (m.outer i)
  have hpaired := h.paired.enterLeft hl himage hs (fun hi => (h.paired.statement_lt hi hd :)) nofun
  have hentered : (m.images ++ [l])[m.left.contexts.length]? = some l := by
    rw [← h.paired.length]
    exact List.getElem?_concat_length
  have hat := hpaired.followLeft (hij.mono hlater).1 ⟨hentered, fun hi => .inr ⟨?_, rfl⟩⟩ hfollows
  · exact ⟨(m.enterLeft (.association i d.statement name y) l (m.outer i)).adjustLeft i
      (Context.follow name m.left.contexts.length), rfl, rfl,
      hlater.trans (Moment.later_adjustLeft _ i (Context.core_follow _ _)),
      ⟨hat, h.counted.congr rfl rfl rfl rfl, h.noted.note h.paired hd hr hmissing d.statement y⟩,
      hentered, fun hi => .inr ⟨hi, rfl⟩⟩
  · exact hi.resolve_right fun hi => Nat.ne_of_lt (List.getElem?_eq_some_iff.mp hd).1 hi.2

/-- What was followed on the right leads to rows of the association's target. -/
theorem exists_landed (hfollows : m.right.Follows j name l) (he : m.right.contexts[j]? = some e)
    {r' : Rows} (hr' : e.rows? = some r') {entity : Entity} (hentity : c.schema.mapping.entity? r'.entity = some entity)
    (ha : entity.member? name = some (.association a)) (ht : c.schema.mapping.entity? a.target = some target) :
    ∃ q, m.right.contexts[l]? = some (.association j e.statement name q) ∧ q.entity = target.name ∧
      q.table = target.table := by
  obtain ⟨s, r₁, e₁, a₁, target₁, q, hrows, he₁, ha₁, ht₁, hl, hq⟩ := h.paired.landed j name l hfollows
  obtain ⟨rfl, rfl⟩ := hrows.unique ⟨e, he, rfl, hr'⟩
  obtain rfl := Option.some.inj (hentity.symm.trans he₁)
  obtain ⟨⟩ := Option.some.inj (ha.symm.trans ha₁)
  obtain rfl := Option.some.inj (ht.symm.trans ht₁)
  exact ⟨q, hl, hq⟩

end InStep
end Replay.Moment
end ObjectQuery
