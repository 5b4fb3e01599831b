import Mathlib.Data.Fintype.Pigeonhole
import ObjectQuery.Proofs.Twins.State

/-!
Parameters are looked up along the parents, through as many contexts as there are. That is enough: a search that takes
longer comes back to a context that it has passed, and would never end.
-/
namespace ObjectQuery

variable {contexts : List Context} {parameter : String} {n : Nat} {start : ContextId}

def Passes (contexts : List Context) (parameter : String) (i j : ContextId) : Prop :=
  ∃ d, contexts[i]? = some d ∧ d.binding? parameter = none ∧ d.parent = some j

theorem bindingFrom_of_passes {i j : ContextId} (h : Passes contexts parameter i j) (n : Nat) :
    bindingFrom contexts parameter (n + 1) (some i) = bindingFrom contexts parameter n (some j) := by
  obtain ⟨d, hd, hnone, hp⟩ := h
  simp [bindingFrom, hd, hnone, hp]

/-- A search that stops for want of fuel has passed that many contexts. -/
theorem exists_path (h : bindingFrom contexts parameter n (some start) = .error .outOfFuel) :
    ∃ path : Nat → ContextId, path 0 = start ∧ ∀ k < n, Passes contexts parameter (path k) (path (k + 1)) := by
  induction n generalizing start with
  | zero => exact ⟨fun _ => start, rfl, nofun⟩
  | succ n ih =>
    rw [bindingFrom] at h
    cases hd : contexts[start]? with
    | none => simp [hd] at h
    | some d =>
      simp only [hd] at h
      cases hb : d.binding? parameter with
      | some => simp [hb] at h
      | none =>
        simp only [hb] at h
        cases hp : d.parent with
        | none => simp [hp, bindingFrom] at h
        | some j =>
          obtain ⟨path, hfirst, hpath⟩ := ih (hp ▸ h)
          refine ⟨fun k => k.casesOn start path, rfl, fun k hk => ?_⟩
          cases k with
          | zero => exact ⟨d, hd, hb, by rw [hp, ← hfirst]⟩
          | succ k => exact hpath k (Nat.lt_of_succ_lt_succ hk)

/-- Among contexts of which each leads on to another one of them, the search never ends. -/
theorem bindingFrom_of_circle {T : ContextId → Prop} (hT : ∀ i, T i → ∃ j, T j ∧ Passes contexts parameter i j)
    (h : T start) (n : Nat) : bindingFrom contexts parameter n (some start) = .error .outOfFuel := by
  induction n generalizing start with
  | zero => rfl
  | succ n ih =>
    obtain ⟨j, hj, hpasses⟩ := hT start h
    rw [bindingFrom_of_passes hpasses, ih hj]

theorem bindingFrom_of_out_of_fuel {S : ContextId → Prop} (hS : ∀ i, S i → i < contexts.length)
    (hparent : ∀ i d j, S i → contexts[i]? = some d → d.parent = some j → S j) (hs : S start)
    (h : bindingFrom contexts parameter contexts.length (some start) = .error .outOfFuel) (n : Nat) :
    bindingFrom contexts parameter n (some start) = .error .outOfFuel := by
  obtain ⟨path, rfl, hpath⟩ := exists_path h
  have hmem : ∀ k ≤ contexts.length, S (path k) := by
    intro k hk
    induction k with
    | zero => exact hs
    | succ k ih =>
      obtain ⟨d, hd, -, hp⟩ := hpath k hk
      exact hparent _ d _ (ih (Nat.le_of_lt hk)) hd hp
  -- one more context than there are was passed, so one was passed twice
  let visit : Fin (contexts.length + 1) → Fin contexts.length := fun k =>
    ⟨path k, hS _ (hmem k (Nat.le_of_lt_succ k.isLt))⟩
  obtain ⟨i, j, hne, hij⟩ := Fintype.exists_ne_map_eq_of_card_lt visit (by simp)
  wlog hlt : i < j generalizing i j
  · exact this j i hne.symm hij.symm (lt_of_le_of_ne (not_lt.mp hlt) hne.symm)
  have hsame : path i = path j := congrArg Fin.val hij
  refine bindingFrom_of_circle (T := fun id => ∃ k < j.val, path k = id) ?_ ⟨0, Nat.zero_lt_of_lt hlt, rfl⟩ n
  rintro _ ⟨k, hk, rfl⟩
  have hlast : k < contexts.length := Nat.lt_of_lt_of_le hk (Nat.le_of_lt_succ j.isLt)
  refine ⟨path (k + 1), ?_, hpath k hlast⟩
  cases Nat.lt_or_eq_of_le (Nat.succ_le_of_lt hk) with
  | inl h => exact ⟨k + 1, h, rfl⟩
  | inr h => exact ⟨i, hlt, by rw [hsame, ← h]⟩

theorem bindingFrom_add (k : Nat) {p : Option ContextId}
    (h : bindingFrom contexts parameter n p ≠ .error .outOfFuel) :
    bindingFrom contexts parameter (n + k) p = bindingFrom contexts parameter n p := by
  induction n generalizing p with
  | zero =>
    cases p with
    | none => rw [bindingFrom, bindingFrom]
    | some => exact absurd rfl h
  | succ n ih =>
    cases p with
    | none => rw [bindingFrom, bindingFrom]
    | some i =>
      rw [Nat.add_right_comm]
      simp only [bindingFrom] at h ⊢
      cases hd : contexts[i]? with
      | none => rfl
      | some d =>
        simp only [hd] at h ⊢
        cases hb : d.binding? parameter with
        | some => rfl
        | none =>
          simp only [hb] at h ⊢
          exact ih h

theorem bindingFrom_eq_of_length_le (parameter : String) {S : ContextId → Prop} (hS : ∀ i, S i → i < contexts.length)
    (hparent : ∀ i d j, S i → contexts[i]? = some d → d.parent = some j → S j) (hs : S start)
    (hn : contexts.length ≤ n) :
    bindingFrom contexts parameter n (some start) = bindingFrom contexts parameter contexts.length (some start) := by
  by_cases h : bindingFrom contexts parameter contexts.length (some start) = .error .outOfFuel
  · rw [h]
    exact bindingFrom_of_out_of_fuel hS hparent hs h n
  · obtain ⟨k, rfl⟩ := Nat.exists_eq_add_of_le hn
    exact bindingFrom_add k h

namespace BuildState.Alike

variable {free : StatementId → Prop} {w : Pairing} {s t : BuildState} {i j : ContextId}

/-- Searches that pass paired contexts find paired sequences, or none, or stop alike. -/
theorem bindingFrom (h : s.Alike free w t) (parameter : String) (n : Nat) {p q : Option ContextId}
    (hpq : Option.Rel w.same p q) :
    (∃ stop, bindingFrom s.contexts parameter n p = .error stop ∧ bindingFrom t.contexts parameter n q = .error stop) ∨
      ∃ x y, bindingFrom s.contexts parameter n p = .ok x ∧ bindingFrom t.contexts parameter n q = .ok y ∧
        Option.Rel w.same x y := by
  induction n generalizing p q with
  | zero =>
    cases hpq with
    | none => exact .inr ⟨none, none, rfl, rfl, .none⟩
    | some => exact .inl ⟨.outOfFuel, rfl, rfl⟩
  | succ n ih =>
    cases hpq with
    | none => exact .inr ⟨none, none, rfl, rfl, .none⟩
    | some hij =>
      obtain ⟨d, e, hd, he, hde⟩ := h.contexts hij
      have hbinding := hde.binding? parameter
      simp only [ObjectQuery.bindingFrom, hd, he]
      generalize d.binding? parameter = x at hbinding
      generalize e.binding? parameter = y at hbinding
      cases hbinding with
      | some hxy => exact .inr ⟨_, _, rfl, rfl, .some hxy⟩
      | none => exact ih hde.parent

theorem exists_parent_left (h : s.Alike free w t) (hij : w.same i j) {d : Context} (hd : s.contexts[i]? = some d)
    {k : ContextId} (hk : d.parent = some k) : ∃ l, w.same k l := by
  obtain ⟨e, -, hde⟩ := h.exists_alike hij hd
  have hparent := hde.parent
  rw [hk] at hparent
  generalize e.parent = q at hparent
  cases hparent with
  | some hkl => exact ⟨_, hkl⟩

theorem exists_parent_right (h : s.Alike free w t) (hij : w.same i j) {e : Context} (he : t.contexts[j]? = some e)
    {l : ContextId} (hl : e.parent = some l) : ∃ k, w.same k l := by
  obtain ⟨d, e', -, he', hde⟩ := h.contexts hij
  obtain rfl : e' = e := by simpa [he] using he'.symm
  have hparent := hde.parent
  rw [hl] at hparent
  generalize d.parent = p at hparent
  cases hparent with
  | some hkl => exact ⟨_, hkl⟩

theorem lookup (h : s.Alike free w t) (parameter : String) (hij : w.same i j) :
    (∃ stop, ObjectQuery.bindingFrom s.contexts parameter s.contexts.length (some i) = .error stop ∧
      ObjectQuery.bindingFrom t.contexts parameter t.contexts.length (some j) = .error stop) ∨
      ∃ x y, ObjectQuery.bindingFrom s.contexts parameter s.contexts.length (some i) = .ok x ∧
        ObjectQuery.bindingFrom t.contexts parameter t.contexts.length (some j) = .ok y ∧ Option.Rel w.same x y := by
  have hleft := bindingFrom_eq_of_length_le parameter (S := fun i => ∃ j, w.same i j)
    (fun _ ⟨_, hij⟩ => (h.lt_length hij).1) (fun _ _ _ ⟨_, hij⟩ hd hk => h.exists_parent_left hij hd hk) ⟨j, hij⟩
    (Nat.le_max_left s.contexts.length t.contexts.length)
  have hright := bindingFrom_eq_of_length_le parameter (S := fun j => ∃ i, w.same i j)
    (fun _ ⟨_, hij⟩ => (h.lt_length hij).2) (fun _ _ _ ⟨_, hij⟩ he hk => h.exists_parent_right hij he hk) ⟨i, hij⟩
    (Nat.le_max_right s.contexts.length t.contexts.length)
  rw [← hleft, ← hright]
  exact h.bindingFrom parameter _ (.some hij)

end BuildState.Alike
end ObjectQuery
