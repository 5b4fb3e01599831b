import ObjectQuery.Compile.Build

/-!
How the steps of a compilation run: each gives a result, or the reason for a stop, and the state it leaves.
-/
namespace ObjectQuery.Build

variable {α β : Type}

@[simp] theorem run_pure (a : α) (s : BuildState) : (pure a : Build α).run s = (.ok a, s) := rfl

theorem run_bind (act : Build α) (next : α → Build β) (s : BuildState) :
    (act >>= next).run s =
      match act.run s with
      | (.ok a, t) => (next a).run t
      | (.error stop, t) => (.error stop, t) := by
  change ExceptT.bindCont next (act s).1 (act s).2 = _
  cases h : act s with
  | mk result t => cases result <;> simp only [run, ExceptT.run, StateT.run, h] <;> rfl

/-- A sequence gives a result only if both of its parts do. -/
theorem exists_of_run_bind {act : Build α} {next : α → Build β} {b : β} {s u : BuildState}
    (h : (act >>= next).run s = (.ok b, u)) :
    ∃ a t, act.run s = (.ok a, t) ∧ (next a).run t = (.ok b, u) := by
  rw [run_bind] at h
  cases hr : act.run s with
  | mk result t =>
    rw [hr] at h
    cases result with
    | error => cases h
    | ok a => exact ⟨a, t, rfl, h⟩

theorem run_map (f : α → β) (act : Build α) (s : BuildState) :
    (f <$> act).run s =
      match act.run s with
      | (.ok a, t) => (.ok (f a), t)
      | (.error stop, t) => (.error stop, t) := by
  rw [← bind_pure_comp, run_bind]
  cases act.run s with
  | mk result t => cases result <;> rfl

theorem exists_of_run_map {f : α → β} {act : Build α} {b : β} {s t : BuildState} (h : (f <$> act).run s = (.ok b, t)) :
    ∃ a, act.run s = (.ok a, t) ∧ f a = b := by
  rw [run_map] at h
  split at h <;> cases h
  next a ha => exact ⟨a, ha, rfl⟩

theorem run_attempt (act : Build α) (s : BuildState) :
    (attempt act).run s =
      match act.run s with
      | (.ok a, t) => (.ok (.ok a), t)
      | (.error (.failed e), t) => (.ok (.error e), t)
      | (.error stop, t) => (.error stop, t) := by
  change attempt act s = _
  cases h : act.run s with
  | mk result t =>
    cases result with
    | error stop => cases stop <;> simp [attempt, h]
    | ok a => simp [attempt, h]

/-! A sequence stops where one of its parts does. -/

theorem stops_bind {act : Build α} {next : α → Build β} {stop : Stop} {s : BuildState}
    (h : ∃ t, act.run s = (.error stop, t)) : ∃ t, (act >>= next).run s = (.error stop, t) := by
  obtain ⟨t, h⟩ := h
  exact ⟨t, by rw [run_bind, h]⟩

theorem stops_bind_of_ok {act : Build α} {next : α → Build β} {stop : Stop} {a : α} {s t : BuildState}
    (h : act.run s = (.ok a, t)) (hnext : ∃ u, (next a).run t = (.error stop, u)) :
    ∃ u, (act >>= next).run s = (.error stop, u) := by
  rwa [run_bind, h]

theorem stops_map {f : α → β} {act : Build α} {stop : Stop} {s : BuildState}
    (h : ∃ t, act.run s = (.error stop, t)) : ∃ t, (f <$> act).run s = (.error stop, t) := by
  obtain ⟨t, h⟩ := h
  exact ⟨t, by rw [run_map, h]⟩

theorem outOfFuel_attempt {act : Build α} {s : BuildState} (h : ∃ t, act.run s = (.error .outOfFuel, t)) :
    ∃ t, (attempt act).run s = (.error .outOfFuel, t) := by
  obtain ⟨t, h⟩ := h
  exact ⟨t, by rw [run_attempt, h]⟩

theorem run_orDangling (o : Option α) (s : BuildState) :
    (orDangling o).run s = (o.elim (.error .dangling) .ok, s) := by
  cases o <;> rfl

theorem run_context (id : ContextId) (s : BuildState) :
    (context id).run s = (s.contexts[id]?.elim (.error .dangling) .ok, s) :=
  run_orDangling _ s

theorem run_context_of {id : ContextId} {d : Context} {s : BuildState} (hd : s.contexts[id]? = some d) :
    (context id).run s = (.ok d, s) := by
  rw [run_context, hd, Option.elim_some]

theorem run_ensureComposable_of {id : ContextId} {d : Context} {s : BuildState} (hd : s.contexts[id]? = some d)
    (hu : d.isUpdate = false) (operation : String) : (ensureComposable id operation).run s = (.ok (), s) := by
  simp [ensureComposable, run_bind, run_context_of hd, hu]

theorem run_statement (m : StatementId) (s : BuildState) :
    (statement m).run s = (s.statements[m]?.elim (.error .dangling) .ok, s) :=
  run_orDangling _ s

theorem run_write [Observer] (f : BuildState → BuildState) (s : BuildState) :
    (write f).run s = (if Observer.stops (f s) then .error .outOfFuel else .ok (), f s) := by
  change (if Observer.stops (f s) then throw Stop.outOfFuel else pure () : Build Unit) (f s) = _
  split <;> rfl

/-! Actions that only look at the state leave it as it is when they give a result. -/

theorem of_run_orFail {e : CompileError} {o : Option α} {a : α} {s t : BuildState}
    (h : (orFail e o).run s = (.ok a, t)) : o = some a ∧ t = s := by
  cases o <;> cases h
  exact ⟨rfl, rfl⟩

theorem of_run_ofExcept {r : Except CompileError α} {a : α} {s t : BuildState}
    (h : (ofExcept r).run s = (.ok a, t)) : r = .ok a ∧ t = s := by
  cases r <;> cases h
  exact ⟨rfl, rfl⟩

theorem of_run_context {id : ContextId} {d : Context} {s t : BuildState}
    (h : (context id).run s = (.ok d, t)) : s.contexts[id]? = some d ∧ t = s := by
  rw [run_context] at h
  cases hd : s.contexts[id]? <;> rw [hd] at h <;> cases h
  exact ⟨rfl, rfl⟩

theorem of_run_statement {m : StatementId} {st : Statement} {s t : BuildState}
    (h : (statement m).run s = (.ok st, t)) : s.statements[m]? = some st ∧ t = s := by
  rw [run_statement] at h
  cases hm : s.statements[m]? <;> rw [hm] at h <;> cases h
  exact ⟨rfl, rfl⟩

theorem of_run_ensureComposable {id : ContextId} {operation : String} {a : Unit} {s t : BuildState}
    (h : (ensureComposable id operation).run s = (.ok a, t)) : t = s := by
  obtain ⟨d, _, hd, hr⟩ := exists_of_run_bind h
  obtain ⟨-, rfl⟩ := of_run_context hd
  split at hr <;> cases hr
  rfl

end ObjectQuery.Build
