import Mathlib.Algebra.Order.BigOperators.Group.List
import Mathlib.Algebra.Order.Group.Nat
import ObjectQuery.Proofs.OwnRow
import ObjectQuery.Proofs.Twins.Ahead
import ObjectQuery.Proofs.Twins.Outcome

/-!
Members that are set one after the other, and members that a single setter constructs. An update with the ones compiles
to the same statements as an update with the other, or fails for the same reason.
-/
namespace ObjectQuery

open World Build

/-- The members are set one after the other. -/
def Node.setEach (node : Node) (parameter : String) (bindings : List (String × Expr)) : Node :=
  bindings.foldl (fun node binding => node.set (.selector parameter binding.1) binding.2) node

theorem Node.setEach_concat (node : Node) (parameter : String) (bindings : List (String × Expr)) (name : String)
    (value : Expr) : node.setEach parameter (bindings ++ [(name, value)]) =
      (node.setEach parameter bindings).set (.selector parameter name) value := by
  rw [setEach, List.foldl_append]
  rfl

/-- Fuel for all of the sets on the left, and for the values on the right, such that only this side can run out of it
where the other does not. -/
def Side.Affords (bindings : List (String × Expr)) : Side → Nat → Nat → Prop
  | .left, n, n' => n + bindings.length ≤ n'
  | .right, n, n' => n' ≤ n ∧ ∀ binding ∈ bindings, n' + binding.2.conversions ≤ n

namespace Side.Affords

variable {side : Side} {bindings : List (String × Expr)} {n n' : Nat}

theorem covers (h : side.Affords bindings n n') : side.Covers n n' := by
  cases side with
  | left => exact Nat.le_of_add_right_le h
  | right => exact h.1

theorem covers_succ (h : side.Affords bindings n n') : side.Covers (n + bindings.length + 1) (n' + 1) := by
  cases side with
  | left => exact Nat.succ_le_succ h
  | right => exact Nat.succ_le_succ (Nat.le_add_right_of_le h.1)

theorem init {binding : String × Expr} (h : side.Affords (bindings ++ [binding]) n n') :
    side.Affords bindings n n' ∧ side.Spares binding.2.conversions (n + bindings.length) n' := by
  cases side with
  | left =>
    have hle : n + (bindings.length + 1) ≤ n' := by simpa [Side.Affords] using h
    exact ⟨Nat.le_of_succ_le hle, Nat.le_of_succ_le hle⟩
  | right =>
    refine ⟨⟨h.1, fun b hb => h.2 b (List.mem_append_left _ hb)⟩, ?_⟩
    exact Nat.le_add_right_of_le (h.2 binding (List.mem_append_right _ (List.mem_singleton_self _)))

end Side.Affords

namespace Compiler

variable {c : Compiler} {side : Side} {free : StatementId → Prop} {w : Pairing} {n n' : Nat} {id : ContextId}
  {s t : BuildState} {u : SharedUpdate} {items : List SetItem} {bindings : List (String × Expr)} {depth : Nat}
  {source node : Node} {m : StatementId} {r : Rows}

theorem sequence_set (hall : c.builders = Builder.all) (n : Nat) (node : Node) (member : Lambda) (value : Expr) :
    (c.calls (n + 1)).sequence none (node.set member value) =
      (c.calls n).sequence none node >>= fun id => c.buildSet (c.calls n) (node.set member value) id none :=
  sequence_chain (builderFor_set hall node member value) none

theorem sequence_update (hall : c.builders = Builder.all) (n : Nat) (node : Node) :
    (c.calls (n + 1)).sequence none node.update =
      (c.calls n).sequence none node >>= fun id => c.buildUpdate (c.calls n) node.update id none :=
  sequence_chain (builderFor_update hall node) none

theorem sequence_updateWith (hall : c.builders = Builder.all) (n : Nat) (node : Node) (setter : Lambda) :
    (c.calls (n + 1)).sequence none (node.updateWith setter) =
      (c.calls n).sequence none node >>= fun id => c.buildUpdate (c.calls n) (node.updateWith setter) id none :=
  sequence_chain (builderFor_updateWith hall node setter) none

theorem table_of_settableColumn (hc : c.Coherent) {k : Nat} {p : Option ContextId} {name : String} {column : ColumnId}
    (hrun : ((c.calls k).sequence none node).run {} = (.ok id, s)) (hd : s.contexts[id]? = some (.table p m r))
    (h : (settableColumn (c.calls n) id [name] none).run s = (.ok column, t)) : column.table = r.table := by
  have hf : ∀ σ, Fresh (fun _ => True) σ := fun _ _ _ => trivial
  have hbuilt := (c.calls_respect (.anything c) k).sequence node (hf World.start) placed_none
  obtain ⟨σ, hsteps, rfl, -⟩ := hbuilt.ends valid_start hrun
  obtain ⟨a, t, hclassify, -⟩ := field_of_settableColumn (congrArg Prod.fst h)
  obtain ⟨-, -, -, hdeclares⟩ :=
    (declares_of_holds (K := .anything c) (hf σ) hd name).ends (hsteps.valid valid_start) hclassify
  exact hc _ _ (hdeclares _ _ rfl)

theorem run_sequence_setEach_of_stop (hall : c.builders = Builder.all) {stop : Stop} (parameter : String)
    (bindings : List (String × Expr)) (h : ((c.calls n).sequence none source).run {} = (.error stop, s)) :
    ((c.calls (n + bindings.length)).sequence none (source.setEach parameter bindings)).run {} = (.error stop, s) := by
  induction bindings using List.reverseRecOn with
  | nil => exact h
  | append_singleton bindings binding ih =>
    rw [Node.setEach_concat, List.length_append]
    change ((c.calls (n + bindings.length + 1)).sequence none _).run {} = _
    rw [sequence_set hall, run_bind, ih]

theorem agrees_setEach (hall : c.builders = Builder.all) (hc : c.Coherent)
    (hrun : ((c.calls n).sequence none source).run {} = (.ok u.left, s)) (h : u.Ahead w [] s t)
    (hfuel : side.Affords bindings n n') (hv : ∀ binding ∈ bindings, binding.2.bindings? = none) :
    Agrees side (fun id s groups t => id = u.left ∧ ∃ v, u.Ahead v groups.flatten s t) (fun _ _ => True)
      (((c.calls (n + bindings.length)).sequence none (source.setEach u.parameter bindings)).run {})
      ((bindings.mapM (flattenBinding c (c.calls n') u.right (some u.table) u.scope depth [])).run t) := by
  induction bindings using List.reverseRecOn with
  | nil =>
    change Agrees _ _ _ (((c.calls n).sequence none source).run {}) _
    rw [hrun]
    exact .gives ⟨rfl, w, h⟩
  | append_singleton bindings binding ih =>
    -- the outermost set is compiled over all the others, as the last binding is after the ones before it
    obtain ⟨name, value⟩ := binding
    obtain ⟨hbindings, hvalue⟩ := hfuel.init
    have hprefix := ih hbindings fun b hb => hv b (List.mem_append_left _ hb)
    rw [Node.setEach_concat, List.length_append]
    change Agrees _ _ _ (((c.calls (n + bindings.length + 1)).sequence none _).run {}) _
    rw [sequence_set hall, List.mapM_append]
    refine hprefix.bind (fun id s groups t hl _ hpost => ?_) fun _ _ _ => trivial
    obtain ⟨rfl, v, h⟩ := hpost
    obtain ⟨r, hd, hr⟩ := h.rows
    -- the left side does not say which table it means: the schema is coherent, so it is the same one
    have hown : ∀ k s', (settableColumn (c.calls (n + bindings.length)) u.left [name] none).run s = (.ok k, s') →
        k.table = u.table := fun k s' hk => (table_of_settableColumn hc hl hd hk).trans hr
    have hlast := hv (name, value) (List.mem_append_right _ (List.mem_singleton_self _))
    rw [List.mapM_cons, List.mapM_nil, bind_assoc, ← bind_pure (c.buildSet _ _ _ _)]
    refine (agrees_buildSet h hvalue hlast hown _).bind (fun id s group t _ _ hpost => ?_) fun _ _ _ => trivial
    obtain ⟨rfl, v, h⟩ := hpost
    refine .gives ⟨rfl, v, ?_⟩
    rwa [List.flatten_append, List.flatten_singleton]

/-! The update itself. -/

/-- The statement becomes an update of the sequence's rows. -/
def conclude (c : Compiler) (m : StatementId) (id : ContextId) : Build ContextId := do
  c.completeUpdate m
  addContext (.update none m id)

theorem twins_conclude {i j : ContextId} (hm : ¬ free m) (hij : w.same i j) :
    Build.Twins side free w Pairing.same (c.conclude m i) (c.conclude m j) :=
  (twins_completeUpdate hm).then fun _ hv _ => .addContext (.update .none (hv.same hij))

theorem run_updatedRows? {p : Option ContextId} (hd : s.contexts[id]? = some (.table p m r)) (hn : n ≠ 0) :
    (updatedRows? (c.calls n) id).run s = (.ok (some (id, r.table)), s) := by
  obtain ⟨n, rfl⟩ := Nat.exists_eq_succ_of_ne_zero hn
  have hclassify : ((c.calls (n + 1)).classify id []).run s = (.ok (.table id), s) := by
    change (c.classify (c.calls n) id []).run s = _
    rw [classify, run_bind, run_context_of hd]
    change (context id >>= _).run s = _
    rw [run_bind, run_context_of hd]
    rfl
  have hask : ∀ request, (ask (c.calls (n + 1)) id [] request).run s = (.ok (request.answer (.table id)), s) := by
    intro request
    rw [ask, run_bind, run_context_of hd]
    change (attempt _ >>= _).run s = _
    rw [run_bind, run_attempt, hclassify]
    rfl
  have hrows : (rowsOf? (c.calls (n + 1)) id).run s = (.ok (some id), s) := by
    rw [rowsOf?, run_bind, hask]
    change (ask _ _ _ _ >>= _).run s = _
    rw [run_bind, hask]
    rfl
  rw [updatedRows?, run_bind, hrows]
  dsimp only
  rw [run_bind, run_context_of hd]
  rfl

theorem run_buildUpdate (hd : s.contexts[id]? = some (.table none m r)) (h : s.Assigning m r.table items)
    (hn : n ≠ 0) (node : Node) :
    (c.buildUpdate (c.calls n) node.update id none).run s =
      (c.conclude m id).run (s.reassign m fun u => u.bind r.table) := by
  have hassign : (c.assign (c.calls n) m id [] none).run s =
      (.ok (), s.reassign m fun u => u.bind r.table) := by
    rw [assign, run_bind, run_updatedRows? hd hn]
    exact run_bindTarget h
  rw [buildUpdate, run_bind, run_ensureComposable_of hd rfl]
  dsimp only
  rw [run_bind, run_context_of hd]
  change (c.assign (c.calls n) m id [] none >>= _).run s = _
  rw [run_bind, hassign]
  rfl

/-- A setter names the table first, and adds its items when all of them are there. -/
theorem run_buildUpdate_construct (hd : s.contexts[id]? = some (.table none m r)) (h : s.Assigning m r.table items)
    (hdepth : c.settings.maxSetterDepth = depth + 1) (hn : n ≠ 0) (node : Node) (parameter : String)
    (bindings : List (String × Expr)) :
    (c.buildUpdate (c.calls n) (node.updateWith ⟨[parameter], .construct bindings⟩) id none).run s =
      (do
        let groups ← bindings.mapM
          (flattenBinding c (c.calls n) id (some r.table) s.contexts.length depth [])
        addItems m groups.flatten
        c.conclude m id).run
        ((s.reassign m fun u => u.bind r.table).enter (.lambda none m [(parameter, id)])) := by
  have hbound : (s.reassign m fun u => u.bind r.table).contexts[id]? = some (.table none m r) := hd
  have hscope : (lambdaScope ⟨[parameter], .construct bindings⟩ id none).run (s.reassign m fun u => u.bind r.table) =
      (.ok s.contexts.length, (s.reassign m fun u => u.bind r.table).enter (.lambda none m [(parameter, id)])) :=
    run_lambdaScope rfl hbound none
  rw [buildUpdate, run_bind, run_ensureComposable_of hd rfl]
  dsimp only
  rw [run_bind, run_context_of hd]
  change (c.updateWith (c.calls n) m id ⟨[parameter], .construct bindings⟩ none >>= _).run s = _
  rw [updateWith, bind_assoc, run_bind, run_updatedRows? hd hn]
  simp only [bind_assoc]
  rw [run_bind, run_bindTarget h]
  dsimp only
  rw [setterItems, bind_assoc, run_bind, hscope]
  change (flatten c (c.calls n) id (some r.table) s.contexts.length c.settings.maxSetterDepth [] bindings >>=
    _).run _ = _
  rw [hdepth, flatten_succ, bind_assoc]
  rfl

theorem coincide_conclude (h : u.Ahead w items s t) (hn : side.Covers n n') :
    Coincide side
      ((c.conclude u.number u.left >>= finish (c.calls n)).run (s.reassign u.number fun a => a.bind u.table))
      ((addItems u.number items >>= fun _ => c.conclude u.number u.right >>= finish (c.calls n')).run t) := by
  have hsame : w.disown.same u.left u.right := h.same
  have htwins : Build.Twins side (fun _ => False) w.disown (fun _ a b => b.1 = a.1)
      (c.conclude u.number u.left >>= finish (c.calls n)) (c.conclude u.number u.right >>= finish (c.calls n')) :=
    (twins_conclude id hsame).bind fun v _ _ _ hij => twins_finish (calls_twins c hn) hij
  rw [run_bind (addItems _ _), run_addItems h.target]
  refine (htwins _ _ h.settle).imp ?_ fun _ _ _ => trivial
  rintro a s b t ⟨v, -, hst, hroot⟩
  exact ⟨hst.statements_eq fun _ => id, hroot⟩

theorem coincide_setEach (hall : c.builders = Builder.all) (hc : c.Coherent)
    (hdepth : 1 ≤ c.settings.maxSetterDepth) (hplain : source.Plain) (parameter : String)
    (hv : ∀ binding ∈ bindings, binding.2.bindings? = none) (hfuel : side.Affords bindings n n') :
    Coincide side ((c.root (n + bindings.length + 1) (source.setEach parameter bindings).update).run {})
      ((c.root (n' + 1) (source.updateWith ⟨[parameter], .construct bindings⟩)).run {}) := by
  have hsource := @Calls.Twins.sequence _ _ _ _ (calls_twins c hfuel.covers) .void none none source .none _ _
    BuildState.alike_empty
  rw [root, root, sequence_update hall, sequence_updateWith hall, bind_assoc, bind_assoc]
  generalize hl : ((c.calls n).sequence none source).run {} = x at hsource
  generalize hr : ((c.calls n').sequence none source).run {} = y at hsource
  cases hsource with
  | left h =>
    rw [run_bind, run_sequence_setEach_of_stop hall parameter bindings hl]
    exact .left h
  | right h =>
    rw [run_bind ((c.calls n').sequence none source), hr]
    exact .right h
  | stops =>
    rw [run_bind, run_sequence_setEach_of_stop hall parameter bindings hl, run_bind, hr]
    exact .stops trivial
  | @gives id s id' t h =>
    obtain ⟨v, -, halike, hown⟩ := h
    obtain ⟨m, table, hopened⟩ := opened_of_run hall hplain hl
    obtain ⟨hahead, r, st, hd, rfl, hst, hu⟩ :=
      SharedUpdate.ahead_of_opened halike (v.same_of_own hown) hopened parameter
    have hn : n ≠ 0 := by
      rintro rfl
      cases hl
    have hn' : n' ≠ 0 := by
      rintro rfl
      cases hr
    obtain ⟨depth, hdepth⟩ := Nat.exists_eq_succ_of_ne_zero (Nat.ne_zero_of_lt hdepth)
    rw [run_bind ((c.calls n').sequence none source), hr]
    dsimp only
    rw [run_bind (c.buildUpdate _ _ _ _), run_buildUpdate_construct hd (.inl ⟨st, hst, hu⟩) hdepth hn', ← run_bind]
    simp only [bind_assoc]
    refine (agrees_setEach hall hc hl hahead hfuel hv).bind (fun id s groups t _ _ hpost => ?_) fun _ _ h => h
    obtain ⟨rfl, v, h⟩ := hpost
    obtain ⟨r', hd', hr'⟩ := h.rows
    rw [run_bind (c.buildUpdate _ _ _ _), run_buildUpdate hd' (hr' ▸ h.added) (by omega), ← run_bind, hr']
    exact coincide_conclude h hfuel.covers_succ

end Compiler

/-- Members of filtered rows may be set one after the other, or be constructed by a single setter, in the same order
and from the same values. If these are no constructions themselves, both updates compile to the same statements with
the same one at the root, or both fail for the same reason. -/
theorem Compiler.gives_setEach_iff {spec : Spec} {c : Compiler} (hspec : spec.resolve = .ok c.schema)
    (hall : c.builders = Builder.all) (hdepth : 1 ≤ c.settings.maxSetterDepth) {source : Node} (hplain : source.Plain)
    (parameter : String) {bindings : List (String × Expr)} (hv : ∀ binding ∈ bindings, binding.2.bindings? = none)
    (r : Except Stop (List Statement × StatementId)) :
    c.Gives (source.setEach parameter bindings).update r ↔
      c.Gives (source.updateWith ⟨[parameter], .construct bindings⟩) r := by
  have hc := Spec.coherent_of_resolve hspec
  constructor
  · rintro ⟨hr, n, rfl⟩
    have hfuel : Side.Affords bindings .left n (n + bindings.length) := Nat.le_refl _
    have hmore := outcome_of_le hr (show n ≤ n + bindings.length + 1 by omega)
    refine ⟨hr, n + bindings.length + 1, ?_⟩
    rw [← hmore]
    exact outcome_eq_of_coincide (coincide_setEach hall hc hdepth hplain parameter hv hfuel) (fun _ => hmore ▸ hr) nofun
  · rintro ⟨hr, n, rfl⟩
    let conversions := (bindings.map fun binding => binding.2.conversions).sum
    have hfuel : Side.Affords bindings .right (n + conversions) n := by
      refine ⟨Nat.le_add_right .., fun binding hb => Nat.add_le_add_left ?_ n⟩
      exact List.le_sum_of_mem (List.mem_map_of_mem hb)
    have hmore := outcome_of_le hr (Nat.le_succ n)
    have heq := outcome_eq_of_coincide (coincide_setEach hall hc hdepth hplain parameter hv hfuel) nofun
      fun _ => hmore ▸ hr
    exact ⟨hr, n + conversions + bindings.length + 1, heq.symm.trans hmore⟩

def laterEmployees : Node :=
  (Node.source "Employee").filter
    ⟨["e"], .not (.binary (.comparison .equal) (.member (.parameter "e") "id") (.literal (.int 1)))⟩

/-- Employees are named after their department, and get another number. -/
def badges : List (String × Expr) :=
  [("name", .convert (.member (.member (.parameter "e") "department") "name")), ("id", .literal (.int 7))]

def badgeStatements : List Statement :=
  ((Compiler.company.outcome 12 (laterEmployees.setEach "e" badges).update).toOption.getD default).1

/-- Both updates compile, to one statement that joins the departments. -/
theorem Compiler.gives_badges :
    Spec.company.resolve = .ok Compiler.company.schema ∧ Compiler.company.builders = Builder.all ∧
      1 ≤ Compiler.company.settings.maxSetterDepth ∧ laterEmployees.Plain ∧
      (∀ binding ∈ badges, binding.2.bindings? = none) ∧ badgeStatements.length = 1 ∧
      Compiler.company.Gives (laterEmployees.setEach "e" badges).update (.ok (badgeStatements, 0)) ∧
      Compiler.company.Gives (laterEmployees.updateWith ⟨["e"], .construct badges⟩) (.ok (badgeStatements, 0)) := by
  have hspec : Spec.company.resolve = .ok Compiler.company.schema := rfl
  have hdepth : 1 ≤ Compiler.company.settings.maxSetterDepth := by decide
  have hplain : laterEmployees.Plain := .filter (.source "Employee") _
  have hv : ∀ binding ∈ badges, binding.2.bindings? = none := by
    simp [badges, Expr.bindings?, Expr.strip]
  have hsets : Compiler.company.Gives (laterEmployees.setEach "e" badges).update (.ok (badgeStatements, 0)) :=
    ⟨by simp, 12, rfl⟩
  exact ⟨hspec, rfl, hdepth, hplain, hv, rfl, hsets, (gives_setEach_iff hspec rfl hdepth hplain "e" hv _).mp hsets⟩

end ObjectQuery
