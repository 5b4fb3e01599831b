import ObjectQuery.Proofs.Fusion.Rows
import ObjectQuery.Proofs.Fusion.Values
import ObjectQuery.Proofs.Twins.Source

/-!
Queries inside a condition. Updates are none that a query goes on with; every other operator leaves rows or a projection
behind on both sides.
-/
namespace ObjectQuery

open Build Compiler

namespace Fusion

variable {φ : Fusion} {m n : φ.Moment} {a b i j : ContextId} {p q : Option ContextId} {mode : Mode} {e : Expr}
  {f member : Lambda} {path : Path} {node source : Node} {c : Compiler} {rec rec' : ObjectQuery.Calls}

theorem tracks_composable (h : Tracks m (fun n => n.Seated mode p q node) act act') (operation operation' : String) :
    Tracks m (fun n => n.Seated mode p q node) (composable operation act) (composable operation' act') :=
  h.bind fun _ _ _ _ hij => (Tracks.ensureComposable hij.1 operation operation').then fun _ hn _ => .pure (hij.mono hn)

theorem tracks_buildSource (hpq : m.Holds mode p q) (name : String) :
    Tracks m (fun n => n.Seated mode p q (.source name)) (c.buildSource (.source name) p)
      (c.buildSource (.source name) q) := by
  refine (tracks_entity name).bind fun n₁ h₁ entity _ hentity => ?_
  obtain ⟨rfl, -⟩ := hentity
  refine Tracks.nextAlias.then fun n₂ h₂ aliasName => (Tracks.addStatement _).then fun n₃ h₃ number => ?_
  have hpq := ((hpq.mono h₁).mono h₂).mono h₃
  refine (Tracks.addContext fun _ => .table (hpq.sees.keep (n₃.later_enter _ _).keeps) ⟨.nil⟩).imp fun _ _ i j hij => ?_
  exact ⟨hij.1, _, _, hij.2.1, hij.2.2, .table _ _ _⟩

theorem selectedPath_lambda (hf : mode.TakesLambda φ f) (h : selectedPath f = .ok path) :
    selectedPath (mode.lambda φ f) = .ok path := by
  unfold selectedPath at h ⊢
  rw [Mode.row?_lambda]
  cases hrow : f.row? with
  | none =>
    rw [hrow] at h
    cases h
  | some row =>
    rw [hrow] at h
    dsimp only at h ⊢
    split at h
    · next found hfound =>
      cases h
      obtain ⟨hp, hroot⟩ := Option.filter_eq_some_iff.mp hfound
      have hself : (mode.under φ f.row?).expr φ f.body = f.body := by
        rcases hf.body.stays_or_fused hp with ⟨-, hself⟩ | ⟨hunder, hparameter⟩
        · exact hself
        · refine ((Mode.fused_of_under hunder).2 ?_).elim
          rw [hrow, ← hparameter, (of_decide_eq_true hroot).1]
      rw [Mode.body_lambda, hself, hfound]
    · cases h

variable (h : φ.Calls rec rec')

include h

theorem tracks_restrict (hij : m.same i j) (hpq : m.Holds mode p q) (hf : mode.TakesLambda φ f)
    (ht : (mode.under φ f.row?).Tests φ f.body) :
    Tracks m Equal (restrict rec i f p) (restrict rec' j (mode.lambda φ f) q) := by
  have hcondition : Tracks m Equal (lambdaCondition rec i f p) (lambdaCondition rec' j (mode.lambda φ f) q) := by
    refine Tracks.under hij hpq hf fun n _ a b hab => ?_
    rw [Mode.body_lambda]
    exact h.condition hf.body ht hab
  refine hcondition.then fun n hn c => .context (hn.same hij) fun d e _ _ hde => ?_
  rw [hde.statement]
  exact .modifyStatement _ _

theorem tracks_setPlain (hij : m.same i j) (hpq : m.Holds mode p q) (hmember : mode.TakesLambda φ member)
    (he : (mode.under φ member.row?).Takes φ e) (path : Path) :
    Tracks m Equal (c.setItem rec member path (.value e) i p)
      (c.setItem rec' (mode.lambda φ member) path (.value ((mode.under φ member.row?).expr φ e)) j q) := by
  refine (tracks_settableColumn h hij path.steps none).then fun n hn column => ?_
  refine Tracks.under (hn.same hij) (hpq.mono hn) hmember fun k _ a b hab => ?_
  exact (h.value he hab).then fun _ _ v => .pure rfl

/-- While the value is compiled, the sequence is below the scope of the value. -/
theorem tracks_setLambda (hij : m.Seated mode p q source i j) (hpq : m.Holds mode p q) (hf : mode.TakesLambda φ f)
    (hlast : ∀ g, source.projection? = some g → f.row? = some φ.parameter → mode.lambda φ g = g) (path : Path) :
    Tracks m Equal (c.setItem rec member path (.lambda f) i p)
      (c.setItem rec' (mode.lambda φ member) path (.lambda (mode.lambda φ f)) j q) := by
  refine (tracks_computedColumn h hij.1 path).then fun n hn column => ?_
  refine Tracks.under (hn.same hij.1) (hpq.mono hn) hf fun k hk a b hab => ?_
  have hseat : ∀ g, source.projection? = some g → mode.TakesLambda φ g →
      (mode.under φ f.row?).TakesLambda φ g ∧ (mode.under φ f.row?).lambda φ g = mode.lambda φ g := by
    intro g hg htakes
    by_cases hrow : f.row? = some φ.parameter
    · have hkept : mode.under φ f.row? = .kept := by cases mode <;> simp [Mode.under, hrow]
      rw [hkept, hlast g hg hrow]
      exact ⟨trivial, rfl⟩
    · have hsame : mode.under φ f.row? = mode := by cases mode <;> simp [Mode.under, hrow]
      rw [hsame]
      exact ⟨htakes, rfl⟩
  refine (Tracks.withParent ((hij.mono hn).mono hk) hab hseat fun n' hn' => ?_).then fun _ _ v => .pure rfl
  rw [Mode.body_lambda]
  exact h.value hf.body (hab.keep hn')

omit h in
theorem tracks_setOver {operand operand' : Argument} (hij : m.Seated mode p q source i j)
    (hmember : mode.TakesLambda φ member)
    (hitem : ∀ n, m.Later n → ∀ path, Tracks n Equal (c.setItem rec member path operand i p)
      (c.setItem rec' (mode.lambda φ member) path operand' j q)) :
    Tracks m (fun n => n.Seated mode p q source) (c.setOver rec member operand i p)
      (c.setOver rec' (mode.lambda φ member) operand' j q) := by
  unfold setOver
  cases hpath : selectedPath member with
  | error e => exact .fail e
  | ok path =>
    rw [selectedPath_lambda hmember hpath]
    refine Tracks.then (.pure rfl) fun n₁ h₁ path => .context (h₁.same hij.1) fun d e _ _ hde => ?_
    rw [hde.statement]
    refine (hitem n₁ h₁ path).then fun n₂ h₂ item => (tracks_bindTarget _ _).then fun n₃ h₃ _ => ?_
    refine (Tracks.modifyStatement _ _).then fun n₄ h₄ _ => .pure ?_
    exact (((hij.mono h₁).mono h₂).mono h₃).mono h₄

theorem tracks_sequence (hnode : mode.TakesNode φ node) (hpq : m.Holds mode p q) (operation operation' : String) :
    Tracks m (fun n => n.Seated mode p q node) (composable operation (c.sequence rec p node))
      (composable operation' (c.sequence rec' q (mode.node φ node))) := by
  cases hb : c.builderFor node with
  | error e =>
    rw [Compiler.sequence, hb]
    exact .fail e
  | ok b =>
    have hshape := Builder.shape_of_claims (claims_of_builderFor hb)
    by_cases hupdate : b = .update
    · subst hupdate
      exact fun _ _ _ hrun => (run_composable_update_ne hb hrun).elim
    · have hb' : c.builderFor (mode.node φ node) = .ok b := by
        unfold Compiler.builderFor at hb ⊢
        simp only [Mode.claims_node hshape hupdate]
        split at hb
        · next hf => simpa only [hf] using hb
        · cases hb
      refine tracks_composable ?_ operation operation'
      cases hshape with
      | source name =>
        rw [Mode.node_source] at hb' ⊢
        rw [Compiler.sequence, Compiler.sequence, hb]
        exact tracks_buildSource hpq name
      | filter source f =>
        obtain ⟨hsource, hf, ht⟩ := hnode.of_filter
        rw [Mode.node_filter] at hb' ⊢
        rw [sequence_filter_over hb, sequence_filter_over hb']
        refine (h.sequence _ _ hsource hpq).bind fun n hn i j hij => ?_
        exact (tracks_restrict h hij.1 (hpq.mono hn) hf ht).then fun _ hk _ => .pure ((hij.mono hk).over rfl)
      | select source f =>
        obtain ⟨hsource, hf⟩ := hnode.of_select
        rw [Mode.node_select] at hb' ⊢
        rw [sequence_select_over hb, sequence_select_over hb']
        refine (h.sequence _ _ hsource hpq).bind fun n hn i j hij => .context hij.1 fun d e _ _ hde => ?_
        rw [hde.statement]
        refine (Tracks.addContext fun _ => ?_).imp fun k _ a b hab => ?_
        · exact .projection mode (.inl hij.1) ((hpq.mono hn).keep (n.later_enter _ _).keeps) hf
        · exact ⟨hab.1, _, _, hab.2.1, hab.2.2, .projection _ _ _ _ _ rfl hf⟩
      | set source member value =>
        obtain ⟨hsource, hmember, hvalue⟩ := hnode.of_set
        rw [Mode.node_set] at hb' ⊢
        rw [Node.set] at hb hb' ⊢
        rw [Node.set, sequence_set_over hb, sequence_set_over hb']
        refine (h.sequence _ _ hsource hpq).bind fun n hn i j hij => ?_
        refine (tracks_setOver hij hmember fun k hk path => ?_).imp fun _ _ _ _ hkl => hkl.over rfl
        exact tracks_setPlain h (hk.same hij.1) ((hpq.mono hn).mono hk) hmember hvalue path
      | setWith source member value =>
        obtain ⟨hsource, hmember, hvalue, hlast⟩ := hnode.of_setWith
        rw [Mode.node_setWith] at hb' ⊢
        rw [Node.setWith] at hb hb' ⊢
        rw [Node.setWith, sequence_set_over hb, sequence_set_over hb']
        refine (h.sequence _ _ hsource hpq).bind fun n hn i j hij => ?_
        refine (tracks_setOver hij hmember fun k hk path => ?_).imp fun _ _ _ _ hkl => hkl.over rfl
        exact tracks_setLambda h (hij.mono hk) ((hpq.mono hn).mono hk) hvalue hlast path
      | update | updateWith | updateWhere | updateInto => exact (hupdate rfl).elim

omit h

/-- Calls may be nested deeper on the right. -/
theorem tracks_calls (hc : c.settings.parameterizeConstants = false) (hs : φ.Apart c.schema) {k l : Nat}
    (hkl : k ≤ l) : φ.Calls (c.calls k) (c.calls l) := by
  induction k using Nat.strong_induction_on generalizing l with
  | _ k ih =>
    have hconstruct : ∀ {b bs s v t}, ((c.calls l).value b (.construct bs)).run s ≠ (.ok v, t) := by
      cases l <;> exact nofun
    cases k with
    | zero =>
      exact ⟨fun _ _ => .throw _, fun _ _ _ => .throw _, fun _ _ => .throw _, fun _ _ _ => .throw _,
        fun _ _ _ _ => .throw _, hconstruct⟩
    | succ k =>
      obtain ⟨l, rfl⟩ := Nat.exists_eq_succ_of_ne_zero (Nat.ne_zero_of_lt hkl)
      have hkl := Nat.le_of_succ_le_succ hkl
      have hdeep : φ.Deep c k := fun j l hj hl => ih j (Nat.lt_succ_of_le hj) hl
      have h := hdeep k l (Nat.le_refl k) hkl
      exact ⟨tracks_value hc hdeep hkl, tracks_condition hc hdeep hkl, fun steps hij => tracks_classify h hs hij steps,
        fun steps extent hij => tracks_members h hij steps extent,
        fun operation operation' hnode hpq => tracks_sequence h hnode hpq operation operation', hconstruct⟩

end Fusion
end ObjectQuery
