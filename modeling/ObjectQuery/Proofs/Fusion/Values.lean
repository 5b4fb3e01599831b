import ObjectQuery.Proofs.Fusion.Reach
import ObjectQuery.Proofs.Mirror.Moment

/-!
Values and conditions. What a path at the parameter stands for is a value on the left, wherever it occurs; on the right
the expression in its place is compiled as a condition where a condition is asked for.
-/
namespace ObjectQuery

open Build Compiler

theorem Expr.isCondition_of_path {e : Expr} {path : Path} (h : Path.ofExpr? e = some path) :
    e.isCondition = false := by
  cases e with
  | binary | not | literal => cases h
  | _ => rfl

namespace Compiler

variable {c : Compiler} {rec : Calls} {scope : ContextId} {e : Expr} {path : Path}

theorem value_of_path (hs : e.strip = e) (h : Path.ofExpr? e = some path) :
    c.value rec scope e = pathValue rec scope e := by
  cases e with
  | parameter | member => rfl
  | convert inner => exact (Expr.strip_ne_convert _ inner hs).elim
  | _ => cases h

end Compiler

namespace Fusion

variable {φ : Fusion} {m n : φ.Moment} {a b i j : ContextId} {mode : Mode} {e d : Expr} {f : Lambda} {path : Path}
  {σ : Site} {c : Compiler} {rec rec' : ObjectQuery.Calls}

theorem tracks_pathValue (h : φ.Calls rec rec') (hp : Path.ofExpr? e = some path)
    (hab : m.Holds mode (some a) (some b)) (hroot : mode ≠ .kept → path.root ≠ φ.parameter) :
    Tracks m Equal (pathValue rec a e) (pathValue rec' b e) := by
  rw [pathValue_of_path hp, pathValue_of_path hp]
  refine (tracks_resolve h hab hroot).bind fun n _ d d' hd => ?_
  rw [hd.value?]
  exact .orFail _ _ _

/-- Calls nested at most so deep on the left, and at least so deep on the right. -/
def Deep (φ : Fusion) (c : Compiler) (k : Nat) : Prop :=
  ∀ j l, j ≤ k → j ≤ l → φ.Calls (c.calls j) (c.calls l)

theorem Deep.mono {k k' : Nat} (h : φ.Deep c k) (hk : k' ≤ k) : φ.Deep c k' :=
  fun j l hj hl => h j l (Nat.le_trans hj hk) hl

theorem stands_value {k l : Nat} (h : φ.Deep c k) (hkl : k ≤ l) (hσ : m.site = some σ)
    (hab : m.Holds .fused (some a) (some b)) (hd : d.strip = d) :
    Stands m σ a b (c.calls k) Equal pure d (c.value (c.calls l) b d) := by
  refine ⟨fun path fault hp hroot => ?_, fun n a' _ hn hab' => ?_⟩
  · obtain ⟨-, σ', hσ', -, hr⟩ := hab
    obtain rfl := Option.some.inj (hσ.symm.trans hσ')
    rw [value_of_path hd hp, pathValue_of_path hp]
    simp only [bind_pure]
    refine .resolveRight (hroot ▸ hr) fun halike => ?_
    refine ((h k l (Nat.le_refl k) hkl).classify path.steps (halike.site hσ).1).bind (fun n _ x x' hx => ?_) halike
    rw [hx.value?]
    exact .orFail _ _ _
  · rw [bind_pure]
    exact (h k (l + 1) (Nat.le_refl k) (Nat.le_succ_of_le hkl)).value (show Mode.kept.Takes φ d from trivial) hab'

theorem tracks_valueOfPath {k l : Nat} (h : φ.Deep c k) (hkl : k ≤ l) (he : mode.Takes φ e)
    (hab : m.Holds mode (some a) (some b)) (hs : e.strip = e) (hp : Path.ofExpr? e = some path) :
    Tracks m Equal (pathValue (c.calls k) a e) (c.value (c.calls l) b (mode.expr φ e)) := by
  rcases he.stays_or_fused hp with ⟨hroot, hself⟩ | ⟨rfl, hroot⟩
  · rw [hself, value_of_path hs hp]
    exact tracks_pathValue (h k l (Nat.le_refl k) hkl) hp hab hroot
  · obtain ⟨-, σ, hσ, -⟩ := id hab
    rw [← bind_pure (pathValue _ _ _)]
    refine tracks_replaced hσ hab hp hroot fun j hj d hd => ?_
    subst hj
    have hexpr : Mode.fused.expr φ e = d := by
      have hfused := Expr.fused_strip_of_path (φ := φ) hp
      rwa [hs, hd] at hfused
    rw [hexpr]
    exact stands_value (h.mono (Nat.le_succ j)) (Nat.le_of_succ_le hkl) hσ hab (Fusion.strip_of_replacement? hd)

/-! Conditions. -/

/-- An expression that is compiled as a value on the left, and tested, may be compiled as a condition. -/
theorem tracks_test {k l : Nat} (hc : c.settings.parameterizeConstants = false) (h : φ.Deep c k) (hkl : k ≤ l)
    (hab : m.Holds .kept (some a) (some b)) (hd : d.strip = d)
    (hop : ∀ op lhs rhs, d ≠ .binary (.arithmetic op) lhs rhs) :
    Tracks m Equal ((c.calls k).value a d >>= fun v => pure v.test) (condition (c.calls l) b d) := by
  have htakes : Mode.kept.Takes φ d := trivial
  rw [bind_pure_comp]
  cases k with
  | zero => exact .throw _
  | succ k =>
    obtain hplain | hlogical | ⟨p, hconstant⟩ := test_value_cases hc hop
    · rw [condition_of_isCondition_eq_false (hd.symm ▸ hplain), hd]
      exact ((h (k + 1) l (Nat.le_refl _) hkl).value htakes hab).map fun _ _ _ _ => congrArg SqlExpr.test
    · change Tracks m Equal (SqlExpr.test <$> c.value (c.calls k) a d) _
      rw [hlogical]
      exact (h k (l + 1) (Nat.le_succ k) (by omega)).condition htakes trivial hab
    · change Tracks m Equal (SqlExpr.test <$> c.value (c.calls k) a d) _
      rw [(hconstant _ a).1, (hconstant _ b).2]
      exact .pure rfl

theorem stands_condition {k l : Nat} (hc : c.settings.parameterizeConstants = false) (h : φ.Deep c k) (hkl : k < l)
    (hσ : m.site = some σ) (hab : m.Holds .fused (some a) (some b)) (hd : d.strip = d)
    (hop : ∀ op lhs rhs, d ≠ .binary (.arithmetic op) lhs rhs) :
    Stands m σ a b (c.calls k) Equal (fun v => pure v.test) d (condition (c.calls l) b d) := by
  refine ⟨fun path fault hp hroot => ?_, fun n a' _ hn hab' => tracks_test hc h (Nat.le_of_lt hkl) hab' hd hop⟩
  obtain ⟨l, rfl⟩ := Nat.exists_eq_succ_of_ne_zero (Nat.ne_zero_of_lt hkl)
  have hvalue := (stands_value h (Nat.le_of_lt_succ hkl) hσ hab hd).path path fault hp hroot
  rw [condition_of_isCondition_eq_false (hd.symm ▸ Expr.isCondition_of_path hp), hd, ← bind_pure_comp]
  rw [← bind_assoc]
  simp only [bind_pure] at hvalue
  exact hvalue.then fun _ _ _ => .pure rfl

theorem tracks_conditionOfPath {k l : Nat} (hc : c.settings.parameterizeConstants = false) (h : φ.Deep c k)
    (hkl : k ≤ l) (he : mode.Takes φ e) (ht : mode.Tests φ e) (hab : m.Holds mode (some a) (some b))
    (hp : Path.ofExpr? e = some path) :
    Tracks m Equal (condition (c.calls k) a e) (condition (c.calls l) b (mode.expr φ e)) := by
  have hs : Path.ofExpr? e.strip = some path := (Path.ofExpr?_strip e).trans hp
  have hleft : condition (c.calls k) a e = SqlExpr.test <$> (c.calls k).value a e.strip :=
    condition_of_isCondition_eq_false (Expr.isCondition_of_path hs)
  rcases he.stays_or_fused hp with ⟨-, hself⟩ | ⟨rfl, hroot⟩
  · have hvalue := (h k l (Nat.le_refl k) hkl).value he.strip hab
    rw [← Mode.strip_expr, hself] at hvalue
    rw [hself, hleft, condition_of_isCondition_eq_false (Expr.isCondition_of_path hs)]
    exact hvalue.map fun _ _ _ _ => congrArg SqlExpr.test
  · rw [hleft, ← bind_pure_comp]
    cases k with
    | zero => exact .throw _
    | succ k =>
      obtain ⟨-, σ, hσ, -⟩ := id hab
      change Tracks m Equal (c.value (c.calls k) a e.strip >>= _) _
      rw [value_of_path e.strip_strip hs]
      refine tracks_replaced hσ hab hs hroot fun j hj d hd => ?_
      subst hj
      have hexpr : (Mode.fused.expr φ e).strip = d := by
        have hfused := Expr.fused_strip_of_path (φ := φ) hp
        rw [hd, ← Expr.strip_fused] at hfused
        exact hfused
      rw [← condition_strip _ _ (Mode.fused.expr φ e), hexpr]
      refine stands_condition hc (h.mono (by omega)) (by omega) hσ hab (Fusion.strip_of_replacement? hd) ?_
      exact fun op lhs rhs heq => ht path op lhs rhs hp (heq ▸ hd)

theorem isCondition_expr (hs : e.strip = e) (hp : Path.ofExpr? e = none) :
    (mode.expr φ e).isCondition = e.isCondition := by
  cases mode with
  | kept | absent => rfl
  | fused =>
    cases e with
    | parameter => cases hp
    | member object name =>
      simp only [Mode.expr, Expr.fused, hp]
      rfl
    | convert inner => exact (Expr.strip_ne_convert _ inner hs).elim
    | _ => rfl

theorem tracks_condition {k l : Nat} (hc : c.settings.parameterizeConstants = false) (h : φ.Deep c k)
    (hkl : k ≤ l) (he : mode.Takes φ e) (ht : mode.Tests φ e) (hab : m.Holds mode (some a) (some b)) :
    Tracks m Equal (condition (c.calls k) a e) (condition (c.calls l) b (mode.expr φ e)) := by
  cases hp : Path.ofExpr? e with
  | some path => exact tracks_conditionOfPath hc h hkl he ht hab hp
  | none =>
    have hrec := h k l (Nat.le_refl k) hkl
    rw [← condition_strip, ← condition_strip _ _ (mode.expr φ e), Mode.strip_expr]
    rw [← Path.ofExpr?_strip] at hp
    have he := he.strip
    have hstrip := e.strip_strip
    generalize e.strip = d at hp he hstrip
    cases hcond : d.isCondition with
    | false =>
      rw [condition_of_isCondition_eq_false (hstrip.symm ▸ hcond), condition_of_isCondition_eq_false]
      · rw [Mode.strip_expr, hstrip]
        exact (hrec.value he hab).map fun _ _ _ _ => congrArg SqlExpr.test
      · rw [Mode.strip_expr, hstrip, isCondition_expr hstrip hp, hcond]
    | true =>
      cases d with
      | binary op lhs rhs =>
        obtain ⟨hl, hr⟩ := he.binary
        rw [Mode.expr_binary]
        cases op with
        | and =>
          obtain ⟨htl, htr⟩ := he.tests (.inl rfl)
          exact (hrec.condition hl htl hab).then fun n hn _ =>
            (hrec.condition hr htr (hab.mono hn)).then fun _ _ _ => .pure rfl
        | or =>
          obtain ⟨htl, htr⟩ := he.tests (.inr rfl)
          exact (hrec.condition hl htl hab).then fun n hn _ =>
            (hrec.condition hr htr (hab.mono hn)).then fun _ _ _ => .pure rfl
        | comparison op =>
          exact (hrec.value hl hab).then fun n hn _ => (hrec.value hr (hab.mono hn)).then fun _ _ _ => .pure rfl
        | arithmetic op => exact .fail _
      | not inner =>
        obtain ⟨hinner, htinner⟩ := he.not
        rw [Mode.expr_not]
        exact (hrec.condition hinner htinner hab).map fun _ _ _ _ => congrArg Predicate.negate
      | literal v =>
        cases v with
        | bool v =>
          cases mode <;> exact .pure rfl
        | _ => cases hcond
      | _ => cases hcond

/-! Sub-queries. -/

theorem tracks_aggregateArgument (h : φ.Calls rec rec') (hij : m.same i j) (hab : m.Holds mode (some a) (some b))
    (function : Aggregate) (selector : Option Lambda) (hf : ∀ f, selector = some f → mode.TakesLambda φ f) :
    Tracks m Equal (aggregateArgument rec a function selector i)
      (aggregateArgument rec' b function (selector.map (mode.lambda φ)) j) := by
  cases selector with
  | some f =>
    have hf := hf f rfl
    refine Tracks.under hij hab hf fun n _ a b hab => ?_
    rw [Mode.body_lambda]
    exact h.value hf.body hab
  | none =>
    cases function with
    | count => exact .pure rfl
    | _ =>
      refine (h.members [] .field hij).then fun _ _ items => ?_
      split
      · exact .pure rfl
      · exact .fail _

theorem tracks_aggregate (h : φ.Calls rec rec') (hab : m.Holds mode (some a) (some b)) (function : Aggregate)
    {source : Node} {selector : Option Lambda} (hsource : mode.TakesNode φ source)
    (hf : ∀ f, selector = some f → mode.TakesLambda φ f) :
    Tracks m Equal (aggregate rec a function source selector)
      (aggregate rec' b function (mode.node φ source) (selector.map (mode.lambda φ))) := by
  rw [aggregate, aggregate, ← composable_bind, ← composable_bind]
  refine (h.sequence _ _ hsource hab).bind fun n hn i j hij => ?_
  refine (tracks_aggregateArgument h hij.1 (hab.mono hn) function selector hf).then fun n' hn' argument => ?_
  refine .context (hn'.same hij.1) fun d e _ _ hde => ?_
  rw [hde.statement]
  exact (Tracks.modifyStatement _ _).then fun _ _ _ => .pure rfl

theorem tracks_value {k l : Nat} (hc : c.settings.parameterizeConstants = false) (h : φ.Deep c k) (hkl : k ≤ l)
    (he : mode.Takes φ e) (hab : m.Holds mode (some a) (some b)) :
    Tracks m Equal (c.value (c.calls k) a e) (c.value (c.calls l) b (mode.expr φ e)) := by
  have hrec := h k l (Nat.le_refl k) hkl
  have hpath : e.strip = e → c.value (c.calls k) a e = pathValue (c.calls k) a e →
      Tracks m Equal (c.value (c.calls k) a e) (c.value (c.calls l) b (mode.expr φ e)) := by
    intro hs heq
    rw [heq]
    cases hp : Path.ofExpr? e with
    | some path => exact tracks_valueOfPath h hkl he hab hs hp
    | none =>
      rw [pathValue, hp]
      exact .fail _
  have hlogical : ∀ {d : Expr}, mode.Takes φ d → mode.Tests φ d →
      Tracks m Equal (SqlExpr.condition <$> (c.calls k).condition a d)
        (SqlExpr.condition <$> (c.calls l).condition b (mode.expr φ d)) := fun hd ht =>
    (hrec.condition hd ht hab).map fun _ _ _ _ => congrArg SqlExpr.condition
  cases e with
  | literal v =>
    have hself : mode.expr φ (.literal v) = .literal v := by cases mode <;> rfl
    rw [hself]
    simp only [Compiler.value, hc]
    exact .pure rfl
  | «external» name => cases mode <;> exact .pure rfl
  | null => cases mode <;> exact .pure rfl
  | convert inner =>
    rw [Mode.expr_convert]
    exact hrec.value he.convert hab
  | parameter | member => exact hpath rfl rfl
  | binary op lhs rhs =>
    obtain ⟨hl, hr⟩ := he.binary
    cases op with
    | arithmetic op =>
      rw [Mode.expr_binary]
      exact (hrec.value hl hab).then fun n hn _ => (hrec.value hr (hab.mono hn)).then fun _ _ _ => .pure rfl
    | and | or | comparison =>
      have htracks := hlogical he (Mode.tests_of_pathless rfl)
      rw [Mode.expr_binary] at htracks ⊢
      exact htracks
  | not inner =>
    have htracks := hlogical he (Mode.tests_of_pathless rfl)
    rw [Mode.expr_not] at htracks ⊢
    exact htracks
  | call function args =>
    rw [Mode.expr_call]
    have hargs : List.Forall₂ (fun x y => mode.Takes φ x ∧ y = mode.expr φ x) args (args.map (mode.expr φ)) := by
      rw [List.forall₂_map_right_iff, List.forall₂_same]
      exact fun x hx => ⟨he.call x hx, rfl⟩
    refine (Tracks.mapM hargs ?_).map fun _ _ _ _ => congrArg (SqlExpr.function function)
    rintro n hn x _ ⟨hx, rfl⟩
    exact hrec.value hx (hab.mono hn)
  | construct bindings => exact .fail _
  | aggregate function source selector =>
    obtain ⟨hsource, hf⟩ := he.aggregate
    rw [Mode.expr_aggregate]
    exact (tracks_aggregate hrec hab function hsource hf).inContext

end Fusion
end ObjectQuery
