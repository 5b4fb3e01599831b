import ObjectQuery.Proofs.Fusion.Resolve

/-!
Paths at the parameter. On the left they are looked up in the projection, whose body is compiled below a scope of its
own. On the right what they reach there is compiled at once, in the scope of the condition.
-/
namespace ObjectQuery

open Build Compiler

namespace Fusion

variable {φ : Fusion} {m n : φ.Moment} {a b i : ContextId} {p : Option ContextId} {mode : Mode} {e d : Expr}
  {f : Lambda} {path : Path} {σ : Site} {α β γ δ : Type} {Q : φ.Moment → γ → δ → Prop}

namespace Moment

/-- The row of the projection, seen from the scope that it has on the left, is the one that the condition has on the
right. -/
theorem Alike.holds_inside (h : m.Alike) (hσ : m.site = some σ) (hab : m.Holds .fused (some a) (some b))
    (number : StatementId) : (m.enterLeft (.lambda none number [(φ.row, σ.rows)])).Holds .kept
      (some m.left.contexts.length) (some b) := by
  obtain ⟨hsees, σ', hσ', -, hrow⟩ := hab
  obtain rfl := Option.some.inj (hσ.symm.trans hσ')
  have hlt := (h.lt_length (h.site hσ).1).1
  refine ⟨.inside ⟨σ, number, hσ, m.left.getElem?_enter_self _, hrow, hsees.exists_same⟩, ?_⟩
  by_cases hx : φ.row = φ.parameter
  · refine ⟨some σ.rows, hx ▸ .entered hlt, ?_⟩
    rintro _ ⟨⟩
    exact ⟨σ.rows', hx ▸ hrow, (h.site hσ).1⟩
  · exact ⟨none, Finds.enter .unbound hx, nofun⟩

end Moment

namespace Tracks

variable {next : α → Build γ} {next' : β → Build δ} {act act' : Build γ} {right : Build δ}

theorem of_left (h : ∀ a s, act.run m.left = (.ok a, s) → act'.run m.left = (.ok a, s)) (h' : Tracks m Q act' right) :
    Tracks m Q act right :=
  fun halike a s hrun => h' halike a s (h a s hrun)

theorem contextLeft {c : Context} (hc : m.left.contexts[i]? = some c) {next : Context → Build γ}
    (hn : Tracks m Q (next c) right) : Tracks m Q (Build.context i >>= next) right :=
  .of_left (fun a s hrun => by rwa [run_bind_of (run_context_of hc)] at hrun) hn

theorem scopeLeft {row : String} {c : Context} (hrow : f.row? = some row) (hc : m.left.contexts[i]? = some c)
    {next : ContextId → Build γ}
    (hn : Tracks (m.enterLeft (.lambda p c.statement [(row, i)])) Q (next m.left.contexts.length) right) :
    Tracks m Q (lambdaScope f i p >>= next) right := by
  intro halike a s hrun
  rw [run_bind_of (run_lambdaScope hrow hc p)] at hrun
  obtain ⟨n, b, hs, hlater, hnow, hrun', hab⟩ := hn (halike.enterLeft _) a s hrun
  exact ⟨n, b, hs, (m.later_enterLeft _).trans hlater, hnow, hrun', hab⟩

end Tracks

/-- Once the root is known, a result is that of the steps from there. -/
theorem of_run_resolve_bind {rec : ObjectQuery.Calls} {s t : BuildState} {next : Denotation → Build γ} {v : γ}
    (hfind : Finds s.contexts path.root (some a) (some i)) (hrun : (resolve rec a path >>= next).run s = (.ok v, t)) :
    (rec.classify i path.steps >>= next).run s = (.ok v, t) := by
  obtain ⟨x, u, hresolve, hnext⟩ := exists_of_run_bind hrun
  obtain ⟨k, _, hroot, hclassify⟩ := exists_of_run_bind hresolve
  obtain ⟨hbound, rfl⟩ := of_run_rootOf hroot
  rw [hfind.bindingFrom _ hfind.lt_length] at hbound
  obtain rfl := Option.some.inj (Except.ok.inj hbound)
  have hx := of_run_attempt_bind (fun e => by cases e <;> exact ⟨_, rfl⟩) hclassify
  rw [show (fun d => pure d) = (pure : Denotation → Build Denotation) from rfl, bind_pure] at hx
  rw [run_bind_of hx, hnext]

theorem run_resolve_bind_of {rec : ObjectQuery.Calls} {s t : BuildState} {next : Denotation → Build γ} {v : γ}
    (hfind : Finds s.contexts path.root (some a) (some i))
    (hrun : (rec.classify i path.steps >>= next).run s = (.ok v, t)) :
    (resolve rec a path >>= next).run s = (.ok v, t) := by
  have hroot : (rootOf a path).run s = (.ok i, s) := by
    rw [run_rootOf (hfind.bindingFrom _ hfind.lt_length)]
    rfl
  rw [resolve, bind_assoc, run_bind_of hroot]
  obtain ⟨x, u, hclassify, hnext⟩ := exists_of_run_bind hrun
  rw [run_bind, run_attempt_bind_of (b := x) (t := u) (by rw [run_bind_of hclassify]; rfl)]
  exact hnext

theorem Tracks.resolveLeft {rec : ObjectQuery.Calls} {next : Denotation → Build γ} {right : Build δ}
    (hfind : Finds m.left.contexts path.root (some a) (some i))
    (h : Tracks m Q (rec.classify i path.steps >>= next) right) : Tracks m Q (resolve rec a path >>= next) right :=
  .of_left (fun _ _ => of_run_resolve_bind hfind) h

theorem Tracks.resolveRight {rec : ObjectQuery.Calls} {left : Build γ} {next : Denotation → Build δ}
    (hfind : Finds m.right.contexts path.root (some b) (some i))
    (h : Tracks m Q left (rec.classify i path.steps >>= next)) : Tracks m Q left (resolve rec b path >>= next) := by
  intro halike v s hrun
  obtain ⟨n, w, hs, hlater, hnow, hrun', hvw⟩ := h halike v s hrun
  exact ⟨n, w, hs, hlater, hnow, run_resolve_bind_of hfind hrun', hvw⟩

/-- What is done with a value that the projection has goes on in the same way with the expression itself: with a path
at the row of the projection from its rows, and with any other expression from the scope of the projection. -/
structure Stands (m : φ.Moment) (σ : Site) (a b : ContextId) (rec : ObjectQuery.Calls)
    (Q : φ.Moment → γ → δ → Prop) (next : SqlExpr → Build γ) (d : Expr) (right : Build δ) : Prop where
  path : ∀ path fault, Path.ofExpr? d = some path → path.root = φ.row →
    Tracks m Q (rec.classify σ.rows path.steps >>= fun x => Build.orFail fault x.value? >>= next) right
  value : ∀ n a', (∀ path, Path.ofExpr? d = some path → path.root ≠ φ.row) → m.Later n →
    n.Holds .kept (some a') (some b) → Tracks n Q (rec.value a' d >>= next) right

variable {rec : ObjectQuery.Calls} {next : SqlExpr → Build γ} {right : Build δ}

/-- What the steps reach in a part of the projection that is no construction. -/
theorem tracks_reachValue (hσ : m.site = some σ) (hab : m.Holds .fused (some a) (some b)) (steps : List String)
    (fault : CompileError) (hd : ∀ d, e.reached? φ.row steps = some d → Stands m σ a b rec Q next d right) :
    Tracks m Q (classifyValue rec σ.projection σ.rows φ.projection e.strip steps >>= fun x =>
      Build.orFail fault x.value? >>= next) right := by
  unfold classifyValue
  rw [Path.ofExpr?_strip, φ.row?_projection]
  cases hp : (Path.ofExpr? e).filter (some φ.row = some ·.root) with
  | some path =>
    obtain ⟨hpath, hroot⟩ := Option.filter_eq_some_iff.mp hp
    have hroot : path.root = φ.row := (Option.some.inj (of_decide_eq_true hroot)).symm
    exact (hd _ (Expr.reached?_of_path hpath hroot steps)).path _ fault
      (Path.ofExpr?_access ((Path.ofExpr?_strip e).trans hpath) steps) hroot
  | none =>
    cases steps with
    | cons => exact .fail _
    | nil =>
      intro halike
      obtain ⟨hrows, -, number, hprojection⟩ := halike.site hσ
      obtain ⟨c, -, hc, -⟩ := halike.contexts hrows
      simp only [bind_assoc, bind_map_left, Denotation.value?, Build.orFail, pure_bind]
      refine Tracks.contextLeft hprojection ?_ halike
      refine .scopeLeft φ.row?_projection hc ?_
      refine (hd _ rfl).value _ _ (fun path hpath hroot => ?_) (m.later_enterLeft _) (halike.holds_inside hσ hab _)
      rw [Path.ofExpr?_strip] at hpath
      simp [hpath, hroot] at hp

theorem tracks_reach (hσ : m.site = some σ) (hab : m.Holds .fused (some a) (some b)) (steps : List String)
    (fault : CompileError) (hd : ∀ d, e.reached? φ.row steps = some d → Stands m σ a b rec Q next d right) :
    Tracks m Q (classifyProjected rec σ.projection σ.rows φ.projection e steps >>= fun x =>
      Build.orFail fault x.value? >>= next) right := by
  induction steps generalizing e with
  | nil =>
    cases hb : e.bindings? with
    | none =>
      rw [classifyProjected_of_bindings?_eq_none hb]
      exact tracks_reachValue hσ hab [] fault hd
    | some bs =>
      simp only [classifyProjected, hb]
      exact .fail _
  | cons name rest ih =>
    cases hb : e.bindings? with
    | none =>
      rw [classifyProjected_of_bindings?_eq_none hb]
      exact tracks_reachValue hσ hab (name :: rest) fault hd
    | some bs =>
      cases hvalue : bs.lookup name with
      | none =>
        simp only [classifyProjected, hb, hvalue]
        exact .fail _
      | some value =>
        simp only [classifyProjected, hb, hvalue, bind_assoc]
        refine .of_left (fun v s hrun => ?_) (ih fun d hreach => hd d (by rw [Expr.reached?, hb]; simpa [hvalue]))
        obtain ⟨x, t, hclassify, hnext⟩ := exists_of_run_bind hrun
        rw [run_bind_of hclassify]
        cases x with
        | object owner os =>
          dsimp only at hnext
          split at hnext <;> cases hnext
        | table | association | field | computed => exact hnext

variable {c : Compiler}

theorem tracks_replaced {k : Nat} (hσ : m.site = some σ) (hab : m.Holds .fused (some a) (some b))
    (hp : Path.ofExpr? e = some path) (hroot : path.root = φ.parameter)
    (hd : ∀ j, k = j + 1 → ∀ d, φ.replacement? path = some d → Stands m σ a b (c.calls j) Q next d right) :
    Tracks m Q (pathValue (c.calls k) a e >>= next) right := by
  intro halike
  obtain ⟨-, -, number, hprojection⟩ := halike.site hσ
  have hfind : Finds m.left.contexts path.root (some a) (some σ.projection) := by
    obtain ⟨-, σ', hσ', hl, -⟩ := hab
    obtain rfl := Option.some.inj (hσ.symm.trans hσ')
    rwa [hroot]
  rw [pathValue_of_path hp, bind_assoc]
  refine Tracks.resolveLeft hfind ?_ halike
  cases k with
  | zero => exact .throw _
  | succ k =>
    change Tracks m Q (c.classify (c.calls k) σ.projection path.steps >>= _) right
    rw [Compiler.classify, bind_assoc]
    refine .contextLeft hprojection ?_
    dsimp only
    rw [ite_classifyProjected]
    refine tracks_reach hσ hab path.steps _ fun d hreach => hd k rfl d ?_
    rw [Fusion.replacement?, if_pos hroot, hreach]

end Fusion
end ObjectQuery
