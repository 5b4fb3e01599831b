import ObjectQuery.Proofs.Enumeration.Addresses
import ObjectQuery.Proofs.Fusion.Seat
import ObjectQuery.Proofs.Twins.Values

/-!
What steps denote relative to sequences that stand for each other. An object has the same members on both sides,
whatever their values have become.
-/
namespace ObjectQuery

open Build Compiler

def Context.constructedAt : Context → List String → List String
  | .projection _ _ _ f _, steps => f.body.constructedAt steps
  | _, _ => []

theorem Context.constructedAt_of_bare {d e : Context} (h : e.bare = d.bare) (steps : List String) :
    e.constructedAt steps = d.constructedAt steps := by
  cases d with
  | table | association => cases e <;> first | rfl | cases h
  | projection | lambda | update => rw [Context.eq_of_bare h rfl]

namespace Compiler

variable {rec : Calls} {id q : ContextId} {f : Lambda} {e : Expr}

theorem ite_classifyProjected (steps : List String) :
    (if f.body.bindings?.isNone then classifyValue rec id q f f.body.strip steps
      else classifyProjected rec id q f f.body.strip steps) = classifyProjected rec id q f f.body steps := by
  split
  · next hnone => rw [classifyProjected_of_bindings?_eq_none (Option.isNone_iff_eq_none.mp hnone)]
  · exact classifyProjected_strip ..

end Compiler

namespace Fusion

variable {φ : Fusion} {m n : φ.Moment} {i j k l o o' a b : ContextId} {p q : Option ContextId} {mode : Mode} {e : Expr}
  {f : Lambda} {node : Node}

/-- The same columns and values, and rows and objects that stand for each other. -/
inductive Denotes (m : φ.Moment) : Denotation → Denotation → Prop
  | table {i j : ContextId} (rows : m.same i j) : Denotes m (.table i) (.table j)
  | association {i j : ContextId} (rows : m.same i j) : Denotes m (.association i) (.association j)
  | field (column : ColumnId) (aliasName : String) : Denotes m (.field column aliasName) (.field column aliasName)
  | computed (v : SqlExpr) : Denotes m (.computed v) (.computed v)
  | object {i j : ContextId} (owner : m.same i j) (steps : List String) (members : ∀ d e, m.left.contexts[i]? = some d →
      m.right.contexts[j]? = some e → e.constructedAt steps = d.constructedAt steps) :
    Denotes m (.object i steps) (.object j steps)

theorem Denotes.of_later {d e : Context} {steps : List String} (hij : m.same i j) (hmn : m.Later n)
    (hd : m.left.contexts[i]? = some d) (he : m.right.contexts[j]? = some e)
    (hmembers : e.constructedAt steps = d.constructedAt steps) : Denotes n (.object i steps) (.object j steps) := by
  obtain ⟨d₁, hd₁, hbare⟩ := hmn.left i d hd
  obtain ⟨e₁, he₁, hbare'⟩ := hmn.right j e he
  refine .object (hmn.same hij) steps fun d' e' hd' he' => ?_
  obtain rfl := Option.some.inj (hd₁.symm.trans hd')
  obtain rfl := Option.some.inj (he₁.symm.trans he')
  rw [Context.constructedAt_of_bare hbare, Context.constructedAt_of_bare hbare', hmembers]

theorem Denotes.value? {d d' : Denotation} (h : Denotes m d d') : d'.value? = d.value? := by
  cases h <;> rfl

/-- Calls that the compilation without the projection makes when the one with it does. -/
structure Calls (φ : Fusion) (rec rec' : ObjectQuery.Calls) : Prop where
  value : ∀ {m : φ.Moment} {mode a b e}, mode.Takes φ e → m.Holds mode (some a) (some b) →
    Tracks m Equal (rec.value a e) (rec'.value b (mode.expr φ e))
  condition : ∀ {m : φ.Moment} {mode a b e}, mode.Takes φ e → mode.Tests φ e → m.Holds mode (some a) (some b) →
    Tracks m Equal (rec.condition a e) (rec'.condition b (mode.expr φ e))
  classify : ∀ {m : φ.Moment} {i j} (steps), m.same i j →
    Tracks m Denotes (rec.classify i steps) (rec'.classify j steps)
  members : ∀ {m : φ.Moment} {i j} (steps extent), m.same i j →
    Tracks m Equal (rec.members i steps extent) (rec'.members j steps extent)
  sequence : ∀ {m : φ.Moment} {mode p q node} (operation operation'), mode.TakesNode φ node → m.Holds mode p q →
    Tracks m (fun n => n.Seated mode p q node) (composable operation (rec.sequence p node))
      (composable operation' (rec'.sequence q (mode.node φ node)))
  construct : ∀ {b bs s v t}, (rec'.value b (.construct bs)).run s ≠ (.ok v, t)

/-- Computed members do not mention the parameter. -/
def Apart (φ : Fusion) (schema : Schema) : Prop :=
  ∀ (name : String) (e : Entity) (member : String) (f : Lambda),
    schema.mapping.entity? name = some e → e.member? member = some (.computed f) → φ.parameter ∉ f.free

variable {c : Compiler} {rec rec' : ObjectQuery.Calls}

/-! Associations. -/

theorem tracks_entity (name : String) :
    Tracks m (fun _ a b => a = b ∧ c.schema.mapping.entity? name = some a) (c.entity name) (c.entity name) := by
  unfold Compiler.entity
  cases c.schema.mapping.entity? name with
  | none => exact .fail _
  | some e => exact .pure ⟨rfl, rfl⟩

theorem tracks_joinAssociation (hij : m.same i j) (number : StatementId) (name : String) (x : Association)
    (aliasName : Option String) : Tracks m (fun n a b => n.same a b) (c.joinAssociation i number name x aliasName)
      (c.joinAssociation j number name x aliasName) := by
  refine (tracks_entity x.target).bind fun n₁ h₁ target _ htarget => ?_
  obtain ⟨rfl, -⟩ := htarget
  refine Tracks.nextAlias.then fun n₂ h₂ targetAlias => ?_
  refine (Tracks.modifyStatement _ _).then fun n₃ h₃ _ => ?_
  have hij := h₃.same (h₂.same (h₁.same hij))
  refine (Tracks.addContext fun _ => .association (.inl hij) ⟨.nil⟩).bind fun n₄ h₄ rows rows' hrows => ?_
  exact (Tracks.follow (h₄.same hij) hrows.1 name).then fun n₅ h₅ _ => .pure (h₅.same hrows.1)

/-- The association has been followed on both sides, or on neither. -/
theorem tracks_followAssociation (hij : m.same i j) (name : String) (x : Association) :
    Tracks m (fun n a b => n.same a b) (c.followAssociation i name x) (c.followAssociation j name x) := by
  refine .context hij fun d e _ _ hde => ?_
  rw [hde.statement]
  have hrows := hde.rows?
  generalize d.rows? = r at hrows
  generalize e.rows? = r' at hrows
  cases hrows with
  | none => exact tracks_joinAssociation hij _ name x none
  | some hrr =>
    obtain ⟨hfollowed⟩ := hrr
    have hlookup := Entry.lookup hfollowed name
    simp only [Option.elim_some, Option.map_some]
    generalize List.lookup name _ = y at hlookup
    generalize List.lookup name _ = z at hlookup
    cases hlookup with
    | none => exact tracks_joinAssociation hij _ name x _
    | some hyz => exact .pure hyz

/-! Projections that stand for each other. -/

namespace Moment

structure Projects (m : φ.Moment) (mode : Mode) (f : Lambda) (o o' i j : ContextId) : Prop where
  same : m.same i j
  sequence : m.same o o'
  takes : mode.TakesLambda φ f
  contexts : ∃ p q number scalar scalar', m.Holds mode p q ∧
    m.left.contexts[i]? = some (.projection p number o f scalar) ∧
    m.right.contexts[j]? = some (.projection q number o' (mode.lambda φ f) scalar')

end Moment

variable (h : φ.Calls rec rec')

include h

theorem tracks_classifyMember (hc : φ.Apart c.schema) (hij : m.same i j) (steps : List String) :
    Tracks m Denotes (c.classifyMember rec i steps) (c.classifyMember rec' j steps) := by
  refine .context hij fun d e hd he hde => ?_
  cases steps with
  | nil =>
    cases hde with
    | association => exact .pure (.association hij)
    | table | projection | lambda | read => exact .pure (.table hij)
  | cons step steps =>
    have hrows := hde.rows?
    have hmembers : ∀ r, d.rows? = some r → ∀ steps, e.constructedAt steps = d.constructedAt steps := by
      intro r hr steps
      cases hde with
      | table | association => rfl
      | projection | lambda | read => cases hr
    dsimp only
    generalize d.rows? = r at hrows hmembers
    generalize e.rows? = r' at hrows
    cases hrows with
    | none => exact .fail _
    | some hrr =>
      obtain ⟨-⟩ := hrr
      refine (tracks_entity _).bind fun n hn entity _ h' => ?_
      obtain ⟨rfl, hentity⟩ := h'
      split
      · exact .pure (.field _ _)
      · next f hlongest =>
        have hself := hn.same hij
        have hf : Mode.absent.TakesLambda φ f := hc _ _ _ _ hentity (member?_of_longestMember? hlongest)
        have hsees : n.Holds .absent (some i) (some j) := Moment.Sees.same hself
        refine Tracks.under hself hsees hf fun k hk a b hab => ?_
        have hbody : (Mode.under φ f.row? .absent).expr φ f.body = f.body := (Mode.body_lambda .absent f).symm
        have hvalue := h.value hf.body hab
        rw [hbody] at hvalue
        exact hvalue.map fun _ _ v w (hvw : v = w) => hvw ▸ .computed v
      · exact (tracks_followAssociation (hn.same hij) _ _).bind fun _ _ _ _ ht => h.classify _ ht
      · exact .fail _
      · split
        · exact .pure (.of_later hij hn hd he (hmembers _ rfl _))
        · exact .fail _

theorem tracks_classifyValue (hp : m.Projects mode f o o' i j) (he : (mode.under φ f.row?).Takes φ e)
    (steps : List String) :
    Tracks m Denotes (classifyValue rec i o f e steps)
      (classifyValue rec' j o' (mode.lambda φ f) ((mode.under φ f.row?).expr φ e) steps) := by
  unfold classifyValue
  rw [Mode.row?_lambda, Mode.filter_path hp.takes]
  split
  · exact h.classify _ hp.sequence
  · cases steps with
    | nil =>
      obtain ⟨p, q, number, scalar, scalar', hpq, hl, hr⟩ := hp.contexts
      refine .context hp.same fun d d' hd hd' _ => ?_
      obtain rfl := Option.some.inj (hl.symm.trans hd)
      obtain rfl := Option.some.inj (hr.symm.trans hd')
      refine Tracks.under hp.sequence hpq hp.takes fun n _ a b hab => ?_
      exact (h.value he hab).map fun _ _ v w (hvw : v = w) => hvw ▸ .computed v
    | cons => exact .fail _

theorem run_classifyValue_construct_ne {bs : List (String × Expr)} {steps : List String} {s t : BuildState}
    {d : Denotation} : (classifyValue rec' i o f (.construct bs) steps).run s ≠ (.ok d, t) := by
  intro hrun
  cases steps with
  | nil =>
    obtain ⟨_, _, -, hrun⟩ := exists_of_run_bind hrun
    obtain ⟨_, _, -, hrun⟩ := exists_of_run_bind hrun
    obtain ⟨_, hvalue, -⟩ := exists_of_run_map hrun
    exact h.construct hvalue
  | cons => cases hrun

/-- What is no construction stands for something only if it has not become one. -/
theorem tracks_of_bindings?_eq_none (hp : m.Projects mode f o o' i j) (he : (mode.under φ f.row?).Takes φ e)
    (hb : e.bindings? = none) (steps : List String) :
    Tracks m (fun n d d' => ((mode.under φ f.row?).expr φ e).bindings? = none ∧ Denotes n d d')
      (classifyProjected rec i o f e steps)
      (classifyProjected rec' j o' (mode.lambda φ f) ((mode.under φ f.row?).expr φ e) steps) := by
  have hvalue := tracks_classifyValue h hp he.strip steps
  rw [classifyProjected_of_bindings?_eq_none hb]
  rw [← Mode.strip_expr] at hvalue
  cases hb' : ((mode.under φ f.row?).expr φ e).bindings? with
  | none =>
    rw [classifyProjected_of_bindings?_eq_none hb']
    exact hvalue.imp fun _ _ _ _ hd => ⟨rfl, hd⟩
  | some bs =>
    rw [Expr.strip_of_bindings? hb'] at hvalue
    exact hvalue.of_never fun _ _ _ => run_classifyValue_construct_ne h

/-- On the way through constructions, an object of the projection is known by the steps still to go. -/
theorem tracks_classifyProjected (hp : m.Projects mode f o o' i j) (he : (mode.under φ f.row?).Takes φ e)
    (steps : List String) :
    Tracks m (fun n d d' => ((mode.under φ f.row?).expr φ e).constructedAt steps = e.constructedAt steps ∧
        (Denotes n d d' ∨ d = .object i steps ∧ d' = .object j steps))
      (classifyProjected rec i o f e steps)
      (classifyProjected rec' j o' (mode.lambda φ f) ((mode.under φ f.row?).expr φ e) steps) := by
  induction steps generalizing e with
  | nil =>
    cases hb : e.bindings? with
    | none =>
      refine (tracks_of_bindings?_eq_none h hp he hb []).imp fun n _ d d' hd => ⟨?_, .inl hd.2⟩
      simp only [Expr.constructedAt, hb, hd.1]
    | some bs =>
      simp only [classifyProjected, hb, Mode.bindings?_expr hb]
      refine .pure ⟨?_, .inr ⟨rfl, rfl⟩⟩
      simp only [Expr.constructedAt, hb, Mode.bindings?_expr hb, Option.getD_some, Mode.map_fst_bindings]
  | cons name rest ih =>
    cases hb : e.bindings? with
    | none =>
      refine (tracks_of_bindings?_eq_none h hp he hb (name :: rest)).imp fun n _ d d' hd => ⟨?_, .inl hd.2⟩
      simp only [Expr.constructedAt, hb, hd.1]
    | some bs =>
      simp only [classifyProjected, Expr.constructedAt, hb, Mode.bindings?_expr hb, Option.getD_some,
        Mode.lookup_bindings]
      cases hvalue : bs.lookup name with
      | none => exact .fail _
      | some value =>
        refine (ih (he.lookup hb hvalue)).bind fun n hn d d' hd => ?_
        obtain ⟨hmembers, hd | ⟨rfl, rfl⟩⟩ := hd
        · cases hd with
          | @object k l owner os hos =>
            -- an object of the projection on the one side is one of the other's on the other
            intro halike
            have hunique := halike.unique owner (hn.same hp.same)
            dsimp only
            by_cases hk : k = i
            · rw [if_pos hk, if_pos (hunique.mp hk)]
              exact Tracks.pure ⟨hmembers, .inr ⟨rfl, rfl⟩⟩ halike
            · rw [if_neg hk, if_neg (mt hunique.mpr hk)]
              exact Tracks.pure ⟨hmembers, .inl (.object owner os hos)⟩ halike
          | table rows => exact .pure ⟨hmembers, .inl (.table rows)⟩
          | association rows => exact .pure ⟨hmembers, .inl (.association rows)⟩
          | field => exact .pure ⟨hmembers, .inl (.field _ _)⟩
          | computed => exact .pure ⟨hmembers, .inl (.computed _)⟩
        · dsimp only
          rw [if_pos rfl, if_pos rfl]
          exact .pure ⟨hmembers, .inr ⟨rfl, rfl⟩⟩

theorem tracks_classify (hc : φ.Apart c.schema) (hij : m.same i j) (steps : List String) :
    Tracks m Denotes (c.classify rec i steps) (c.classify rec' j steps) := by
  refine .context hij fun d e hd he hde => ?_
  cases hde with
  | table | association => exact tracks_classifyMember h hc hij steps
  | @projection p q number o o' f mode hsequence hpq hf =>
    have hp : m.Projects mode f o o' i j := ⟨hij, hsequence, hf, p, q, number, _, _, hpq, hd, he⟩
    have hprojected := tracks_classifyProjected h hp hf.body steps
    rw [← Mode.body_lambda] at hprojected
    dsimp only
    rw [ite_classifyProjected, ite_classifyProjected]
    refine hprojected.imp fun n hn d d' hdd => ?_
    obtain ⟨hmembers, hdd | ⟨rfl, rfl⟩⟩ := hdd
    · exact hdd
    · exact .of_later hij hn hd he hmembers
  | lambda | read => exact .fail _

/-- Errors on the way do not matter where there is a result. -/
theorem tracks_resolve (hpq : m.Holds mode (some a) (some b)) {path : Path}
    (hroot : mode ≠ .kept → path.root ≠ φ.parameter) :
    Tracks m Denotes (resolve rec a path) (resolve rec' b path) := by
  refine (Tracks.rootOf hpq hroot).bind fun n _ i j hij => ?_
  refine (h.classify path.steps hij).answer (fun e => ?_) fun _ _ _ _ hd => .pure hd
  cases e <;> exact ⟨_, rfl⟩

end Fusion
end ObjectQuery
