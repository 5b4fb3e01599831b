import ObjectQuery.Proofs.Repeated.Shifted

/-!
What steps denote when they are resolved again: the same columns, and images of rows and objects.
-/
namespace ObjectQuery

open Build Compiler

namespace Replay

variable {R : Replay} {m n : R.Moment} {ℓ : Prop} {i j o o' a b : ContextId} {p q : Option ContextId}

inductive Denotes (ℓ : Prop) (m : R.Moment) : Denotation → Denotation → Prop
  | table {i j : ContextId} (rows : m.At ℓ i j) : Denotes ℓ m (.table i) (.table j)
  | association {i j : ContextId} (rows : m.At ℓ i j) : Denotes ℓ m (.association i) (.association j)
  | field (k : ColumnId) {a a' : String} (aliases : ℓ → m.Honest → a' = a) : Denotes ℓ m (.field k a) (.field k a')
  | computed {v v' : SqlExpr} (value : m.Shifted ℓ v v') : Denotes ℓ m (.computed v) (.computed v')
  | object {i j : ContextId} (owner : m.At ℓ i j) (steps : List String) :
    Denotes ℓ m (.object i steps) (.object j steps)

theorem Denotes.value? {d d' : Denotation} (h : Denotes ℓ m d d') :
    Option.Rel (m.Shifted ℓ) d.value? d'.value? := by
  cases h with
  | field k aliases => exact .some (.column k aliases)
  | computed value => exact .some value
  | table | association | object => exact .none

/-- A name and a value on either side. -/
def Member (ℓ : Prop) (m : R.Moment) (x y : Option String × SqlExpr) : Prop :=
  y.1 = x.1 ∧ m.Shifted ℓ x.2 y.2

/-- Calls that can be made again. -/
structure Calls (R : Replay) (c : Compiler) (rec : ObjectQuery.Calls) : Prop where
  value : ∀ {m : R.Moment} {ℓ a b} (e), m.At ℓ a b → Repeats c m (Moment.Shifted ℓ) (rec.value a e) (rec.value b e)
  condition : ∀ {m : R.Moment} {ℓ a b} (e), m.At ℓ a b →
    Repeats c m (fun n p q => n.Shifted ℓ (.condition p) (.condition q)) (rec.condition a e) (rec.condition b e)
  classify : ∀ {m : R.Moment} {ℓ i j} (steps), m.At ℓ i j →
    Repeats c m (Denotes ℓ) (rec.classify i steps) (rec.classify j steps)
  members : ∀ {m : R.Moment} {ℓ i j} (steps extent), m.At ℓ i j →
    Repeats c m (fun n => List.Forall₂ (Member ℓ n)) (rec.members i steps extent) (rec.members j steps extent)
  sequence : ∀ {m : R.Moment} {p q} (operation node), Option.Rel (m.At False) p q →
    Repeats c m Moment.Own (composable operation (rec.sequence p node)) (composable operation (rec.sequence q node))

variable {c : Compiler} {rec : ObjectQuery.Calls} {f : Lambda} {e : Expr}

theorem repeats_entity (name : String) :
    Repeats c m (fun _ a b => b = a ∧ c.schema.mapping.entity? name = some a) (c.entity name) (c.entity name) := by
  unfold Compiler.entity
  cases c.schema.mapping.entity? name with
  | none => exact .fail _
  | some e => exact .pure ⟨rfl, rfl⟩

variable (h : R.Calls c rec)

include h

theorem repeats_under (f : Lambda) (e : Expr) (hij : m.At ℓ i j) (hpq : Option.Rel (m.At ℓ) p q) :
    Repeats c m (Denotes ℓ) (lambdaScope f i p >>= fun scope => .computed <$> rec.value scope e)
      (lambdaScope f j q >>= fun scope => .computed <$> rec.value scope e) :=
  (Repeats.lambdaScope f hij hpq).bind fun _ _ _ _ hab => (h.value e hab).map fun _ _ _ _ hv => .computed hv

theorem repeats_classifyMember (hij : m.At ℓ i j) (steps : List String) :
    Repeats c m (Denotes ℓ) (c.classifyMember rec i steps) (c.classifyMember rec j steps) := by
  refine .context hij fun d e hd he hde _ => ?_
  cases steps with
  | nil =>
    cases hde with
    | association => exact .pure (.association hij)
    | table | projection | lambda | update => exact .pure (.table hij)
  | cons step steps =>
    refine (Repeats.orFailRel _ _ hde.rows?).bind fun n hn r r' ⟨hrr, hr, hr'⟩ => ?_
    rw [hrr.entity]
    refine (repeats_entity _).bind fun k hk entity _ ⟨heq, hentity⟩ => ?_
    rw [heq]
    have hlater := hn.trans hk
    split
    · exact .pure (.field _ fun hℓ hm => hm.of_later hlater i j d e r r' (hij.2 hℓ) hij.1 hd he hr hr')
    · exact repeats_under h _ _ (hij.mono hlater) (.some (hij.mono hlater))
    · next name x rest hlongest =>
      obtain ⟨d', hd', hcore⟩ := hlater.left i d hd
      obtain ⟨followed, hrows⟩ := Context.rows?_of_core hcore hr
      exact (Repeats.followAssociation (hij.mono hlater) hd' hrows hentity (member?_of_longestMember? hlongest)).bind
        fun _ _ _ _ hab => h.classify rest hab
    · exact .fail _
    · split
      · exact .pure (.object (hij.mono hlater) _)
      · exact .fail _

variable {s s' : StatementId} {scalar scalar' : Bool}

theorem repeats_classifyValue (hij : m.At ℓ i j) (hd : m.left.contexts[i]? = some (.projection p s o f scalar))
    (he : m.right.contexts[j]? = some (.projection q s' o' f scalar')) (hpq : Option.Rel (m.At ℓ) p q)
    (ho : m.At ℓ o o') (e : Expr) (steps : List String) :
    Repeats c m (Denotes ℓ) (classifyValue rec i o f e steps) (classifyValue rec j o' f e steps) := by
  unfold classifyValue
  split
  · exact h.classify _ ho
  · cases steps with
    | nil =>
      refine .context hij fun d d' hd₁ he₁ _ _ => ?_
      obtain rfl := Option.some.inj (hd.symm.trans hd₁)
      obtain rfl := Option.some.inj (he.symm.trans he₁)
      exact repeats_under h f e ho hpq
    | cons => exact .fail _

/-- An object of the projection on the one side is one of its image on the other. -/
theorem repeats_classifyProjected (hij : m.At ℓ i j) (hd : m.left.contexts[i]? = some (.projection p s o f scalar))
    (he : m.right.contexts[j]? = some (.projection q s' o' f scalar')) (hpq : Option.Rel (m.At ℓ) p q)
    (ho : m.At ℓ o o') (e : Expr) (steps : List String) :
    Repeats c m (Denotes ℓ) (classifyProjected rec i o f e steps) (classifyProjected rec j o' f e steps) := by
  have hvalue := repeats_classifyValue h hij hd he hpq ho
  induction steps generalizing e with
  | nil =>
    cases hb : e.bindings? with
    | none => simpa only [classifyProjected_of_bindings?_eq_none hb] using hvalue e.strip []
    | some bs =>
      simp only [classifyProjected, hb]
      exact .pure (.object hij [])
  | cons name rest ih =>
    cases hb : e.bindings? with
    | none => simpa only [classifyProjected_of_bindings?_eq_none hb] using hvalue e.strip (name :: rest)
    | some bs =>
      simp only [classifyProjected, hb]
      cases bs.lookup name with
      | none => exact .fail _
      | some value =>
        refine (ih value).bind fun n hn d d' hdd => ?_
        cases hdd with
        | @object k l hkl steps =>
          intro hstep
          have himage := (hij.mono hn).1
          have hiff : k = i ↔ l = j := by
            constructor
            · rintro rfl
              exact Option.some.inj (hkl.1.symm.trans himage)
            · rintro rfl
              obtain ⟨e', he', hcore⟩ := hn.right l _ he
              exact hstep.paired.distinct hkl.1 himage he' (Context.link?_eq_none_of_core hcore rfl)
          dsimp only
          by_cases hk : k = i
          · rw [if_pos hk, if_pos (hiff.mp hk)]
            exact Repeats.pure (.object (hij.mono hn) _) hstep
          · rw [if_neg hk, if_neg (mt hiff.mpr hk)]
            exact Repeats.pure (.object hkl _) hstep
        | table rows => exact .pure (.table rows)
        | association rows => exact .pure (.association rows)
        | field k haliases => exact .pure (.field k haliases)
        | computed hv => exact .pure (.computed hv)

theorem repeats_classify (hij : m.At ℓ i j) (steps : List String) :
    Repeats c m (Denotes ℓ) (c.classify rec i steps) (c.classify rec j steps) := by
  refine .context hij fun d e hd he hde _ => ?_
  cases hde with
  | table | association => exact repeats_classifyMember h hij steps
  | projection hpq ho =>
    dsimp only
    split
    · exact repeats_classifyValue h hij hd he hpq ho _ steps
    · exact repeats_classifyProjected h hij hd he hpq ho _ steps
  | lambda | update => exact .fail _

/-- Errors on the way do not matter where there is a result. -/
theorem repeats_resolve (hab : m.At ℓ a b) (path : Path) :
    Repeats c m (Denotes ℓ) (resolve rec a path) (resolve rec b path) := by
  refine (Repeats.rootOf hab path).bind fun n _ i j hij => ?_
  refine (h.classify path.steps hij).answer (fun e => ?_) fun _ _ _ _ hd => .pure hd
  cases e <;> exact ⟨_, rfl⟩

end Replay
end ObjectQuery
