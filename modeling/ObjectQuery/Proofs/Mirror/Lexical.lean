import ObjectQuery.Proofs.Mirror.Identical

/-!
Lexical scope. A parameter is bound by the innermost lambda around it that has it, and what it is bound to was known
before. A lambda value of a set is compiled with the sequence below a scope of the value; so a parameter of the value
must not occur free in the projection that the sequence is.
-/
namespace ObjectQuery

/-- The parameter, looked up through lambda scopes only, is bound to that sequence or to none. The scopes around a scope
come before it, and so does what it binds. -/
inductive Finds (l : List Context) (x : String) : Option ContextId → Option ContextId → Prop
  | unbound : Finds l x none none
  | here {id p m bs q} (scope : l[id]? = some (.lambda p m bs)) (bound : bs.lookup x = some q) (before : q < id) :
    Finds l x (some id) (some q)
  | up {id p m bs r} (scope : l[id]? = some (.lambda p m bs)) (free : bs.lookup x = none)
    (before : ∀ k, p = some k → k < id) (outer : Finds l x p r) : Finds l x (some id) r

namespace Finds

variable {l l' : List Context} {x : String} {p r r' : Option ContextId}

theorem supports (h : Finds l x p r) (hl : Supports l l') : Finds l' x p r := by
  induction h with
  | unbound => exact .unbound
  | here scope bound before => exact .here (hl.scopes _ _ scope rfl) bound before
  | up scope free before _ ih => exact .up (hl.scopes _ _ scope rfl) free before ih

theorem lt_length (h : Finds l x p r) : ∀ id, p = some id → id < l.length := by
  rintro id rfl
  cases h with
  | here scope | up scope => exact (List.getElem?_eq_some_iff.mp scope).1

theorem bindingFrom (h : Finds l x p r) : ∀ n, (∀ id, p = some id → id < n) → bindingFrom l x n p = .ok r := by
  induction h with
  | unbound => exact fun n _ => by cases n <;> rfl
  | @here id p m bs q scope bound _ =>
    intro n hn
    obtain ⟨n, rfl⟩ := Nat.exists_eq_succ_of_ne_zero (Nat.ne_zero_of_lt (hn id rfl))
    simp [ObjectQuery.bindingFrom, scope, Context.binding?, bound]
  | @up id p m bs r scope free before _ ih =>
    intro n hn
    obtain ⟨n, rfl⟩ := Nat.exists_eq_succ_of_ne_zero (Nat.ne_zero_of_lt (hn id rfl))
    have hle := Nat.le_of_lt_succ (hn id rfl)
    simpa [ObjectQuery.bindingFrom, scope, Context.binding?, free, Context.parent] using
      ih n fun k hk => Nat.lt_of_lt_of_le (before k hk) hle

theorem unique (h : Finds l x p r) (h' : Finds l x p r') : r = r' := by
  have hr := h.bindingFrom l.length h.lt_length
  rw [h'.bindingFrom l.length h'.lt_length] at hr
  exact (Except.ok.inj hr).symm

theorem entered {m : StatementId} {q : ContextId} (hq : q < l.length) :
    Finds (l ++ [.lambda p m [(x, q)]]) x (some l.length) (some q) :=
  .here List.getElem?_concat_length (by simp) hq

theorem enter {a : String} {m : StatementId} {q : ContextId} (h : Finds l x p r) (hx : a ≠ x) :
    Finds (l ++ [.lambda p m [(a, q)]]) x (some l.length) r :=
  .up List.getElem?_concat_length (by simp [List.lookup_cons, beq_false_of_ne hx.symm]) h.lt_length
    (h.supports (sustains_concat l _).supports)

end Finds

def Likeness.lexical : Likeness :=
  ⟨fun _ _ => True, fun _ => True, fun f v => ∀ x, v.row? = some x → x ∉ f.free⟩

/-- Wherever a lambda value is set, its parameter does not occur free in the projection that it is set through. -/
def Node.Uncaptured (node : Node) : Prop :=
  node.Guarded .lexical

/-- Computed members mention no parameter but their own. -/
def Schema.Closed (schema : Schema) : Prop :=
  ∀ (name : String) (e : Entity) (member : String) (f : Lambda),
    schema.mapping.entity? name = some e → e.member? member = some (.computed f) → f.free = []

theorem Schema.Plain.closed {schema : Schema} (h : schema.Plain) : schema.Closed :=
  fun _ _ _ _ he hm => (h.not_computed he hm).elim

namespace Lexicon

/-- Parameters stand for each other that are bound to the same sequence, whatever their names. -/
def lexical : Lexicon where
  likeness := .lexical
  agree l r n p x y := ∃ o, Finds l x p o ∧ Finds r y p o ∧ ∀ q, o = some q → q < n

/-- Only parameters that occur have to be bound to the same. -/
theorem Closure.of_free {l r : List Context} {n : ContextId} {p : Option ContextId} {f g : Lambda} {ρ : Names}
    (hfg : f.Alike .lexical ρ g) (h : ∀ x ∈ f.free, ∀ y ∈ g.free, ρ x y → lexical.agree l r n p x y) :
    lexical.Closure l r n p f g := by
  refine ⟨fun x y => ρ x y ∧ x ∈ f.free ∧ y ∈ g.free, hfg.imp fun x hx y hy hxy => ⟨hxy, hx, hy⟩, ?_⟩
  exact fun x y hxy => h x hxy.2.1 y hxy.2.2 hxy.1

/-- Parameters other than those of the scopes that are entered keep what they are bound to. -/
theorem agree_enter {l r : List Context} {n : ContextId} {p : Option ContextId} {m : StatementId} {a b x y : String}
    {q : ContextId} (hlength : r.length = l.length) (ha : a ≠ x) (hb : b ≠ y) (h : lexical.agree l r n p x y) :
    lexical.agree (l ++ [.lambda p m [(a, q)]]) (r ++ [.lambda p m [(b, q)]]) n (some l.length) x y := by
  obtain ⟨o, hx, hy, ho⟩ := h
  refine ⟨o, hx.enter ha, ?_, ho⟩
  rw [← hlength]
  exact hy.enter hb

theorem lawful_lexical {schema : Schema} (hg : schema.Guarded .lexical) (hc : schema.Closed) :
    lexical.Lawful schema where
  lookup := by
    rintro l r n p x y hpairs ⟨o, hx, hy, -⟩
    rw [hx.bindingFrom _ hx.lt_length, hy.bindingFrom _ hy.lt_length]
  keep := by
    rintro l r l' r' n p x y hl hr ⟨o, hx, hy, ho⟩
    exact ⟨o, hx.supports hl, hy.supports hr, ho⟩
  widen := by
    rintro l r n n' p x y hn ⟨o, hx, hy, ho⟩
    exact ⟨o, hx, hy, fun q hq => Nat.lt_of_lt_of_le (ho q hq) hn⟩
  here := by
    intro l r p m x y q hlength hq _
    refine ⟨some q, .entered hq, ?_, fun k hk => by cases hk; exact hq⟩
    rw [← hlength]
    exact .entered (hlength ▸ hq)
  outer := agree_enter
  shift := by
    rintro l r n p m v w a b q f g hlength hv hw hf hg ⟨ρ, hfg, hρ⟩
    refine Closure.of_free hfg fun x hx y hy hxy => agree_enter hlength ?_ ?_ (hρ x y hxy)
    · rintro rfl
      exact hf _ hv hx
    · rintro rfl
      exact hg _ hw hy
  computed l r n p he hm := by
    have hfree := hc _ _ _ _ he hm
    refine ⟨fun _ _ => False, Lambda.alike_refl (fun _ => trivial) _ (hg _ _ _ _ he hm) ?_, nofun⟩
    simp [hfree]

end Lexicon

def Reading.equal (c : Compiler) : Reading c c where
  Ghost := Unit
  later _ _ := True
  counts _ m n := m = n
  value _ := Eq
  condition _ := Eq
  selects _ := Eq
  refl _ := trivial
  trans _ _ := trivial
  value_mono _ := id
  condition_mono _ := id
  selects_mono _ := id
  constant v h := ⟨(), trivial, by rw [h], by rw [h]⟩
  column _ _ := rfl
  null := rfl
  star := rfl
  subquery _ := rfl
  arithmetic op hl hr := by rw [hl, hr]
  function name h := by
    rw [List.forall₂_eq_eq_eq] at h
    rw [h]
  ofCondition h := by rw [h]
  test h := by rw [h]
  ofBool _ := rfl
  comparison op hl hr := by rw [hl, hr]
  negate h := by rw [h]
  conjunction hp hq := by rw [hp, hq]
  disjunction hp hq := by rw [hp, hq]
  selected h := by rwa [List.forall₂_eq_eq_eq] at h
  add hs hv := by rw [hs, hv]

/-- Compilations of queries that are the same up to the names of their parameters. Faults are the same up to names in
their texts. -/
def Mirror.lexical (c : Compiler) (hg : c.schema.Guarded .lexical) (hc : c.schema.Closed) : Mirror c c where
  lexicon := .lexical
  reading := .equal c
  error e e' := e'.isResolution = e.isResolution
  lawful := Lexicon.lawful_lexical hg hc
  schema := rfl
  depth := rfl
  same _ := rfl
  «external» _ := rfl
  within _ _ := rfl
  resolution := id
  restate _ _ := rfl
  texts := .inr fun _ _ => id
  builder {ρ node node'} h := by
    rw [h.builderFor rfl]
    cases c.builderFor node with
    | ok b => exact .inl ⟨b, rfl, rfl⟩
    | error e => exact .inr ⟨e, e, rfl, rfl, rfl⟩

end ObjectQuery
