import ObjectQuery.Proofs.Coherent
import ObjectQuery.Proofs.Mirror.Operators

/-!
Two compilations of one query. Every name stands for itself on the other side, so the contexts are the same.
-/
namespace ObjectQuery

/-- The computed members of all entities are guarded. -/
def Schema.Guarded (κ : Likeness) (schema : Schema) : Prop :=
  ∀ (name : String) (e : Entity) (member : String) (f : Lambda),
    schema.mapping.entity? name = some e → e.member? member = some (.computed f) → f.Guarded κ

/-- No entity has a computed member. -/
def Schema.Plain (schema : Schema) : Prop :=
  ∀ e ∈ schema.mapping.items, ∀ m ∈ e.members.items, ∀ f, m.2 ≠ .computed f

theorem Schema.Plain.not_computed {schema : Schema} (h : schema.Plain) {name member : String} {e : Entity} {f : Lambda}
    (he : schema.mapping.entity? name = some e) : e.member? member ≠ some (.computed f) :=
  fun hm => h e (Keyed.mem_of_find? he) (member, .computed f) (Entity.mem_of_member? hm) f rfl

theorem Schema.Plain.guarded {schema : Schema} (h : schema.Plain) (κ : Likeness) : schema.Guarded κ :=
  fun _ _ _ _ he hm => (h.not_computed he hm).elim

theorem Schema.plain_company : Schema.company.Plain := by
  intro e he m hm f
  simp only [Schema.company, List.mem_cons, List.not_mem_nil, or_false] at he
  rcases he with rfl | rfl
  · simp only [List.mem_cons, List.not_mem_nil, or_false] at hm
    rcases hm with rfl | rfl | rfl | rfl <;> (intro h; cases h)
  · simp only [List.mem_cons, List.not_mem_nil, or_false] at hm
    rcases hm with rfl | rfl <;> (intro h; cases h)

/-- Externals are restricted, and nothing else. -/
def Likeness.identical (outer : String → Prop) : Likeness :=
  ⟨Eq, outer, fun _ _ => True⟩

namespace Lexicon

/-- Every name stands for itself, wherever it is looked up. -/
def identical (outer : String → Prop) : Lexicon :=
  ⟨.identical outer, fun _ _ _ _ => Eq⟩

variable {outer : String → Prop} {l r : List Context} {n : ContextId} {p : Option ContextId} {f g : Lambda}

theorem Closure.eq (h : (identical outer).Closure l r n p f g) : f = g := by
  obtain ⟨ρ, hfg, hρ⟩ := h
  exact hfg.eq (fun _ _ => id) hρ

theorem closure_refl (hf : f.Guarded (.identical outer)) : (identical outer).Closure l r n p f f :=
  ⟨Eq, f.alike_refl (fun _ => rfl) hf fun _ _ => rfl, fun _ _ => id⟩

theorem Pair.eq {id : ContextId} {d e : Context} (h : (identical outer).Pair l r id d e) : d = e := by
  cases h with
  | table | association | update => rfl
  | projection _ closure => rw [closure.eq]
  | lambda bindings =>
    have hbindings := bindings.imp fun b c h => Prod.ext h.1 h.2
    rw [List.forall₂_eq_eq_eq] at hbindings
    rw [hbindings]

theorem Pairs.eq (h : (identical outer).Pairs l r) : l = r :=
  List.ext_getElem h.length.symm fun _ hl hr =>
    (h.pair (List.getElem?_eq_getElem hl) (List.getElem?_eq_getElem hr)).eq

theorem lawful_identical {schema : Schema} (h : schema.Guarded (.identical outer)) :
    (identical outer).Lawful schema where
  lookup := by
    rintro l r n p x _ hpairs rfl
    rw [hpairs.eq]
  keep _ _ := id
  widen _ := id
  here _ _ := id
  outer _ _ _ := id
  shift _ _ _ _ _ := id
  computed _ _ _ _ he hm := closure_refl (h _ _ _ _ he hm)

end Lexicon

theorem Node.Alike.builderFor {κ : Likeness} {ρ : Names} {c c' : Compiler} {node node' : Node}
    (h : node.Alike κ ρ node') (hc : c'.builders = c.builders) : c'.builderFor node' = c.builderFor node := by
  unfold Compiler.builderFor
  rw [hc, ← h.kind, funext fun b => (h.claims b).symm]

/-- Compilers that differ in their treatment of constants at most. Faults are the same. -/
def Mirror.identical {c c' : Compiler} (outer : String → Prop) (reading : Reading c c')
    (hc : c.schema.Guarded (.identical outer)) (schema : c'.schema = c.schema) (builders : c'.builders = c.builders)
    (depth : c'.settings.maxSetterDepth = c.settings.maxSetterDepth)
    (hexternal : ∀ {g name}, outer name → reading.value g (.parameter name none) (.parameter name none)) :
    Mirror c c' where
  lexicon := .identical outer
  reading := reading
  error := Eq
  lawful := Lexicon.lawful_identical hc
  schema := schema
  depth := depth
  same _ := rfl
  «external» := hexternal
  within text h := congrArg _ h
  resolution h := by rw [h]
  restate text h := by
    cases h
    rfl
  texts := .inl ⟨fun _ _ => id, id⟩
  builder {ρ node node'} h := by
    rw [h.builderFor builders]
    cases c.builderFor node with
    | ok b => exact .inl ⟨b, rfl, rfl⟩
    | error e => exact .inr ⟨e, e, rfl, rfl, rfl⟩

/-- A guarded query is compiled in step with itself. -/
theorem Mirror.outcomes_identical {c c' : Compiler} {M : Mirror c c'} {outer : String → Prop}
    (hM : M.lexicon = .identical outer) {g : M.reading.Ghost} (hg : M.reading.counts g 0 0) {node : Node}
    (hnode : node.Guarded (.identical outer)) (fuel : Nat) :
    M.Outcomes (c.compile fuel node) (c'.compile fuel node) := by
  refine M.outcomes hg (ρ := Eq) ?_ ?_ fuel
  · rw [hM]
    exact node.alike_refl (fun _ => rfl) hnode fun _ _ => rfl
  · rw [hM]
    exact fun _ _ => id

end ObjectQuery
