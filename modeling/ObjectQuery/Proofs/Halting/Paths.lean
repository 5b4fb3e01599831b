import ObjectQuery.Proofs.Calls.Resolve
import ObjectQuery.Proofs.Halting.Rules

/-!
Paths are classified in finitely many steps. What can be read of a sequence is known when the sequence is compiled, and
it stays so: a projection is compiled over a sequence that can be read, from a scope whose parameters are bound to such
sequences.
-/
namespace ObjectQuery

open Build

/-! The parts of an expression. -/

theorem Expr.free_strip (e : Expr) : e.strip.free = e.free := by
  induction e using Expr.strip.induct with
  | case1 inner ih => exact ih
  | case2 e h =>
    cases e with
    | convert inner => exact (h inner rfl).elim
    | _ => rfl

theorem Lambda.free_eq (f : Lambda) : f.free = f.body.free.filter (f.row? ≠ some ·) := by
  cases f
  rfl

theorem Expr.mem_freeAll {es : List Expr} {e : Expr} (h : e ∈ es) : e.free ⊆ Expr.freeAll es := by
  induction h with
  | head => exact List.subset_append_left _ _
  | tail _ _ ih => exact List.Subset.trans ih (List.subset_append_right _ _)

theorem Expr.mem_freeBindings {bs : List (String × Expr)} {b : String × Expr} (h : b ∈ bs) :
    b.2.free ⊆ Expr.freeBindings bs := by
  induction h with
  | head => exact List.subset_append_left _ _
  | tail _ _ ih => exact List.Subset.trans ih (List.subset_append_right _ _)

theorem mem_of_lookup {bs : List (String × Expr)} {name : String} {d : Expr} (h : bs.lookup name = some d) :
    (name, d) ∈ bs := by
  obtain ⟨xs, ys, rfl, -⟩ := List.lookup_eq_some_iff.mp h
  simp

theorem Expr.free_bindings? {e : Expr} {bs : List (String × Expr)} (h : e.bindings? = some bs) :
    Expr.freeBindings bs = e.free := by
  rw [← e.free_strip, Expr.strip_of_bindings? h]
  rfl

theorem Expr.sizeOf_strip_le (e : Expr) : sizeOf e.strip ≤ sizeOf e := by
  induction e using Expr.strip.induct with
  | case1 inner ih => exact Nat.le_trans ih (by simp)
  | case2 e h => cases e <;> first | exact (h _ rfl).elim | exact Nat.le_refl _

theorem Expr.sizeOf_lt_of_lookup {e d : Expr} {bs : List (String × Expr)} {name : String} (h : e.bindings? = some bs)
    (hd : bs.lookup name = some d) : sizeOf d < sizeOf e := by
  have hmem := List.sizeOf_lt_of_mem (mem_of_lookup hd)
  have hle := e.sizeOf_strip_le
  rw [Expr.strip_of_bindings? h] at hle
  simp only [Expr.construct.sizeOf_spec, Prod.mk.sizeOf_spec] at hle hmem
  omega

/-- Members are constructed at finitely many steps. -/
theorem Expr.length_lt_of_constructedAt {e : Expr} {steps : List String} {name : String}
    (h : name ∈ e.constructedAt steps) : steps.length < sizeOf e := by
  induction steps generalizing e with
  | nil => cases e <;> simp +arith
  | cons step steps ih =>
    rw [Expr.constructedAt] at h
    split at h
    · next v hv =>
      cases hbs : e.bindings? with
      | none =>
        rw [hbs] at hv
        cases hv
      | some bs =>
        rw [hbs] at hv
        exact Nat.lt_of_le_of_lt (ih h) (Expr.sizeOf_lt_of_lookup hbs hv)
    · cases h

theorem Path.root_mem_free {e : Expr} {path : Path} (h : Path.ofExpr? e = some path) : path.root ∈ e.free := by
  unfold Path.ofExpr? at h
  generalize [] = steps at h
  induction e, steps using Path.read.induct with
  | case1 name steps =>
    cases h
    exact List.mem_singleton_self name
  | case2 object name steps ih => exact ih h
  | case3 inner steps ih => exact ih (by simpa [Path.read] using h)
  | case4 e steps hp hm hc =>
    cases e with
    | parameter => exact (hp _ rfl).elim
    | member => exact (hm _ _ rfl).elim
    | convert => exact (hc _ rfl).elim
    | _ => cases h

theorem Compiler.length_lt_of_longestMember? {e : Entity} {steps rest : List String} {name : String} {member : Member}
    (h : longestMember? e steps = some (name, member, rest)) : rest.length < steps.length := by
  obtain ⟨⟨n, r⟩, hmem, hf⟩ := List.exists_of_findSome?_eq_some h
  obtain ⟨m, -, he⟩ := Option.map_eq_some_iff.mp hf
  cases he
  obtain ⟨k, hk, hr⟩ := List.mem_map.mp hmem
  cases hr
  have hlt := List.mem_range.mp (List.mem_reverse.mp hk)
  rw [List.length_drop]
  omega

namespace Compiler

/-! What can be read. -/

/-- What the projection constructs at the steps can be converted. -/
def Expands (c : Compiler) (l : List Context) (id : ContextId) (steps : List String) : Prop :=
  ∀ t : BuildState, Preserves l t.contexts → ∀ p m q f scalar,
    t.contexts[id]? = some (.projection p m q f scalar) → ∀ name ∈ f.body.constructedAt steps, ∀ extent,
      c.Settles t (fun rec => rec.members id (steps ++ [name]) extent) fun _ _ => True

/-- Rows are those of a context, and the members of an object can be converted. -/
inductive Answered (c : Compiler) : Denotation → List Context → Prop
  | table {id l} (rows : Tabular l id) : Answered c (.table id) l
  | association {id l} (rows : Tabular l id) : Answered c (.association id) l
  | field (column aliasName l) : Answered c (.field column aliasName) l
  | computed (value l) : Answered c (.computed value) l
  | object {id steps l} (expands : c.Expands l id steps) : Answered c (.object id steps) l

/-- All paths from the sequence can be classified, from now on. -/
def Readable (c : Compiler) (l : List Context) (q : ContextId) : Prop :=
  ∀ t : BuildState, Preserves l t.contexts → ∀ steps, c.Settles t (fun rec => rec.classify q steps) c.Answered

/-- The parameters are bound to sequences that can be read, unless nothing binds them. -/
def Grounded (c : Compiler) (l : List Context) (p : Option ContextId) (xs : List String) : Prop :=
  ∀ x ∈ xs, ∃ r, Finds l x p r ∧ ∀ q, r = some q → c.Readable l q

/-- A projection over a sequence that can be read, from a scope whose parameters are. -/
def Projects (c : Compiler) (l : List Context) (id : ContextId) (f : Lambda) : Prop :=
  ∃ p m q scalar, l[id]? = some (.projection p m q f scalar) ∧ c.Readable l q ∧ c.Grounded l p f.free

/-- The expression is compiled in finitely many steps wherever its parameters are bound to what can be read. -/
structure Evaluates (c : Compiler) (e : Expr) : Prop where
  value : ∀ {s scope}, c.Grounded s.contexts (some scope) e.free →
    c.Settles s (fun rec => rec.value scope e) fun _ _ => True
  stripped : ∀ {s scope}, c.Grounded s.contexts (some scope) e.free →
    c.Settles s (fun rec => rec.value scope e.strip) fun _ _ => True
  condition : ∀ {s scope}, c.Grounded s.contexts (some scope) e.free →
    c.Settles s (fun rec => rec.condition scope e) fun _ _ => True

/-- The expression is compiled in finitely many steps, and so are the members that it constructs. -/
inductive Lively (c : Compiler) : Expr → Prop
  | intro {e} (evaluates : c.Evaluates e)
    (parts : ∀ bs, e.bindings? = some bs → ∀ b ∈ bs, Lively c b.2) : Lively c e

variable {c : Compiler} {l l' : List Context} {s : BuildState} {id q : ContextId} {p : Option ContextId}
  {xs ys : List String} {f : Lambda} {β : Type} {Q : β → List Context → Prop}

theorem Readable.mono (h : c.Readable l q) (hl : Preserves l l') : c.Readable l' q :=
  fun t ht => h t (hl.trans ht)

theorem Readable.classify (h : c.Readable s.contexts q) (steps : List String) :
    c.Settles s (fun rec => rec.classify q steps) c.Answered :=
  h s (.refl _) steps

theorem Grounded.mono (h : c.Grounded l p xs) (hl : Preserves l l') : c.Grounded l' p xs := by
  intro x hx
  obtain ⟨r, hr, hreadable⟩ := h x hx
  exact ⟨r, hr.supports hl.supports, fun q hq => (hreadable q hq).mono hl⟩

theorem Grounded.of_subset (h : c.Grounded l p xs) (hys : ys ⊆ xs) : c.Grounded l p ys :=
  fun x hx => h x (hys hx)

theorem Projects.mono (h : c.Projects l id f) (hl : Preserves l l') : c.Projects l' id f := by
  obtain ⟨p, m, q, scalar, hid, hq, hf⟩ := h
  obtain ⟨e, he, hpersists⟩ := hl.persists id _ hid
  cases hpersists with
  | rows hd => cases hd
  | @projection _ p' _ _ _ _ sees =>
    refine ⟨p', m, q, scalar, he, hq.mono hl, fun x hx => ?_⟩
    obtain ⟨r, hr, hreadable⟩ := hf x hx
    exact ⟨r, sees x hx r hr, fun q hq => (hreadable q hq).mono hl⟩

theorem Lively.evaluates {e : Expr} (h : c.Lively e) : c.Evaluates e := by
  cases h with
  | intro evaluates => exact evaluates

theorem Lively.parts {e : Expr} {bs : List (String × Expr)} (h : c.Lively e) (hbs : e.bindings? = some bs) :
    ∀ b ∈ bs, c.Lively b.2 := by
  cases h with
  | intro _ parts => exact parts bs hbs

/-! Scopes. -/

theorem settles_orFail {α : Type} (e : CompileError) (o : Option α) :
    c.Settles s (fun _ => orFail e o) fun a _ => o = some a := by
  cases o with
  | none => exact .fail e
  | some a => exact .pure rfl

theorem settles_lambdaScope (f : Lambda) (q : ContextId) (p : Option ContextId) :
    c.Settles s (fun _ => lambdaScope f q p) fun id l => ∃ x m, f.row? = some x ∧ id = s.contexts.length ∧
      q < s.contexts.length ∧ l = s.contexts ++ [.lambda p m [(x, q)]] := by
  unfold lambdaScope
  cases f.row? with
  | none => exact Settles.fail _
  | some x =>
    refine Settles.context fun d hd => (Settles.addContext rfl).imp fun id l _ hid => ?_
    exact ⟨x, d.statement, rfl, hid.1, (List.getElem?_eq_some_iff.mp hd).1, hid.2⟩

/-- The parameter of a scope ranges over the sequence, and others are bound as they are around it. -/
theorem Grounded.enter {x : String} {m : StatementId} (hq : c.Readable l q) (hlt : q < l.length)
    (hx : f.row? = some x) (hxs : c.Grounded l p (xs.filter (f.row? ≠ some ·))) :
    c.Grounded (l ++ [.lambda p m [(x, q)]]) (some l.length) xs := by
  have hl := (sustains_concat l (.lambda p m [(x, q)])).preserves
  intro y hy
  by_cases hxy : x = y
  · subst hxy
    refine ⟨some q, .entered hlt, fun k hk => ?_⟩
    cases hk
    exact hq.mono hl
  · obtain ⟨r, hr, hreadable⟩ := hxs y (List.mem_filter.mpr ⟨hy, by simpa [hx] using hxy⟩)
    exact ⟨r, hr.enter hxy, fun k hk => (hreadable k hk).mono hl⟩

/-- What a lambda states of the rows of a sequence is seen from a scope of its own. -/
theorem settles_under {next : ContextId → Calls → Build β} (hq : c.Readable s.contexts q)
    (hxs : c.Grounded s.contexts p (xs.filter (f.row? ≠ some ·)))
    (hn : ∀ t, Preserves s.contexts t.contexts → ∀ scope, c.Grounded t.contexts (some scope) xs →
      c.Settles t (next scope) Q) :
    c.Settles s (fun rec => lambdaScope f q p >>= fun scope => next scope rec) Q := by
  refine (settles_lambdaScope f q p).bind fun id t ht hid => hn t ht id ?_
  obtain ⟨x, m, hx, rfl, hlt, hl⟩ := hid
  rw [hl]
  exact .enter hq hlt hx hxs

theorem run_findBinding? {x : String} {scope : ContextId} {r : Option ContextId}
    (h : Finds s.contexts x (some scope) r) : (findBinding? scope x).run s = (.ok r, s) := by
  change (orStop (bindingFrom s.contexts x s.contexts.length (some scope))).run s = _
  rw [h.bindingFrom _ h.lt_length]
  rfl

theorem settles_rootOf {scope : ContextId} {path : Path} (h : c.Grounded s.contexts (some scope) xs)
    (hroot : path.root ∈ xs) : c.Settles s (fun _ => rootOf scope path) fun q l => c.Readable l q := by
  obtain ⟨r, hr, hreadable⟩ := h path.root hroot
  have hsettles : c.Settles s (fun _ => findBinding? scope path.root) fun r' l => r' = r ∧ l = s.contexts := fun hs =>
    ⟨_, .of_forall fun _ => run_findBinding? hr, .gives (.refl _) hs ⟨rfl, rfl⟩⟩
  refine hsettles.bind fun r' t ht hr' => ?_
  obtain ⟨rfl, -⟩ := hr'
  cases r' with
  | none => exact .fail _
  | some q => exact .pure ((hreadable q rfl).mono ht)

/-! Rows. -/

theorem settles_entity (name : String) :
    c.Settles s (fun _ => c.entity name) fun e _ => c.schema.mapping.entity? name = some e :=
  settles_orFail _ _

theorem settles_followAssociation (owner : ContextId) (name : String) (a : Association) :
    c.Settles s (fun _ => c.followAssociation owner name a) fun id l => Associated l id := by
  refine .of_sound fun hs => Settles.context fun d hd => ?_
  split
  · next rows hlookup =>
    obtain ⟨xs, ys, heq, -⟩ := List.lookup_eq_some_iff.mp hlookup
    exact .pure (hs owner d hd (name, rows) (by simp [heq]))
  · refine (settles_entity a.target).bind fun target t ht _ => ?_
    refine (Settles.still .nextAlias).bind fun targetAlias t₁ _ _ => ?_
    refine (Settles.still (.modifyStatement _ _)).bind fun _ t₂ _ _ => ?_
    refine (Settles.addContext rfl).bind fun rows t₃ _ hrows => ?_
    obtain ⟨rfl, hl⟩ := hrows
    have hassociated : Associated t₃.contexts t₂.contexts.length :=
      ⟨owner, d.statement, name, _, by rw [hl, List.getElem?_concat_length]⟩
    exact (Settles.follow hassociated).bind fun _ t₄ ht₄ _ => .pure (ht₄.supports.associated _ hassociated)

/-- Steps from rows are classified with fewer steps from other rows. -/
theorem settles_classifyMember (hc : c.schema.Plain) (hrows : Tabular s.contexts id) {steps : List String}
    (ih : ∀ (t : BuildState) (k : ContextId) (rest : List String), rest.length < steps.length →
      Tabular t.contexts k → c.Settles t (fun rec => rec.classify k rest) c.Answered) :
    c.Settles s (fun rec => c.classifyMember rec id steps) c.Answered := by
  have hexpands : ∀ l steps, Preserves s.contexts l → c.Expands l id steps := by
    intro l steps hl t ht p m q f scalar hid
    obtain ⟨d, hd, hrows⟩ := hrows.mono (hl.trans ht)
    cases hid.symm.trans hd
    cases hrows
  refine Settles.context fun d hd => ?_
  cases steps with
  | nil => cases d <;> first | exact .pure (.association hrows) | exact .pure (.table hrows)
  | cons step steps =>
    refine (settles_orFail _ _).bind fun rows t ht _ => (settles_entity rows.entity).bind fun e t₁ ht₁ he => ?_
    split
    · exact .pure (.field ..)
    · next l hlongest => exact (hc.not_computed he (member?_of_longestMember? hlongest)).elim
    · next hlongest =>
      refine (settles_followAssociation _ _ _).bind fun k t₂ _ hk => ?_
      exact ih t₂ k _ (length_lt_of_longestMember? hlongest) hk.tabular
    · exact .fail _
    · split
      · exact .pure (.object (hexpands _ _ (ht.trans ht₁)))
      · exact .fail _

theorem settles_rows (hc : c.schema.Plain) (steps : List String) {s : BuildState} {id : ContextId}
    (hrows : Tabular s.contexts id) : c.Settles s (fun rec => rec.classify id steps) c.Answered := by
  refine .call (fun rec => c.classify rec id steps) ?_ fun _ => rfl
  refine Settles.context fun d hd => ?_
  have hmember : c.Settles s (fun rec => c.classifyMember rec id steps) c.Answered :=
    settles_classifyMember hc hrows fun t k rest _ hk => settles_rows hc rest hk
  obtain ⟨d', hd', hrows⟩ := hrows
  cases hd.symm.trans hd'
  cases d with
  | table | association => exact hmember
  | projection | lambda | update => cases hrows
  termination_by steps.length

theorem readable_rows (hc : c.schema.Plain) (h : Tabular l id) : c.Readable l id :=
  fun _ ht steps => settles_rows hc steps (h.mono ht)

theorem readable_update {m : StatementId} {k : ContextId} (hd : l[id]? = some (.update p m k)) : c.Readable l id := by
  intro t ht steps
  obtain ⟨e, he, hpersists⟩ := ht.persists id _ hd
  refine .call (fun rec => c.classify rec id steps) ?_ fun _ => rfl
  refine Settles.context fun d' hd' => ?_
  obtain rfl := Option.some.inj (he.symm.trans hd')
  cases hpersists with
  | rows hd => cases hd
  | update => exact .fail _

/-! Projections. -/

theorem settles_classifyValue (h : c.Projects s.contexts id f) {e : Expr} (he : c.Evaluates e)
    (hfree : e.free ⊆ f.body.free) {m : StatementId} {scalar : Bool}
    (hid : s.contexts[id]? = some (.projection p m q f scalar)) (steps : List String) :
    c.Settles s (fun rec => classifyValue rec id q f e.strip steps) c.Answered := by
  obtain ⟨p', m', q', scalar', hid', hq, hf⟩ := h
  cases hid.symm.trans hid'
  unfold classifyValue
  split
  · exact hq.classify _
  · split
    · refine Settles.context fun d hd => ?_
      cases hid.symm.trans hd
      refine settles_under hq (Lambda.free_eq f ▸ hf) fun t _ scope hscope => ?_
      exact (he.stripped (hscope.of_subset hfree)).map fun _ _ _ => .computed ..
    · exact .fail _

/-- An object under a construction is one of the projection, at the steps that lead to it. -/
theorem settles_classifyProjected (h : c.Projects s.contexts id f) {m : StatementId} {scalar : Bool}
    (hid : s.contexts[id]? = some (.projection p m q f scalar)) {e : Expr} (he : c.Lively e)
    (hfree : e.free ⊆ f.body.free) (steps : List String) :
    c.Settles s (fun rec => classifyProjected rec id q f e steps) fun d l => d = .object id steps ∨ c.Answered d l := by
  have hvalue : ∀ {e : Expr}, c.Lively e → e.free ⊆ f.body.free → ∀ steps,
      c.Settles s (fun rec => classifyValue rec id q f e.strip steps)
        fun d l => d = .object id steps ∨ c.Answered d l := fun he hfree steps =>
    (settles_classifyValue h he.evaluates hfree hid steps).imp fun _ _ _ => .inr
  induction steps generalizing e with
  | nil =>
    unfold classifyProjected
    split
    · exact .pure (.inl rfl)
    · exact hvalue he hfree []
  | cons name rest ih =>
    unfold classifyProjected
    split
    · exact hvalue he hfree (name :: rest)
    · next bs hbs =>
      split
      · exact .fail _
      · next d hd =>
        have hmem := mem_of_lookup hd
        have hsub : d.free ⊆ f.body.free :=
          List.Subset.trans (Expr.mem_freeBindings hmem) (Expr.free_bindings? hbs ▸ hfree)
        refine (ih (he.parts hbs _ hmem) hsub).bind fun x t _ hx => ?_
        cases x with
        | object k st =>
          dsimp only
          split
          · exact .pure (.inl rfl)
          · next hne =>
            refine .pure (hx.imp_left fun heq => ?_)
            cases heq
            exact absurd rfl hne
        | table | association | field | computed => exact .pure (hx.imp_left fun h => by cases h)

theorem classifyProjected_strip (rec : Calls) (id q : ContextId) (f : Lambda) (e : Expr) (steps : List String) :
    classifyProjected rec id q f e.strip steps = classifyProjected rec id q f e steps := by
  have hbindings : e.strip.bindings? = e.bindings? := by rw [Expr.bindings?, Expr.bindings?, e.strip_strip]
  cases steps <;> simp only [classifyProjected, hbindings, e.strip_strip]

theorem settles_projection (h : c.Projects s.contexts id f) (hf : c.Lively f.body) (steps : List String) :
    c.Settles s (fun rec => rec.classify id steps) fun d l => d = .object id steps ∨ c.Answered d l := by
  refine .call (fun rec => c.classify rec id steps) ?_ fun _ => rfl
  refine Settles.context fun d hd => ?_
  have hprojects := h
  obtain ⟨p, m, q, scalar, hid, -, -⟩ := hprojects
  cases hid.symm.trans hd
  dsimp only
  split
  · exact (settles_classifyValue h hf.evaluates (List.Subset.refl _) hid steps).imp fun _ _ _ => .inr
  · simp only [classifyProjected_strip]
    exact settles_classifyProjected h hid hf (List.Subset.refl _) steps

/-! Conversion. -/

theorem still_rowColumns (id : ContextId) (outer : Option String) (extent : Extent) :
    (c.rowColumns id outer extent).Still := by
  refine (Still.context id).bind fun d => (Still.orFail _ _).bind fun rows => (Still.orFail _ _).bind fun e => ?_
  cases extent with
  | key => exact (Still.orDangling _).bind fun keys => (Still.pure _).bind fun columns => .pure _
  | field | all => exact (Still.pure _).bind fun columns => .pure _

theorem settles_members_of {steps : List String} (h : c.Settles s (fun rec => rec.classify id steps) c.Answered)
    (extent : Extent) : c.Settles s (fun rec => rec.members id steps extent) fun _ _ => True := by
  refine .call (fun rec => c.members rec id steps extent) ?_ fun _ => rfl
  refine h.bind fun d t _ hd => ?_
  cases hd with
  | field | computed => exact .pure trivial
  | @table rows | @association rows => exact (Settles.still (still_rowColumns rows none extent)).any
  | @object owner st _ expands =>
    refine Settles.context fun e he => ?_
    cases e with
    | table | association | lambda | update => exact (Settles.still (still_rowColumns owner _ extent)).any
    | projection p m q f scalar =>
      refine (Settles.mapM _ fun u hu name hname => ?_).bind fun groups u _ _ => .pure trivial
      obtain ⟨e, he', hpersists⟩ := hu.persists owner _ he
      cases hpersists with
      | rows hd => cases hd
      | projection =>
        exact (expands u hu _ _ _ _ _ he' name hname extent).bind fun _ _ _ _ => .pure trivial

theorem settles_members (h : c.Readable s.contexts q) (steps : List String) (extent : Extent) :
    c.Settles s (fun rec => rec.members q steps extent) fun _ _ => True :=
  settles_members_of (h.classify steps) extent

/-- Members of members are constructed by smaller parts of the projection's body. -/
theorem expands_projection (hf : c.Lively f.body) (n : Nat) {l : List Context} (h : c.Projects l id f)
    {steps : List String} (hn : sizeOf f.body ≤ n + steps.length) : c.Expands l id steps := by
  induction n generalizing l steps with
  | zero =>
    intro t ht p m q g scalar hid name hname
    obtain ⟨_, _, _, _, hid', -⟩ := h.mono ht
    cases hid.symm.trans hid'
    have := Expr.length_lt_of_constructedAt hname
    omega
  | succ n ih =>
    intro t ht p m q g scalar hid name hname extent
    refine settles_members_of ((settles_projection (h.mono ht) hf _).imp fun d u hu hd => ?_) extent
    rcases hd with rfl | hd
    · exact .object (ih ((h.mono ht).mono hu) (by simp only [List.length_append, List.length_singleton]; omega))
    · exact hd

theorem readable_projection (h : c.Projects l id f) (hf : c.Lively f.body) : c.Readable l id := by
  intro t ht steps
  refine (settles_projection (h.mono ht) hf steps).imp fun d u hu hd => ?_
  rcases hd with rfl | hd
  · exact .object (expands_projection hf (sizeOf f.body) ((h.mono ht).mono hu) (Nat.le_add_right _ _))
  · exact hd

end Compiler
end ObjectQuery
