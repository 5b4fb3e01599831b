import ObjectQuery.Proofs.Enumeration.Recurs
import ObjectQuery.Proofs.Halting.Rules
import ObjectQuery.Proofs.SetColumn

/-!
What the steps after a row or an object lead to. A path to rows or to an object, with further steps after it, leads
where these steps lead from there, as long as no declared name reaches from the one part into the other.
-/
namespace ObjectQuery

open Build

/-! Names of steps. -/

namespace Dotted

theorem toList_join_append {xs ys : List String} (hx : xs ≠ []) (hy : ys ≠ []) :
    (join (xs ++ ys)).toList = (join xs).toList ++ '.' :: (join ys).toList := by
  induction xs with
  | nil => exact absurd rfl hx
  | cons x xs ih =>
    cases xs with
    | nil =>
      obtain ⟨y, ys, rfl⟩ := List.exists_cons_of_ne_nil hy
      exact toList_join_cons_cons x y ys
    | cons x' xs =>
      have htail := ih (List.cons_ne_nil x' xs)
      rw [List.cons_append, List.cons_append, toList_join_cons_cons, ← List.cons_append, htail,
        toList_join_cons_cons, List.append_assoc, List.cons_append]

theorem isWithin_iff {name outer : String} :
    isWithin name outer = true ↔ ∃ rest, name.toList = outer.toList ++ '.' :: rest := by
  rw [isWithin, List.isPrefixOf_iff_prefix]
  simp only [List.IsPrefix, List.append_assoc, List.singleton_append, eq_comm]

theorem isWithin_join_append {xs ys : List String} (hx : xs ≠ []) (hy : ys ≠ []) :
    isWithin (join (xs ++ ys)) (join xs) = true :=
  isWithin_iff.mpr ⟨_, toList_join_append hx hy⟩

theorem split_ne_nil (s : String) : split s ≠ [] := by
  simpa [split] using parts_ne_nil s.toList

theorem join_append_split_relativeTo {name : String} {steps : List String} (hne : steps ≠ [])
    (h : isWithin name (join steps) = true) : join (steps ++ split (relativeTo name (join steps))) = name := by
  obtain ⟨rest, hrest⟩ := isWithin_iff.mp h
  refine String.toList_injective ?_
  rw [toList_join_append hne (split_ne_nil _), join_split, relativeTo, hrest, List.drop_append]
  simp

def Undotted (name : String) : Prop :=
  '.' ∉ name.toList

theorem split_of_undotted {name : String} (h : Undotted name) : split name = [name] := by
  rw [split, parts_of_not_mem h]
  simp

theorem split_qualified {name : String} (h : Undotted name) (rest : String) :
    split (name ++ "." ++ rest) = name :: split rest := by
  have hlist : (name ++ "." ++ rest).toList = name.toList ++ '.' :: rest.toList := by simp
  rw [split, hlist, parts_append_dot h, List.map_cons, String.ofList_toList, split]

end Dotted

theorem findSome?_reverse_range_eq_some {α : Type} {f : Nat → Option α} {n : Nat} {a : α} :
    (List.range n).reverse.findSome? f = some a ↔ ∃ k < n, f k = some a ∧ ∀ j, k < j → j < n → f j = none := by
  induction n with
  | zero => simp
  | succ n ih =>
    rw [List.range_succ, List.reverse_append, List.reverse_singleton, List.singleton_append, List.findSome?_cons]
    cases hn : f n with
    | some b =>
      refine ⟨fun h => ?_, fun ⟨k, hk, hfk, hj⟩ => ?_⟩
      · exact ⟨n, Nat.lt_succ_self n, hn.trans h, fun j hj hjn => by omega⟩
      · rcases Nat.lt_succ_iff_lt_or_eq.mp hk with hk | rfl
        · rw [hj n hk (Nat.lt_succ_self n)] at hn
          cases hn
        · exact hn.symm.trans hfk
    | none =>
      refine ih.trans ⟨fun ⟨k, hk, hfk, hj⟩ => ⟨k, Nat.lt_succ_of_lt hk, hfk, fun j hkj hjn => ?_⟩,
        fun ⟨k, hk, hfk, hj⟩ => ⟨k, ?_, hfk, fun j hkj hjn => hj j hkj (Nat.lt_succ_of_lt hjn)⟩⟩
      · rcases Nat.lt_succ_iff_lt_or_eq.mp hjn with hjn | rfl
        · exact hj j hkj hjn
        · exact hn
      · rcases Nat.lt_succ_iff_lt_or_eq.mp hk with hk | rfl
        · exact hk
        · rw [hn] at hfk
          cases hfk

/-- No declared name goes on from the name of an association. -/
def Entity.Separated (e : Entity) : Prop :=
  ∀ (name other : String) (a : Association) (m : Member), e.member? name = some (.association a) →
    e.member? other = some m → Dotted.isWithin other name = false

def Schema.Separated (schema : Schema) : Prop :=
  ∀ (name : String) (e : Entity), schema.mapping.entity? name = some e → e.Separated

theorem Schema.separated_of_forall {schema : Schema} (h : ∀ e ∈ schema.mapping.items, ∀ p ∈ e.members.items,
    ∀ q ∈ e.members.items, Dotted.isWithin q.1 p.1 = false) : schema.Separated := by
  intro name e he member other a m hmember hother
  exact h e (Keyed.mem_of_find? he) _ (Entity.mem_of_member? hmember) _ (Entity.mem_of_member? hother)

namespace Compiler

theorem longestMember?_eq_some_iff {e : Entity} {steps rest : List String} {name : String} {m : Member} :
    longestMember? e steps = some (name, m, rest) ↔ ∃ k < steps.length, Dotted.join (steps.take (k + 1)) = name ∧
      steps.drop (k + 1) = rest ∧ e.member? name = some m ∧
      ∀ j, k < j → j < steps.length → e.member? (Dotted.join (steps.take (j + 1))) = none := by
  rw [longestMember?, Path.prefixes, List.findSome?_map, findSome?_reverse_range_eq_some]
  refine exists_congr fun k => and_congr_right fun _ => ?_
  simp only [Function.comp_apply, Option.map_eq_some_iff, Option.map_eq_none_iff, Prod.mk.injEq]
  constructor
  · rintro ⟨⟨m', hm, rfl, rfl, rfl⟩, hj⟩
    exact ⟨rfl, rfl, hm, hj⟩
  · rintro ⟨rfl, rfl, hm, hj⟩
    exact ⟨⟨m, hm, rfl, rfl, rfl⟩, hj⟩

theorem longestMember?_append {e : Entity} (he : e.Separated) {steps rest : List String} {name : String}
    {a : Association} (h : longestMember? e steps = some (name, .association a, rest)) (more : List String) :
    longestMember? e (steps ++ more) = some (name, .association a, rest ++ more) := by
  obtain ⟨k, hk, rfl, rfl, hm, hlonger⟩ := longestMember?_eq_some_iff.mp h
  refine longestMember?_eq_some_iff.mpr ⟨k, by simp; omega, ?_, ?_, hm, fun j hkj hj => ?_⟩
  · rw [List.take_append_of_le_length hk]
  · rw [List.drop_append_of_le_length hk]
  · -- any longer declared name would begin with that of the association
    rw [Option.eq_none_iff_forall_ne_some]
    intro m' hm'
    have hsplit : (steps ++ more).take (j + 1) = steps.take (k + 1) ++ ((steps ++ more).take (j + 1)).drop (k + 1) := by
      conv_lhs => rw [← List.take_append_drop (k + 1) ((steps ++ more).take (j + 1))]
      rw [List.take_take, Nat.min_eq_left (by omega), List.take_append_of_le_length hk]
    rw [hsplit] at hm'
    have hwithin := he _ _ _ _ hm hm'
    rw [Dotted.isWithin_join_append] at hwithin
    · cases hwithin
    · exact List.ne_nil_of_length_pos (by simp; omega)
    · exact List.ne_nil_of_length_pos (by simp; simp at hj; omega)

end Compiler

/-- The value that a path stands for. -/
def Denotation.value? : Denotation → Option SqlExpr
  | .field column aliasName => some (.column column (some aliasName))
  | .computed value => some value
  | _ => none

/-- The rows or the object that a path stands for, as a context and the steps from there. -/
def Denotation.base? : Denotation → Option (ContextId × List String)
  | .table rows | .association rows => some (rows, [])
  | .object context steps => some (context, steps)
  | _ => none

/-- From that state, what is looked up stands for the value, as soon as calls may be nested deep enough. Finding it out
follows no association. -/
def Compiler.StandsFor (c : Compiler) (u : BuildState) (lookup : Calls → Build Denotation) (v : SqlExpr) : Prop :=
  ∀ᶠ n in Filter.atTop, ∃ d w, (lookup (c.calls n)).run u = (.ok d, w) ∧ u.Later w ∧ d.value? = some v

/-- In that state, the steps stand for the value. -/
def Compiler.Addresses (c : Compiler) (u : BuildState) (id : ContextId) (steps : List String) (v : SqlExpr) : Prop :=
  c.StandsFor u (fun rec => rec.classify id steps) v

namespace Compiler

variable {c : Compiler} {rec : Calls} {id k sequence : ContextId} {steps os rest : List String} {v : SqlExpr}
  {d : Denotation} {s t u : BuildState} {l : Lambda} {e : Expr}

theorem addresses_of_classify (h : c.StandsFor u (fun rec => c.classify rec id steps) v) :
    c.Addresses u id steps v := by
  rw [Addresses, StandsFor, ← Filter.map_add_atTop_eq_nat 1, Filter.eventually_map]
  exact h

theorem StandsFor.congr {lookup lookup' : Calls → Build Denotation} (h : c.StandsFor u lookup v)
    (heq : ∀ rec, (lookup' rec).run u = (lookup rec).run u) : c.StandsFor u lookup' v := by
  filter_upwards [h] with n hn
  rwa [heq]

theorem run_classify_of_rows {x : Context} {r : Rows} (hx : s.contexts[id]? = some x) (hr : x.rows? = some r) :
    (c.classify rec id steps).run s = (c.classifyMember rec id steps).run s := by
  rw [classify, run_bind_of (run_context_of hx)]
  cases x <;> first | rfl | cases hr

theorem ne_computed_of_base? (hb : d.base? = some (k, os)) (v : SqlExpr) : d ≠ .computed v := by
  rintro rfl
  cases hb

theorem base_of_run_classifyMember (hrun : (c.classifyMember rec id steps).run s = (.ok d, t))
    (hb : d.base? = some (k, os)) : (k = id ∧ os = steps ∧ ((∃ x, d = .object k x) → os ≠ [])) ∨
      ∃ x r e name a rest target u, s.contexts[id]? = some x ∧ x.rows? = some r ∧
        c.schema.mapping.entity? r.entity = some e ∧ longestMember? e steps = some (name, .association a, rest) ∧
        (c.followAssociation id name a).run s = (.ok target, u) ∧ (rec.classify target rest).run u = (.ok d, t) := by
  obtain ⟨x, hx, hlocates⟩ := locates_of_run_classifyMember hrun (ne_computed_of_base? hb)
  cases hlocates with
  | itself => exact .inl (by cases x <;> cases hb <;> exact ⟨rfl, rfl, fun ⟨_, h⟩ => nomatch h⟩)
  | column => cases hb
  | object =>
    cases hb
    exact .inl ⟨rfl, rfl, fun _ => List.cons_ne_nil _ _⟩
  | association hr he hl hfollow hclassify => exact .inr ⟨x, _, _, _, _, _, _, _, hx, hr, he, hl, hfollow, hclassify⟩

/-- In all later states, steps after these lead where they lead after those. -/
def Rerooted (c : Compiler) (t : BuildState) (id : ContextId) (steps : List String) (k : ContextId)
    (os : List String) : Prop :=
  ∀ u, t.Later u → ∀ rest v, c.Addresses u k (os ++ rest) v → c.Addresses u id (steps ++ rest) v

/-- A value has no members, an object of the projection gets all the steps, and anything else is handed on. -/
theorem of_run_classifyProjected_cons {projection : ContextId} {name : String}
    (hrun : (classifyProjected rec projection sequence l e (name :: steps)).run s = (.ok d, t)) :
    (e.bindings? = none ∧ (classifyValue rec projection sequence l e.strip (name :: steps)).run s = (.ok d, t)) ∨
      d = .object projection (name :: steps) ∨
      ∃ bindings value, e.bindings? = some bindings ∧ bindings.lookup name = some value ∧
        (classifyProjected rec projection sequence l value steps).run s = (.ok d, t) ∧
        ∀ x, d ≠ .object projection x := by
  unfold classifyProjected at hrun
  split at hrun
  · next hnone => exact .inl ⟨hnone, hrun⟩
  · next bindings hbindings =>
    split at hrun
    · cases hrun
    · next value hvalue =>
      obtain ⟨d₀, s₁, hinner, hlast⟩ := exists_of_run_bind hrun
      cases d₀ with
      | object context x =>
        dsimp only at hlast
        split at hlast <;> cases hlast
        · exact .inr (.inl rfl)
        · next hne =>
          refine .inr (.inr ⟨bindings, value, hbindings, hvalue, hinner, ?_⟩)
          rintro x ⟨⟩
          exact hne rfl
      | table | association | field | computed =>
        cases hlast
        refine .inr (.inr ⟨bindings, value, hbindings, hvalue, hinner, ?_⟩)
        rintro x ⟨⟩

section Projected

variable {projection : ContextId}
  (hrec : ∀ {id steps d s t k os}, (rec.classify id steps).run s = (.ok d, t) → d.base? = some (k, os) →
    c.Rerooted t id steps k os)
include hrec

theorem standsFor_of_path (hnone : e.bindings? = none)
    (hrun : (classifyValue rec projection sequence l e.strip steps).run s = (.ok d, t)) (hb : d.base? = some (k, os))
    (hu : t.Later u) (hv : c.Addresses u k (os ++ rest) v) :
    c.StandsFor u (fun rec => classifyProjected rec projection sequence l e (steps ++ rest)) v := by
  obtain ⟨path, hp, hclassify⟩ := path_of_run_classifyValue hrun (ne_computed_of_base? hb)
  refine (hrec hclassify hb u hu rest v hv).congr fun rec' => ?_
  have hvalue : classifyProjected rec' projection sequence l e (steps ++ rest) =
      classifyValue rec' projection sequence l e.strip (steps ++ rest) := by
    cases steps ++ rest <;> simp only [classifyProjected, hnone]
  rw [hvalue, classifyValue_of_path hp, List.append_assoc]

/-- What a part of a projection stands for is an object of the projection, or found through a path. -/
theorem standsFor_of_classifyProjected
    (hrun : (classifyProjected rec projection sequence l e steps).run s = (.ok d, t)) (hb : d.base? = some (k, os)) :
    d = .object projection steps ∨ ∀ u, t.Later u → ∀ rest v, c.Addresses u k (os ++ rest) v →
      c.StandsFor u (fun rec => classifyProjected rec projection sequence l e (steps ++ rest)) v := by
  induction steps generalizing e with
  | nil =>
    unfold classifyProjected at hrun
    split at hrun
    · cases hrun
      exact .inl rfl
    · next hnone => exact .inr fun u hu rest v hv => standsFor_of_path hrec hnone hrun hb hu hv
  | cons name rest ih =>
    obtain ⟨hnone, hvalue⟩ | hobject | ⟨bindings, value, hbindings, hlookup, hinner, hne⟩ :=
      of_run_classifyProjected_cons hrun
    · exact .inr fun u hu rest v hv => standsFor_of_path hrec hnone hvalue hb hu hv
    · exact .inl hobject
    · refine .inr fun u hu more v hv => ?_
      obtain hsame | hstands := ih hinner
      · exact absurd hsame (hne _)
      · filter_upwards [hstands u hu more v hv] with n ⟨d', w, hrun', hw, hd'⟩
        refine ⟨d', w, ?_, hw, hd'⟩
        rw [List.cons_append]
        unfold classifyProjected
        simp only [hbindings, hlookup]
        rw [run_bind_of hrun']
        cases d' with
        | field | computed => rfl
        | table | association | object => cases hd'

end Projected

theorem rerooted_of_classifyMember (hsep : c.schema.Separated) (hder : rec.Derive)
    (hrec : ∀ {id steps d s t k os}, (rec.classify id steps).run s = (.ok d, t) → d.base? = some (k, os) →
      c.Rerooted t id steps k os)
    (hrun : (c.classifyMember rec id steps).run s = (.ok d, t)) (hb : d.base? = some (k, os)) :
    c.Rerooted t id steps k os := by
  intro u hu rest v hv
  obtain ⟨rfl, rfl, -⟩ | ⟨x, r, e, name, a, left, target, s₁, hx, hr, he, hl, hfollow, hclassify⟩ :=
    base_of_run_classifyMember hrun hb
  · exact hv
  · have hs₁ : s₁.Later t := ((hder.classify [] target left).extends_of_run hclassify).later
    have hst : s.Later t := ((derives_classifyMember hder id steps).extends_of_run hrun).later
    obtain ⟨more, hx'⟩ := hst.trans hu id x hx
    have hr' := Context.rows?_followAll_of hr more
    have hfollows := (follows_followAssociation hx hr hfollow).mono (hs₁.trans hu)
    refine addresses_of_classify ((hrec hclassify hb u hu rest v hv).congr fun rec' => ?_)
    rw [run_classify_of_rows hx' hr']
    exact run_classifyMember_of_association hx' hr' he (longestMember?_append (hsep _ _ he) hl rest) hfollows

theorem rerooted_of_classify (hsep : c.schema.Separated) (hder : rec.Derive)
    (hrec : ∀ {id steps d s t k os}, (rec.classify id steps).run s = (.ok d, t) → d.base? = some (k, os) →
      c.Rerooted t id steps k os)
    (hrun : (c.classify rec id steps).run s = (.ok d, t)) (hb : d.base? = some (k, os)) :
    c.Rerooted t id steps k os := by
  obtain ⟨x, s₁, hcontext, hclassify⟩ := exists_of_run_bind hrun
  obtain ⟨hx, rfl⟩ := of_run_context hcontext
  have hst : s₁.Later t := ((derives_classify hder id steps).extends_of_run hrun).later
  cases x with
  | table | association => exact rerooted_of_classifyMember hsep hder hrec hclassify hb
  | projection parent m sequence l scalar =>
    intro u hu rest v hv
    obtain ⟨_, hx'⟩ := hst.trans hu id _ hx
    cases scalar with
    | true =>
      obtain ⟨path, hp, hpath⟩ := path_of_run_classifyValue hclassify (ne_computed_of_base? hb)
      refine addresses_of_classify ((hrec hpath hb u hu rest v hv).congr fun rec' => ?_)
      rw [classify, run_bind_of (run_context_of hx'), List.append_assoc]
      exact congrArg (·.run u) (classifyValue_of_path hp)
    | false =>
      obtain rfl | hprojected := standsFor_of_classifyProjected hrec hclassify hb
      · cases hb
        exact hv
      · refine addresses_of_classify ((hprojected u hu rest v hv).congr fun rec' => ?_)
        rw [classify, run_bind_of (run_context_of hx')]
        rfl
  | lambda | update => cases hclassify

/-- What steps lead to rows or an object, and where the steps after them go on. -/
theorem rerooted_of_run (hsep : c.schema.Separated) {n : Nat}
    (hrun : ((c.calls n).classify id steps).run s = (.ok d, t)) (hb : d.base? = some (k, os)) :
    c.Rerooted t id steps k os := by
  induction n generalizing id steps d s t k os with
  | zero => cases hrun
  | succ n ih => exact rerooted_of_classify hsep (c.calls_derive n) ih hrun hb

theorem classified_of_classifyProjected {projection : ContextId}
    (hrun : (classifyProjected rec projection sequence l e steps).run s = (.ok d, t)) (hb : d.base? = some (k, os)) :
    d = .object projection steps ∨ ∃ id' steps', (rec.classify id' steps').run s = (.ok d, t) := by
  have hpath : ∀ {e : Expr} {steps}, (classifyValue rec projection sequence l e steps).run s = (.ok d, t) →
      ∃ id' steps', (rec.classify id' steps').run s = (.ok d, t) := fun hrun =>
    let ⟨_, _, hclassify⟩ := path_of_run_classifyValue hrun (ne_computed_of_base? hb)
    ⟨_, _, hclassify⟩
  induction steps generalizing e with
  | nil =>
    unfold classifyProjected at hrun
    split at hrun
    · cases hrun
      exact .inl rfl
    · exact .inr (hpath hrun)
  | cons name rest ih =>
    obtain ⟨-, hvalue⟩ | hobject | ⟨bindings, value, -, -, hinner, hne⟩ := of_run_classifyProjected_cons hrun
    · exact .inr (hpath hvalue)
    · exact .inl hobject
    · exact (ih hinner).imp_left fun h => absurd h (hne _)

theorem steps_ne_nil_of_run {n : Nat} (hrun : ((c.calls n).classify id steps).run s = (.ok (.object k os), t))
    {x : Context} {r : Rows} (hx : t.contexts[k]? = some x) (hr : x.rows? = some r) : os ≠ [] := by
  induction n generalizing id steps s with
  | zero => cases hrun
  | succ n ih =>
    have hst : s.Later t := ((derives_classify (c.calls_derive n) id steps).extends_of_run hrun).later
    have hclassify : (c.classify (c.calls n) id steps).run s = (.ok (.object k os), t) := hrun
    obtain ⟨y, s₁, hcontext, hclassify⟩ := exists_of_run_bind hclassify
    obtain ⟨hy, rfl⟩ := of_run_context hcontext
    cases y with
    | table | association =>
      obtain ⟨-, -, hne⟩ | ⟨_, _, _, _, _, _, _, _, -, -, -, -, -, hinner⟩ := base_of_run_classifyMember hclassify rfl
      · exact hne ⟨_, rfl⟩
      · exact ih hinner
    | projection parent m sequence l scalar =>
      cases scalar with
      | true =>
        obtain ⟨path, -, hpath⟩ := path_of_run_classifyValue hclassify nofun
        exact ih hpath
      | false =>
        obtain hobject | ⟨_, _, hinner⟩ := classified_of_classifyProjected hclassify rfl
        · -- the projection has no rows
          cases hobject
          obtain ⟨_, hx'⟩ := hst _ _ hy
          rw [hx] at hx'
          cases hx'
          cases hr
        · exact ih hinner
    | lambda | update => cases hclassify

end Compiler
end ObjectQuery
