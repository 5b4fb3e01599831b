import ObjectQuery.Proofs.Nested.Values
import ObjectQuery.Proofs.Repeated.Rules

/-!
Values that differ in their numbers only. They do so as long as the rows outside have the same aliases both times; what
is known of them is known of what is built from them.
-/
namespace ObjectQuery

open Build Compiler

namespace Replay

variable {R : Replay} {ℓ ℓ' : Prop} {i j : ContextId}

namespace Moment

variable {m n : R.Moment} {v v' w w' : SqlExpr} {p p' q q' : Predicate} {r r' : Rows} {d e : Context}

/-- What is outside has rows with the same aliases as its image. -/
def Honest (m : R.Moment) : Prop :=
  ∀ i j d e r r', m.outer i → m.images[i]? = some j → m.left.contexts[i]? = some d → m.right.contexts[j]? = some e →
    d.rows? = some r → e.rows? = some r' → r'.aliasName = r.aliasName

theorem Honest.of_later (h : n.Honest) (hmn : m.Later n) : m.Honest := by
  intro i j d e r r' hi hj hd he hr hr'
  obtain ⟨d', hd', hcore⟩ := hmn.left i d hd
  obtain ⟨e', he', hcore'⟩ := hmn.right j e he
  obtain ⟨f, hf⟩ := Context.rows?_of_core hcore hr
  obtain ⟨g, hg⟩ := Context.rows?_of_core hcore' hr'
  have haliases := h i j d' e' _ _ (hmn.outer hi) (At.mono (ℓ := False) ⟨hj, False.elim⟩ hmn).1 hd' he' hf hg
  exact haliases

/-- If this is a new sub-query or a constant that has become a parameter, then there are some. -/
def Fresh (m : R.Moment) : SqlExpr → Prop
  | .subquery _ => R.first.statements.length < m.left.statements.length
  | .parameter name (some _) => R.first.parameters < m.left.parameters ∧ ∃ k, name = parameterText k
  | _ => True

theorem Fresh.mono (h : m.Fresh v) (hmn : m.Later n) : n.Fresh v := by
  cases v with
  | subquery => exact Nat.lt_of_lt_of_le h hmn.statements
  | parameter name value =>
    cases value with
    | none => trivial
    | some => exact h.imp_left (Nat.lt_of_lt_of_le · hmn.parameters)
  | _ => trivial

/-- The value on the right has greater numbers, if it is asked for. -/
def Shifted (ℓ : Prop) (m : R.Moment) (v v' : SqlExpr) : Prop :=
  ℓ → m.Honest → v' = v.renumber R.renumbering ∧ ∀ l ∈ v.leaves, m.Fresh l

namespace Shifted

theorem mono (h : Shifted ℓ m v v') (hmn : m.Later n) : Shifted ℓ n v v' := fun hℓ hn =>
  (h hℓ (hn.of_later hmn)).imp_right fun hv l hl => (hv l hl).mono hmn

/-- A value without numbers is the same on both sides. -/
theorem plain (hv : ∀ l ∈ v.leaves, l.isNumbered = false) : Shifted ℓ m v v := by
  refine fun _ _ => ⟨(v.renumber_of_plain hv).symm, fun l hl => ?_⟩
  have hplain := hv l hl
  cases l with
  | subquery => cases hplain
  | parameter name value =>
    cases value with
    | none => trivial
    | some => cases hplain
  | _ => trivial

theorem column (k : ColumnId) {a a' : String} (ha : ℓ → m.Honest → a' = a) :
    Shifted ℓ m (.column k (some a)) (.column k (some a')) :=
  fun hℓ hm => ⟨by rw [ha hℓ hm, SqlExpr.renumber_ofColumn], fun l hl => List.mem_singleton.mp hl ▸ trivial⟩

theorem constant (k : Nat) (value : Literal) (hnew : R.first.parameters < m.left.parameters) :
    Shifted ℓ m (.parameter (parameterText k) (some value)) (.parameter (parameterText (k + R.offset)) (some value)) :=
  fun _ _ => ⟨by rw [SqlExpr.renumber, renumbering, Renumbering.text_shift],
    fun l hl => List.mem_singleton.mp hl ▸ ⟨hnew, k, rfl⟩⟩

theorem subquery {k : StatementId} (hk : R.first.statements.length ≤ k) (hlt : k < m.left.statements.length) :
    Shifted ℓ m (.subquery k) (.subquery (R.slot k)) :=
  fun _ _ => ⟨by rw [slot_of_le hk]; rfl, fun l hl => List.mem_singleton.mp hl ▸ Nat.lt_of_le_of_lt hk hlt⟩

/-- What is built from two values, or conditions, that differ in their numbers only. -/
theorem both (hv : Shifted ℓ m v v') (hw : Shifted ℓ m w w') {u u' : SqlExpr}
    (hu : v' = v.renumber R.renumbering → w' = w.renumber R.renumbering → u' = u.renumber R.renumbering)
    (hleaves : u.leaves ⊆ v.leaves ++ w.leaves) : Shifted ℓ m u u' := by
  intro hℓ hm
  obtain ⟨hv', hv⟩ := hv hℓ hm
  obtain ⟨hw', hw⟩ := hw hℓ hm
  exact ⟨hu hv' hw', fun l hl => List.forall_mem_append.mpr ⟨hv, hw⟩ l (hleaves hl)⟩

theorem arithmetic (op : Arithmetic) (hv : Shifted ℓ m v v') (hw : Shifted ℓ m w w') :
    Shifted ℓ m (.arithmetic op v w) (.arithmetic op v' w') :=
  hv.both hw (fun hv hw => by rw [hv, hw, SqlExpr.renumber]) (List.Subset.refl _)

theorem function (name : String) {vs vs' : List SqlExpr} (h : List.Forall₂ (Shifted ℓ m) vs vs') :
    Shifted ℓ m (.function name vs) (.function name vs') := by
  induction h with
  | nil => exact plain fun _ hl => by simp [SqlExpr.leaves, SqlExpr.leavesAll] at hl
  | cons hv _ ih =>
    refine hv.both ih (fun hv hvs => ?_) (List.Subset.refl _)
    rw [SqlExpr.renumber, SqlExpr.function.injEq] at hvs
    rw [hv, hvs.2, SqlExpr.renumber, SqlExpr.renumberAll]

theorem test (hv : Shifted ℓ m v v') : Shifted ℓ m (.condition v.test) (.condition v'.test) := by
  have htrue : Shifted ℓ m (.literal (.bool true)) (.literal (.bool true)) := plain fun l hl => by
    rw [List.mem_singleton.mp hl]
    rfl
  refine hv.both htrue (fun hv _ => ?_) v.leaves_test_subset
  rw [hv, SqlExpr.renumber, SqlExpr.renumber_test]

theorem comparison (op : Comparison) (hv : Shifted ℓ m v v') (hw : Shifted ℓ m w w') :
    Shifted ℓ m (.condition (Compiler.comparison op v w)) (.condition (Compiler.comparison op v' w')) := by
  refine hv.both hw (fun hv hw => ?_) (leaves_comparison_subset op v w)
  rw [hv, hw, SqlExpr.renumber, renumber_comparison]

variable (hp : Shifted ℓ m (.condition p) (.condition p'))

include hp

theorem conjunction (hq : Shifted ℓ m (.condition q) (.condition q')) :
    Shifted ℓ m (.condition (p.conjunction q)) (.condition (p'.conjunction q')) := by
  refine hp.both hq (fun hp hq => ?_) (p.leaves_conjunction_subset q)
  rw [SqlExpr.renumber, SqlExpr.condition.injEq] at hp hq
  rw [hp, hq, SqlExpr.renumber, Predicate.renumber_conjunction]

theorem disjunction (hq : Shifted ℓ m (.condition q) (.condition q')) :
    Shifted ℓ m (.condition (p.disjunction q)) (.condition (p'.disjunction q')) := by
  refine hp.both hq (fun hp hq => ?_) (p.leaves_disjunction_subset q)
  rw [SqlExpr.renumber, SqlExpr.condition.injEq] at hp hq
  rw [hp, hq, SqlExpr.renumber, Predicate.renumber_disjunction]

theorem negate : Shifted ℓ m (.condition p.negate) (.condition p'.negate) := by
  refine hp.both hp (fun hp _ => ?_) fun l hl => List.mem_append_left _ (p.leaves_negate_subset hl)
  rw [SqlExpr.renumber, SqlExpr.condition.injEq] at hp
  rw [hp, SqlExpr.renumber, Predicate.renumber_negate]

end Shifted
end Moment
end Replay
end ObjectQuery
