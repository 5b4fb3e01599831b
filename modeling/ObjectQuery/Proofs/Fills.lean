import ObjectQuery.Proofs.Leaves
import ObjectQuery.Proofs.Reached

/-!
What is known of every value and condition as it is made is known of all that the statements consist of. It is
enough to know it of columns and sub-queries.
-/
namespace ObjectQuery

open World

variable {c : Compiler} {K : Content c} {F : StatementId → Prop} {σ τ : World} {m : StatementId}
  {s : Statement}

/-- All parts of the statement are as the content requires. -/
structure Content.Fills (K : Content c) (σ : World) (m : StatementId) (s : Statement) : Prop where
  select : ∀ v ∈ s.select, K.value σ m v
  condition : K.condition σ m s.condition
  joins : ∀ j ∈ s.sources.joins, K.condition σ m j.on
  items : ∀ i ∈ s.update.items, K.value σ m i.value

theorem Content.Fills.mono (hg : Grows σ τ) (h : K.Fills σ m s) : K.Fills τ m s :=
  ⟨fun v hv => K.value_mono hg (h.select v hv), K.condition_mono hg h.condition,
    fun j hj => K.condition_mono hg (h.joins j hj), fun i hi => K.value_mono hg (h.items i hi)⟩

theorem Content.Fills.settle (h : K.Fills σ m s) {list : List SqlExpr} (hl : ∀ v ∈ list, K.value σ m v) :
    K.Fills σ m { s with sources := s.sources.settle, select := list } := by
  refine ⟨hl, h.condition, fun j hj => ?_, h.items⟩
  obtain ⟨i, hi, rfl⟩ := List.mem_map.mp hj
  exact h.joins i hi

/-- The condition of a new join compares columns of tables that the statement reads. -/
theorem Content.Fills.reach (h : K.Fills σ m s) {r : Rows} {a : Association} {target : TableSource}
    (hown : σ.Reads m ⟨r.table, r.aliasName⟩) (hd : c.Declares r.table a.own)
    (htarget : σ.Reads m target) (hf : c.Declares target.table a.foreign) :
    K.Fills σ m { s with sources := s.sources.reach r a target } := by
  have hnew : K.condition σ m
      (.equal (.column a.own (some r.aliasName)) (.column a.foreign (some target.aliasName))) :=
    K.equal (K.column hown hd) (K.column htarget hf)
  exact ⟨h.select, h.condition, List.forall_mem_append.mpr ⟨h.joins, List.forall_mem_singleton.mpr hnew⟩,
    h.items⟩

theorem Step.fills (h : Step c K F σ τ) (hv : Valid c σ)
    (hk : ∀ m s, σ.statement? m = some s → K.Fills σ m s) :
    ∀ m s, τ.statement? m = some s → K.Fills τ m s := by
  have g := h.grows
  have hk : ∀ m s, σ.statement? m = some s → K.Fills τ m s := fun m s hs => (hk m s hs).mono g
  cases h with
  | begin => exact forall_begin hk ⟨by simp [Statement.empty], K.always, by simp,
      by simp [Statement.empty, Assignments.empty]⟩
  | join owner name d r e target a owns rows entity member leads =>
    have hok := hv.context owner d owns
    have hrows := hok.rows r rows
    have htable := hrows.table_eq entity
    exact forall_alter hk fun s _ hs => hs.reach (hrows.reads.mono g) (htable ▸ .own entity member)
      (Compiler.reads_reach r a _ hok.known) (.foreign entity member leads)
  | restrict m p _ holds =>
    refine forall_alter hk fun s _ hs => ?_
    exact ⟨hs.select, K.conjunction hs.condition (K.condition_mono g holds), hs.joins, hs.items⟩
  | select m list _ holds =>
    refine forall_alter hk fun s hm hs => ⟨fun v hv => ?_, hs.condition, hs.joins, hs.items⟩
    exact (holds s hm v hv).elim (hs.select v) (K.value_mono g)
  | settle m list _ holds =>
    exact forall_alter hk fun s _ hs => hs.settle fun v hv => K.value_mono g (holds v hv)
  | bind | complete => exact forall_alter hk fun s _ hs => ⟨hs.select, hs.condition, hs.joins, hs.items⟩
  | append m items _ _ holds =>
    refine forall_alter hk fun s _ hs => ⟨hs.select, hs.condition, hs.joins, ?_⟩
    exact List.forall_mem_append.mpr ⟨hs.items, fun i hi => K.value_mono g (holds i hi)⟩
  | _ => exact hk

theorem Steps.fills (h : Steps c K F start τ) :
    ∀ m s, τ.statement? m = some s → K.Fills τ m s :=
  h.preserve (I := fun σ => ∀ m s, σ.statement? m = some s → K.Fills σ m s) valid_start
    (fun _ _ hs => by simp [statement?, start] at hs) fun hv hstep => hstep.fills hv

/-- Content that is known of all leaves. -/
def Content.ofLeaves (c : Compiler) (P : World → StatementId → SqlExpr → Prop)
    (mono : ∀ {σ τ m e}, Grows σ τ → P σ m e → P τ m e)
    (within : ∀ {σ : World} {a m e}, σ.Encloses a m → P σ a e → P σ m e)
    (column : ∀ {σ : World} {m source id}, σ.Reads m source → c.Declares source.table id →
      P σ m (.column id (some source.aliasName)))
    (subquery : ∀ {σ : World} {m n a}, σ.outer[n]? = some (some a) → σ.Encloses a m →
      P σ m (.subquery n))
    (parameter : ∀ {σ m name v}, P σ m (.parameter name v)) (literal : ∀ {σ m v}, P σ m (.literal v))
    (null : ∀ {σ m}, P σ m .null) (star : ∀ {σ m}, P σ m .star) : Content c where
  value σ m v := ∀ e ∈ v.leaves, P σ m e
  condition σ m p := ∀ e ∈ p.leaves, P σ m e
  value_mono hg hv e he := mono hg (hv e he)
  condition_mono hg hp e he := mono hg (hp e he)
  value_within hin hv e he := within hin (hv e he)
  column hr hd e he := by
    rw [List.mem_singleton.mp he]
    exact column hr hd
  parameter e he := by
    rw [List.mem_singleton.mp he]
    exact parameter
  literal e he := by
    rw [List.mem_singleton.mp he]
    exact literal
  null e he := by
    rw [List.mem_singleton.mp he]
    exact null
  star e he := by
    rw [List.mem_singleton.mp he]
    exact star
  arithmetic hl hr := List.forall_mem_append.mpr ⟨hl, hr⟩
  function ha e he := by
    rw [SqlExpr.leaves, SqlExpr.leavesAll_eq] at he
    obtain ⟨v, hv, he⟩ := List.mem_flatMap.mp he
    exact ha v hv e he
  subquery ho hin e he := by
    rw [List.mem_singleton.mp he]
    exact subquery ho hin
  ofCondition hp := hp
  toCondition hv := hv
  always e he := by cases he
  ofBool e he := by
    rw [Predicate.leaves_ofBool] at he
    cases he
  compare hl hr := List.forall_mem_append.mpr ⟨hl, hr⟩
  isNull hv := hv
  equal hl hr e he := List.forall_mem_append.mpr ⟨hl, hr⟩ e (Predicate.leaves_equal_subset _ _ he)
  negate hp e he := hp e (Predicate.leaves_negate_subset _ he)
  conjunction hp hq e he :=
    List.forall_mem_append.mpr ⟨hp, hq⟩ e (Predicate.leaves_conjunction_subset _ _ he)
  disjunction hp hq e he :=
    List.forall_mem_append.mpr ⟨hp, hq⟩ e (Predicate.leaves_disjunction_subset _ _ he)

end ObjectQuery
