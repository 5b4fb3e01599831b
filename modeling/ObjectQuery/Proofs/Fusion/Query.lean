import ObjectQuery.Proofs.Conversions.Operators
import ObjectQuery.Proofs.Fusion.Operators

/-!
A filter over a projection, and the same filter with the projection taken out of it.
-/
namespace ObjectQuery

open Build Compiler

namespace Fusion

variable {φ : Fusion} {m n : φ.Moment} {i j : ContextId} {d e : Context} {l : Lambda} {c : Compiler}
  {rec rec' : ObjectQuery.Calls}

/-- The filter that takes the place of one over the projection. -/
def filter (φ : Fusion) (l : Lambda) : Lambda :=
  ⟨[φ.row], l.body.fused φ⟩

namespace Moment

def start (φ : Fusion) : φ.Moment :=
  ⟨fun _ _ => False, none, {}, {}⟩

theorem alike_start (φ : Fusion) : (start φ).Alike :=
  ⟨rfl, rfl, nofun, nofun, nofun⟩

theorem holds_start (φ : Fusion) : (start φ).Holds .kept none none :=
  ⟨.none, none, .unbound, nofun⟩

def project (m : φ.Moment) (number : StatementId) (i j : ContextId) : φ.Moment :=
  { m with
    site := some ⟨m.left.contexts.length, i, j⟩
    left := m.left.enter (.projection none number i φ.projection φ.projection.body.bindings?.isNone) }

theorem keeps_project (hsite : m.site = none) (number : StatementId) (i j : ContextId) :
    m.Keeps (m.project number i j) :=
  ⟨id, fun hσ => (Option.some_ne_none _ (hσ.symm.trans hsite)).elim, (sustains_concat _ _).supports,
    (Sustains.refl _).supports⟩

theorem Alike.project (h : m.Alike) (hsite : m.site = none) (hij : m.same i j) (number : StatementId) :
    (m.project number i j).Alike where
  aliases := h.aliases
  statements := h.statements
  unique := h.unique
  contexts hkl := by
    obtain ⟨d, e, hd, he, hde⟩ := h.contexts hkl
    exact ⟨d, e, (List.getElem?_append_left (h.lt_length hkl).1).trans hd, he,
      hde.keep (keeps_project hsite number i j)⟩
  site := by
    rintro _ ⟨⟩
    exact ⟨hij, fun k hk => Nat.lt_irrefl _ (h.lt_length hk).1, number, m.left.getElem?_enter_self _⟩

/-- The parameter is entered for the projection on the left, its row for the sequence on the right. -/
theorem Alike.holds_read {σ : Site} (h : m.Alike) (hσ : m.site = some σ) (number : StatementId) :
    (m.enter (.lambda none number [(φ.parameter, σ.projection)]) (.lambda none number [(φ.row, σ.rows')])).Holds .fused
      (some m.left.contexts.length) (some m.right.contexts.length) := by
  obtain ⟨hrows, -, _, hprojection⟩ := h.site hσ
  exact ⟨.same (.inr ⟨rfl, rfl⟩), σ, hσ, .entered (List.getElem?_eq_some_iff.mp hprojection).1,
    .entered (h.lt_length hrows).2⟩

end Moment

/-- The condition is the same, whether it is stated of the projection or of the rows before it. -/
theorem tracks_restrictProjected (h : φ.Calls rec rec') {σ : Site} (hσ : m.site = some σ)
    (hd : m.left.contexts[σ.projection]? = some d) (he : m.right.contexts[σ.rows']? = some e)
    (hde : e.statement = d.statement) (hrow : l.row? = some φ.parameter) (hl : l.body.Fusible φ)
    (ht : φ.Testable l.body) :
    Tracks m Equal (restrict rec σ.projection l none) (restrict rec' σ.rows' (φ.filter l) none) := by
  intro halike v s hrun
  let n := m.enter (.lambda none d.statement [(φ.parameter, σ.projection)])
    (.lambda none d.statement [(φ.row, σ.rows')])
  have hmn : m.Later n := m.later_enter _ _
  have hcondition : Tracks n Equal (rec.condition m.left.contexts.length l.body)
      (rec'.condition m.right.contexts.length (l.body.fused φ)) :=
    h.condition (show Mode.fused.Takes φ l.body from hl) ht (halike.holds_read hσ d.statement)
  have htracks : Tracks n Equal
      (rec.condition m.left.contexts.length l.body >>= fun p => context σ.projection >>= fun d =>
        modifyStatement d.statement (Statement.restrict · p))
      (rec'.condition m.right.contexts.length (l.body.fused φ) >>= fun p => context σ.rows' >>= fun e =>
        modifyStatement e.statement (Statement.restrict · p)) := by
    refine hcondition.then fun k hk p => ?_
    obtain ⟨d', hd', hbare⟩ := (hmn.trans hk).left _ d hd
    obtain ⟨e', he', hbare'⟩ := (hmn.trans hk).right _ e he
    refine .contexts hd' he' ?_
    rw [Context.statement_of_bare hbare, Context.statement_of_bare hbare', hde]
    exact .modifyStatement _ _
  rw [restrict, lambdaCondition, bind_assoc, run_bind_of (run_lambdaScope hrow hd none)] at hrun
  obtain ⟨k, v', hs, hk, hnow, hrun', hv⟩ := htracks (halike.enter (.read hσ)) v s hrun
  refine ⟨k, v', hs, hmn.trans hk, hnow, ?_, hv⟩
  rw [restrict, lambdaCondition, bind_assoc, run_bind_of (run_lambdaScope (l := φ.filter l) rfl he none), hde]
  exact hrun'

end Fusion

namespace Compiler

variable {c : Compiler} {source source' : Node} {f l l' : Lambda} {k : Nat} {p : Option ContextId} {s t : BuildState}
  {id : ContextId}

theorem builderFor_filter_eq (source source' : Node) (l l' : Lambda) :
    c.builderFor (source.filter l) = c.builderFor (source'.filter l') := by
  have hclaims : (Builder.claims · (source.filter l)) = (Builder.claims · (source'.filter l')) := by
    funext b
    cases b <;> rfl
  simp only [builderFor, hclaims]
  rfl

theorem run_filter_of {u : BuildState} (hb : c.builderFor (source.filter l) = .ok .filter)
    (hsource : (composable "a filter" ((c.calls k).sequence p source)).run s = (.ok id, u))
    (hrestrict : (restrict (c.calls k) id l p).run u = (.ok (), t)) :
    ((c.calls (k + 1)).sequence p (source.filter l)).run s = (.ok id, t) := by
  change (c.sequence (c.calls k) p (source.filter l)).run s = _
  rw [sequence_filter_over hb, run_bind_of hsource, run_bind_of hrestrict]
  rfl

/-- Filtering over a projection means filtering the projected expressions. -/
theorem sequence_filter_fused {φ : Fusion} (hc : c.settings.parameterizeConstants = false) (hs : φ.Apart c.schema)
    (hrow : l.row? = some φ.parameter) (hl : l.body.Fusible φ) (ht : φ.Testable l.body)
    (hrun : ((c.calls k).sequence none ((source.select φ.projection).filter l)).run {} = (.ok id, s)) {n : Nat}
    (hkn : k ≤ n) : ∃ id' t, ((c.calls n).sequence none (source.filter (φ.filter l))).run {} = (.ok id', t) ∧
      t.statements = s.statements := by
  obtain ⟨k, rfl, hb, u, hprojected, hrestrict⟩ := exists_of_run_filter hrun
  obtain ⟨_, v, hselect, hensure⟩ := exists_of_run_bind hprojected
  obtain ⟨_, _, hcomposable, hid⟩ := exists_of_run_bind hensure
  cases hid
  obtain rfl := of_run_ensureComposable hcomposable
  obtain ⟨k, rfl, i, v, d, hsource, hd, rfl, rfl⟩ := exists_of_run_select hselect
  obtain ⟨n, rfl⟩ := Nat.exists_eq_succ_of_ne_zero (Nat.ne_zero_of_lt hkn)
  -- the source is compiled alike on both sides
  obtain ⟨m, j, rfl, hlater, halike, hright, hij, -⟩ :=
    (Fusion.tracks_calls hc hs (by omega : k ≤ n)).sequence "a projection" "a filter"
      (show Mode.kept.TakesNode φ source from trivial) (Fusion.Moment.holds_start φ) (Fusion.Moment.alike_start φ) i _
      hsource
  obtain ⟨d', e, hd', he, hde⟩ := halike.contexts hij
  obtain rfl := Option.some.inj (hd.symm.trans hd')
  -- then the projection is entered on the left, and the condition means the same
  have hsite : m.site = none := hlater.site
  obtain ⟨o, _, rfl, -, hend, hright', -⟩ := Fusion.tracks_restrictProjected
    (Fusion.tracks_calls hc hs (by omega : k + 1 ≤ n)) (m := m.project d.statement i j) rfl
    (m.left.getElem?_enter_self _) he hde.statement hrow hl ht (halike.project hsite hij d.statement) _ _ hrestrict
  refine ⟨j, o.right, run_filter_of ?_ hright hright', hend.statements⟩
  rw [builderFor_filter_eq source (source.select φ.projection) _ l, hb]

end Compiler

/-- Employees, with their department and whether nobody manages them. -/
def Fusion.leaders : Fusion where
  projection := ⟨["c"], .construct [("unit", .convert (.member (.parameter "c") "department")),
    ("leads", .binary (.comparison .equal) (.member (.member (.parameter "c") "manager") "id") .null)]⟩
  row := "c"
  parameter := "x"
  row?_projection := rfl

/-- Those who lead in the department of that name. -/
def ledUnit : Lambda :=
  ⟨["x"], .binary .and (.member (.parameter "x") "leads")
    (.binary (.comparison .equal) (.member (.member (.parameter "x") "unit") "name") (.literal (.text "Sales")))⟩

example : Fusion.leaders.filter ledUnit = ⟨["c"], .binary .and
    (.binary (.comparison .equal) (.member (.member (.parameter "c") "manager") "id") .null)
    (.binary (.comparison .equal) (.member (.member (.parameter "c") "department") "name")
      (.literal (.text "Sales")))⟩ := rfl

def Compiler.selectedLeaders : BuildState :=
  ((Compiler.company.calls 12).sequence none
    (((Node.source "Employee").select Fusion.leaders.projection).filter ledUnit)).run {} |>.2

theorem apart_company (φ : Fusion) : φ.Apart Schema.company :=
  fun _ _ _ _ he hm => (Schema.plain_company.not_computed he hm).elim

theorem sequence_filter_fused_leaders :
    Compiler.company.settings.parameterizeConstants = false ∧ Fusion.leaders.Apart Schema.company ∧
      ledUnit.row? = some Fusion.leaders.parameter ∧ ledUnit.body.Fusible Fusion.leaders ∧
      Fusion.leaders.Testable ledUnit.body ∧
      ((Compiler.company.calls 12).sequence none
        (((Node.source "Employee").select Fusion.leaders.projection).filter ledUnit)).run {} =
          (.ok 1, Compiler.selectedLeaders) ∧
      ∃ id t, ((Compiler.company.calls 12).sequence none
        ((Node.source "Employee").filter (Fusion.leaders.filter ledUnit))).run {} = (.ok id, t) ∧
          t.statements = Compiler.selectedLeaders.statements := by
  have hl : ledUnit.body.Fusible Fusion.leaders := by
    refine ⟨fun _ => ⟨?_, nofun⟩, trivial, nofun, trivial, trivial⟩
    rintro path op lhs rhs ⟨⟩
    exact nofun
  have ht : Fusion.leaders.Testable ledUnit.body := nofun
  have hrun : ((Compiler.company.calls 12).sequence none
      (((Node.source "Employee").select Fusion.leaders.projection).filter ledUnit)).run {} =
        (.ok 1, Compiler.selectedLeaders) := rfl
  exact ⟨rfl, apart_company _, rfl, hl, ht, hrun,
    Compiler.sequence_filter_fused rfl (apart_company _) rfl hl ht hrun (Nat.le_refl 12)⟩

/-! Each of the conditions is needed, even if no parameter of the condition occurs in the projection. -/

/-- The condition that is stated of the projection can be stated before it. -/
def Compiler.Fuses (c : Compiler) (φ : Fusion) (source : Node) (l : Lambda) : Prop :=
  ∀ k id s, ((c.calls k).sequence none ((source.select φ.projection).filter l)).run {} = (.ok id, s) →
    ∃ n id' t, ((c.calls n).sequence none (source.filter (φ.filter l))).run {} = (.ok id', t) ∧
      t.statements = s.statements

/-- What a query is compiled to does not depend on how deep calls may be nested. -/
theorem Compiler.not_fuses_of_run {c : Compiler} {φ : Fusion} {source : Node} {l : Lambda} {k n : Nat} {id : ContextId}
    {s : BuildState} (hrun : ((c.calls k).sequence none ((source.select φ.projection).filter l)).run {} = (.ok id, s))
    (hr : (((c.calls n).sequence none (source.filter (φ.filter l))).run {}).1 ≠ .error .outOfFuel)
    (hne : ∀ id', (((c.calls n).sequence none (source.filter (φ.filter l))).run {}).1 = .ok id' →
      (((c.calls n).sequence none (source.filter (φ.filter l))).run {}).2.statements ≠ s.statements) :
    ¬ c.Fuses φ source l := by
  intro hfuses
  obtain ⟨m, id', t', hagain, hsame⟩ := hfuses k id s hrun
  -- with enough calls, both come to one end
  have hends : ∀ j, (((c.calls j).sequence none (source.filter (φ.filter l))).run {}).1 ≠ .error .outOfFuel →
      ∃ x, (∀ᶠ i in Filter.atTop, ((c.calls i).sequence none (source.filter (φ.filter l))).run {} = x) ∧
        Echoed Eq (((c.calls j).sequence none (source.filter (φ.filter l))).run {}) x := by
    intro j hj
    obtain ⟨_, hout⟩ | hend := (calls_echo (Eq.refl c.erase) j).sequence none rfl {} {} rfl
    · exact (hj (congrArg Prod.fst hout)).elim
    · exact hend
  obtain ⟨x, hx, hecho⟩ := hends n hr
  obtain ⟨y, hy, hecho'⟩ := hends m (by rw [hagain]; nofun)
  obtain ⟨i, hi, hi'⟩ := (hx.and hy).exists
  obtain rfl : x = y := hi.symm.trans hi'
  rw [hagain] at hecho'
  generalize ((c.calls n).sequence none (source.filter (φ.filter l))).run {} = z at hecho hne
  cases hecho' with
  | gives alike' =>
    cases hecho with
    | gives alike => exact hne _ rfl ((congrArg BuildState.statements (alike.trans alike'.symm)).trans hsame)

def Fusion.doubled : Fusion where
  projection := ⟨["c"], .construct [("s", .binary (.arithmetic .add) (Path.toExpr ⟨"c", ["id"]⟩)
    (Path.toExpr ⟨"c", ["id"]⟩))]⟩
  row := "c"
  parameter := "x"
  row?_projection := rfl

def Fusion.identified : Fusion where
  projection := ⟨["c"], .construct [("id", Path.toExpr ⟨"c", ["id"]⟩)]⟩
  row := "c"
  parameter := "x"
  row?_projection := rfl

/-- Who heads a department is read from a parameter that its computed member does not bind. -/
def Compiler.supervised : Compiler where
  schema := {
    database := Schema.company.database
    mapping := ⟨[
      ⟨"Employee", 0, ⟨[("id", .column ⟨0, 0⟩)], by decide⟩⟩,
      ⟨"Department", 1, ⟨[("id", .column ⟨1, 0⟩), ("name", .column ⟨1, 1⟩),
        ("head", .computed ⟨["d"], Path.toExpr ⟨"x", ["id"]⟩⟩)], by decide⟩⟩], by decide⟩ }

def single (departments : Node) : Lambda :=
  ⟨["x"], .binary (.comparison .equal) (.aggregate .count departments none) (.literal (.int 1))⟩

def summed : Lambda :=
  ⟨["x"], Path.toExpr ⟨"x", ["s"]⟩⟩

def headed : Lambda :=
  single ((Node.source "Department").filter ⟨["d"], .binary (.comparison .equal) (Path.toExpr ⟨"d", ["head"]⟩)
    (Path.toExpr ⟨"d", ["id"]⟩)⟩)

def relabelled : Lambda :=
  single (((Node.source "Department").select ⟨["d"], .construct [("key", Path.toExpr ⟨"x", ["id"]⟩),
    ("id", nameOf "d")]⟩).setWith ⟨["q"], Path.toExpr ⟨"q", ["id"]⟩⟩ ⟨["x"], Path.toExpr ⟨"x", ["key"]⟩⟩)

/-- Constants stay what they are, and the condition shares no parameter with the projection. -/
def Compiler.Separates (c : Compiler) (φ : Fusion) (l : Lambda) : Prop :=
  c.settings.parameterizeConstants = false ∧ l.row? = some φ.parameter ∧ ∀ y ∈ l.body.names, y ∉ φ.projection.names

/-- An arithmetic operation is refused as a condition, a computed member may read the parameter, and so may the
projection that a value is set through. -/
theorem Compiler.not_fuses_of_separates :
    (Compiler.company.Separates .doubled summed ∧ ¬ Compiler.company.Fuses .doubled (.source "Employee") summed) ∧
      (Compiler.supervised.Separates .identified headed ∧
        ¬ Compiler.supervised.Fuses .identified (.source "Employee") headed) ∧
      Compiler.company.Separates .identified relabelled ∧
        ¬ Compiler.company.Fuses .identified (.source "Employee") relabelled := by
  refine ⟨⟨⟨rfl, rfl, by decide⟩, ?_⟩, ⟨⟨rfl, rfl, by decide⟩, ?_⟩, ⟨rfl, rfl, by decide⟩, ?_⟩
  · exact not_fuses_of_run (k := 12) (n := 12) rfl nofun nofun
  · exact not_fuses_of_run (k := 12) (n := 12) rfl nofun nofun
  · refine not_fuses_of_run (k := 12) (n := 12) rfl nofun fun _ _ hsame => ?_
    have hitems := congrArg (List.map fun st : Statement => st.update.items.map fun item => item.value.columnId?) hsame
    exact absurd hitems (by decide)

end ObjectQuery
