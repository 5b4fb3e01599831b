import ObjectQuery.Proofs.Coherent
import ObjectQuery.Proofs.Nested.Operators

/-!
What steps denote they denote for good, unless it is computed: once the associations on their way are followed, looking
again finds the same and writes nothing.
-/
namespace ObjectQuery

open Build

variable {s t u : BuildState}

/-- The contexts are those of before, with more associations followed from them, and new ones. -/
def BuildState.Later (s t : BuildState) : Prop :=
  ∀ (id : ContextId) (d : Context), s.contexts[id]? = some d → ∃ more, t.contexts[id]? = some (d.followAll more)

namespace BuildState

theorem Later.refl (s : BuildState) : s.Later s :=
  fun _ d h => ⟨[], by rwa [d.followAll_nil]⟩

theorem Later.trans (h : s.Later t) (k : t.Later u) : s.Later u := by
  intro id d hd
  obtain ⟨more, ht⟩ := h id d hd
  obtain ⟨further, hu⟩ := k id _ ht
  exact ⟨more ++ further, by rwa [Context.followAll_followAll] at hu⟩

theorem Extends.later (h : s.Extends t) : s.Later t :=
  h.contexts

theorem later_of_eq (h : t.contexts = s.contexts) : s.Later t :=
  fun _ d hd => ⟨[], by rwa [h, d.followAll_nil]⟩

theorem later_enter (s : BuildState) (d : Context) : s.Later (s.enter d) :=
  ((Extends.refl s).enter d).later

end BuildState

theorem Context.rows?_followAll (more : List (String × ContextId)) (d : Context) :
    (d.followAll more).rows? = d.rows?.map fun r => { r with followed := r.followed ++ more } := by
  cases d <;> rfl

theorem Context.rows?_followAll_of {d : Context} {r : Rows} (h : d.rows? = some r) (more : List (String × ContextId)) :
    (d.followAll more).rows? = some { r with followed := r.followed ++ more } := by
  rw [rows?_followAll, h, Option.map_some]

/-- The rows of a table or of an association, as steps that lead nowhere further denote them. -/
def Context.itself (id : ContextId) : Context → Denotation
  | .association .. => .association id
  | _ => .table id

theorem Context.itself_followAll (more : List (String × ContextId)) (id : ContextId) (d : Context) :
    (d.followAll more).itself id = d.itself id := by
  cases d <;> rfl

/-- An association that is followed leads to the same rows ever after. -/
def BuildState.Follows (s : BuildState) (owner : ContextId) (name : String) (rows : ContextId) : Prop :=
  ∃ d r, s.contexts[owner]? = some d ∧ d.rows? = some r ∧ r.followed.lookup name = some rows

theorem BuildState.Follows.mono {owner rows : ContextId} {name : String} (h : s.Follows owner name rows)
    (hst : s.Later t) : t.Follows owner name rows := by
  obtain ⟨d, r, hd, hr, hl⟩ := h
  obtain ⟨more, ht⟩ := hst owner d hd
  refine ⟨_, _, ht, Context.rows?_followAll_of hr more, ?_⟩
  simp [List.lookup_append, hl]

namespace Compiler

variable [Observer] {c : Compiler}

theorem run_followAssociation {owner rows : ContextId} {name : String} (h : s.Follows owner name rows)
    (a : Association) : (c.followAssociation owner name a).run s = (.ok rows, s) := by
  obtain ⟨d, r, hd, hr, hl⟩ := h
  rw [followAssociation, run_bind, run_context_of hd]
  simp only [hr, Option.elim_some, hl]
  rfl

/-- After an association is followed it leads to the rows that were found or entered. -/
theorem follows_followAssociation {owner rows : ContextId} {name : String} {a : Association} {d : Context} {r : Rows}
    (hd : s.contexts[owner]? = some d) (hr : d.rows? = some r)
    (hrun : (c.followAssociation owner name a).run s = (.ok rows, t)) : t.Follows owner name rows := by
  rw [followAssociation, run_bind, run_context_of hd] at hrun
  simp only [hr, Option.elim_some] at hrun
  cases hl : r.followed.lookup name with
  | some id =>
    rw [hl] at hrun
    cases hrun
    exact ⟨d, r, hd, hr, hl⟩
  | none =>
    rw [hl] at hrun
    -- until the rows are entered nothing happens to the contexts
    obtain ⟨target, s₁, hentity, hrest⟩ := exists_of_run_bind hrun
    obtain ⟨-, rfl⟩ := of_run_orFail hentity
    obtain ⟨aliasName, s₂, halias, hjoins⟩ := exists_of_run_bind hrest
    rw [run_nextAlias] at halias
    obtain rfl : s₁.countAlias = s₂ := congrArg Prod.snd halias
    obtain ⟨_, s₃, hjoin, henters⟩ := exists_of_run_bind hjoins
    have hd : s₃.contexts[owner]? = some d := by
      rw [run_modifyStatement] at hjoin
      split at hjoin <;> cases congrArg Prod.snd hjoin <;> exact hd
    obtain ⟨id, s₄, henter, hnotes⟩ := exists_of_run_bind henters
    have hd : s₄.contexts[owner]? = some d := by
      rw [run_addContext] at henter
      obtain rfl := congrArg Prod.snd henter
      exact (List.getElem?_append_left (List.getElem?_eq_some_iff.mp hd).1).trans hd
    obtain ⟨_, s₅, hnote, hlast⟩ := exists_of_run_bind hnotes
    rw [run_modifyContext, hd] at hnote
    obtain rfl : s₄.adjust owner (Context.follow name id) = s₅ := congrArg Prod.snd hnote
    cases hlast
    refine ⟨d.followAll [(name, rows)], { r with followed := r.followed ++ [(name, rows)] }, ?_, ?_, ?_⟩
    · simp [BuildState.adjust, hd, Context.follow_eq_followAll]
    · exact Context.rows?_followAll_of hr _
    · simp [List.lookup_append, hl]

/-- What steps denote where there are rows, unless it is computed: the rows themselves, a column or an object of theirs,
or what an association leads to. -/
inductive Locates (c : Compiler) (rec : Calls) (s : BuildState) (id : ContextId) (x : Context) :
    List String → Denotation → BuildState → Prop
  | itself : Locates c rec s id x [] (x.itself id) s
  | column {name : String} {k : ColumnId} {steps : List String} {r : Rows} {e : Entity} :
    x.rows? = some r → c.schema.mapping.entity? r.entity = some e →
    longestMember? e steps = some (name, .column k, []) → Locates c rec s id x steps (.field k r.aliasName) s
  | object {step : String} {steps : List String} {r : Rows} {e : Entity} :
    x.rows? = some r → c.schema.mapping.entity? r.entity = some e → longestMember? e (step :: steps) = none →
    e.isComplex (Dotted.join (step :: steps)) → Locates c rec s id x (step :: steps) (.object id (step :: steps)) s
  | association {name : String} {a : Association} {steps rest : List String} {target : ContextId} {r : Rows}
    {e : Entity} {d : Denotation} {t u : BuildState} :
    x.rows? = some r → c.schema.mapping.entity? r.entity = some e →
    longestMember? e steps = some (name, .association a, rest) →
    (c.followAssociation id name a).run s = (.ok target, u) → (rec.classify target rest).run u = (.ok d, t) →
    Locates c rec s id x steps d t

variable {rec again : Calls} {id : ContextId} {steps rest : List String} {k : ColumnId} {name : String} {x : Context}
  {r : Rows} {e : Entity} {d : Denotation}

omit [Observer] in
theorem of_run_computed {act : Build SqlExpr} (hrun : (.computed <$> act : Build Denotation).run s = (.ok d, t)) :
    ∃ v, d = .computed v := by
  obtain ⟨v, -, rfl⟩ := exists_of_run_map hrun
  exact ⟨v, rfl⟩

theorem locates_of_run_classifyMember (hrun : (c.classifyMember rec id steps).run s = (.ok d, t))
    (hd : ∀ v, d ≠ .computed v) : ∃ x, s.contexts[id]? = some x ∧ c.Locates rec s id x steps d t := by
  obtain ⟨x, s₁, hcontext, hsteps⟩ := exists_of_run_bind hrun
  obtain ⟨hx, rfl⟩ := of_run_context hcontext
  refine ⟨x, hx, ?_⟩
  cases steps with
  | nil => cases x <;> cases hsteps <;> exact .itself
  | cons step steps =>
    obtain ⟨r, s₂, hrows, hentity⟩ := exists_of_run_bind hsteps
    obtain ⟨hr, rfl⟩ := of_run_orFail hrows
    obtain ⟨e, s₃, hfound, hmember⟩ := exists_of_run_bind hentity
    obtain ⟨he, rfl⟩ := of_run_orFail hfound
    split at hmember
    · next hl =>
      cases hmember
      exact .column hr he hl
    · obtain ⟨scope, s₄, -, hvalue⟩ := exists_of_run_bind hmember
      obtain ⟨v, rfl⟩ := of_run_computed hvalue
      exact absurd rfl (hd v)
    · next hl =>
      obtain ⟨target, s₄, hfollow, hclassify⟩ := exists_of_run_bind hmember
      exact .association hr he hl hfollow hclassify
    · cases hmember
    · next hl =>
      split at hmember <;> cases hmember
      next hcomplex => exact .object hr he hl hcomplex

theorem run_classifyMember_nil (hx : s.contexts[id]? = some x) :
    (c.classifyMember rec id []).run s = (.ok (x.itself id), s) := by
  rw [classifyMember, run_bind, run_context_of hx]
  cases x <;> rfl

theorem run_classifyMember_of_column (hx : s.contexts[id]? = some x) (hr : x.rows? = some r)
    (he : c.schema.mapping.entity? r.entity = some e) (hl : longestMember? e steps = some (name, .column k, [])) :
    (c.classifyMember rec id steps).run s = (.ok (.field k r.aliasName), s) := by
  cases steps with
  | nil => cases hl
  | cons step steps =>
    rw [classifyMember, run_bind, run_context, hx]
    simp [orFail, hr, entity, he, hl]

theorem run_classifyMember_of_object {step : String} (hx : s.contexts[id]? = some x) (hr : x.rows? = some r)
    (he : c.schema.mapping.entity? r.entity = some e) (hl : longestMember? e (step :: steps) = none)
    (hcomplex : e.isComplex (Dotted.join (step :: steps))) :
    (c.classifyMember rec id (step :: steps)).run s = (.ok (.object id (step :: steps)), s) := by
  rw [classifyMember, run_bind, run_context, hx]
  simp [orFail, hr, entity, he, hl, hcomplex]

theorem run_classifyMember_along {a : Association} (hx : s.contexts[id]? = some x) (hr : x.rows? = some r)
    (he : c.schema.mapping.entity? r.entity = some e) (hl : longestMember? e steps = some (name, .association a, rest)) :
    (c.classifyMember rec id steps).run s =
      (c.followAssociation id name a >>= fun target => rec.classify target rest).run s := by
  cases steps with
  | nil => cases hl
  | cons step steps =>
    rw [classifyMember, run_bind, run_context, hx]
    simp only [hr, entity, he, orFail, pure_bind, hl, Option.elim_some]

theorem run_classifyMember_of_association {b : Association} {target : ContextId} (hx : s.contexts[id]? = some x)
    (hr : x.rows? = some r) (he : c.schema.mapping.entity? r.entity = some e)
    (hl : longestMember? e steps = some (name, .association b, rest)) (hf : s.Follows id name target) :
    (c.classifyMember rec id steps).run s = (rec.classify target rest).run s := by
  rw [run_classifyMember_along hx hr he hl, run_bind, run_followAssociation hf]

/-- Unless the value is computed, a path at the projection's parameter is followed on in what is projected. -/
theorem path_of_run_classifyValue {projection sequence : ContextId} {l : Lambda} {value : Expr}
    (hrun : (classifyValue rec projection sequence l value steps).run s = (.ok d, t)) (hd : ∀ v, d ≠ .computed v) :
    ∃ path, (Path.ofExpr? value).filter (fun path => l.row? = some path.root) = some path ∧
      (rec.classify sequence (path.steps ++ steps)).run s = (.ok d, t) := by
  unfold classifyValue at hrun
  split at hrun
  · next path hp => exact ⟨path, hp, hrun⟩
  · cases steps with
    | nil =>
      obtain ⟨y, s₁, -, hscope⟩ := exists_of_run_bind hrun
      obtain ⟨scope, s₂, -, hvalue⟩ := exists_of_run_bind hscope
      obtain ⟨v, rfl⟩ := of_run_computed hvalue
      exact absurd rfl (hd v)
    | cons => cases hrun

theorem classifyValue_of_path {projection sequence : ContextId} {l : Lambda} {value : Expr} {path : Path}
    (hp : (Path.ofExpr? value).filter (fun path => l.row? = some path.root) = some path) :
    classifyValue rec projection sequence l value steps = rec.classify sequence (path.steps ++ steps) := by
  unfold classifyValue
  rw [hp]

/-- Whatever the one action finds that is not computed, the other finds at any time later and writes nothing. -/
def Recalls (act act' : Build Denotation) : Prop :=
  ∀ {d : Denotation} {s t u : BuildState}, act.run s = (.ok d, t) → (∀ v, d ≠ .computed v) → t.Later u →
    act'.run u = (.ok d, u)

section Recalls

variable (hrec : ∀ id steps, Recalls (rec.classify id steps) (again.classify id steps))
include hrec

theorem recalls_classifyMember (h : rec.Derive) (id : ContextId) (steps : List String) :
    Recalls (c.classifyMember rec id steps) (c.classifyMember again id steps) := by
  intro d s t u hrun hd hu
  have hst := ((derives_classifyMember h id steps).extends_of_run hrun).later
  obtain ⟨x, hx, hlocates⟩ := locates_of_run_classifyMember hrun hd
  obtain ⟨more, hx'⟩ := (hst.trans hu) id x hx
  cases hlocates with
  | itself => rw [run_classifyMember_nil hx', Context.itself_followAll]
  | column hr he hl => exact (run_classifyMember_of_column hx' (Context.rows?_followAll_of hr more) he hl).trans rfl
  | object hr he hl hcomplex =>
    exact run_classifyMember_of_object hx' (Context.rows?_followAll_of hr more) he hl hcomplex
  | @association _ _ _ rest target _ _ _ _ v hr he hl hfollow hclassify =>
    have hvt := ((h.classify [] target rest).extends_of_run hclassify).later
    have hfollows := (follows_followAssociation hx hr hfollow).mono (hvt.trans hu)
    rw [run_classifyMember_of_association hx' (Context.rows?_followAll_of hr more) he hl hfollows]
    exact hrec target rest hclassify hd hu

theorem recalls_classifyValue (projection sequence : ContextId) (l : Lambda) (e : Expr) (steps : List String) :
    Recalls (classifyValue rec projection sequence l e steps) (classifyValue again projection sequence l e steps) := by
  intro d s t u hrun hd hu
  obtain ⟨path, hp, hclassify⟩ := path_of_run_classifyValue hrun hd
  rw [classifyValue_of_path hp]
  exact hrec _ _ hclassify hd hu

theorem recalls_classifyProjected (projection sequence : ContextId) (l : Lambda) (e : Expr) (steps : List String) :
    Recalls (classifyProjected rec projection sequence l e steps)
      (classifyProjected again projection sequence l e steps) := by
  induction steps generalizing e with
  | nil =>
    intro d s t u hrun hd hu
    unfold classifyProjected at hrun ⊢
    split at hrun
    · cases hrun
      rfl
    · exact recalls_classifyValue hrec _ _ l _ _ hrun hd hu
  | cons name rest ih =>
    intro d s t u hrun hd hu
    unfold classifyProjected at hrun ⊢
    split at hrun
    · exact recalls_classifyValue hrec _ _ l _ _ hrun hd hu
    · split at hrun
      · cases hrun
      · next value _ =>
        -- what is found for the part is not computed either, and what is made of it depends on nothing else
        obtain ⟨y, v, hvalue, hlast⟩ := exists_of_run_bind hrun
        cases y with
        | object context steps =>
          dsimp only at hlast
          split at hlast <;> cases hlast
          · next hsame => simp [run_bind, ih value hvalue (by simp) hu, hsame]
          · next hother => simp [run_bind, ih value hvalue (by simp) hu, hother]
        | computed value =>
          cases hlast
          exact absurd rfl (hd value)
        | field | table | association =>
          cases hlast
          simp [run_bind, ih value hvalue hd hu]

theorem recalls_classify (h : rec.Derive) (id : ContextId) (steps : List String) :
    Recalls (c.classify rec id steps) (c.classify again id steps) := by
  intro d s t u hrun hd hu
  have hst := ((derives_classify h id steps).extends_of_run hrun).later
  obtain ⟨x, s₁, hcontext, hclassify⟩ := exists_of_run_bind hrun
  obtain ⟨hx, rfl⟩ := of_run_context hcontext
  obtain ⟨more, hx'⟩ := (hst.trans hu) id x hx
  rw [classify, run_bind, run_context_of hx']
  cases x with
  | table | association => exact recalls_classifyMember hrec h id steps hclassify hd hu
  | projection parent number sequence l scalar =>
    cases scalar with
    | true => exact recalls_classifyValue hrec id sequence l _ steps hclassify hd hu
    | false => exact recalls_classifyProjected hrec id sequence l _ steps hclassify hd hu
  | lambda | update => cases hclassify

end Recalls

theorem recalls_calls (c : Compiler) {n m : Nat} (hnm : n ≤ m) (id : ContextId) (steps : List String) :
    Recalls ((c.calls n).classify id steps) ((c.calls m).classify id steps) := by
  induction n generalizing m id steps with
  | zero => exact fun hrun => by cases hrun
  | succ n ih =>
    obtain ⟨m, rfl⟩ : ∃ k, m = k + 1 := ⟨m - 1, by omega⟩
    exact recalls_classify (ih (by omega)) (c.calls_derive n) id steps

/-- The action, if it finds a column from `s` to `t`, finds it again later on and writes nothing. -/
def Repeats (act : Build Denotation) : Prop :=
  ∀ {k : ColumnId} {a : String} {s t u : BuildState},
    act.run s = (.ok (.field k a), t) → t.Later u → act.run u = (.ok (.field k a), u)

/-- Once steps have been found to denote a column, they are found to denote it whenever one looks again. -/
theorem repeats_calls (c : Compiler) (fuel : Nat) (id : ContextId) (steps : List String) :
    Repeats ((c.calls fuel).classify id steps) :=
  fun hrun hu => recalls_calls c (Nat.le_refl fuel) id steps hrun nofun hu

/-- Steps that were classified are classified alike again, with as many nested calls or more: unless the value is
computed, it takes no further association, join, alias or parameter. -/
theorem classify_again {n m : Nat} (hrun : ((c.calls n).classify id steps).run s = (.ok d, t))
    (hd : ∀ v, d ≠ .computed v) (hnm : n ≤ m) : ((c.calls m).classify id steps).run t = (.ok d, t) :=
  recalls_calls c hnm id steps hrun hd (.refl t)

end Compiler

/-- Employees, each as an object with the manager alone. -/
def bosses : Node :=
  (Node.source "Employee").select ⟨["e"], .construct [("boss", .member (.parameter "e") "manager")]⟩

def bossesBuilt : BuildState :=
  ((Compiler.company.root 12 bosses).run {}).2

/-- The department of a boss's manager takes two more associations and joins the first time, and none again. -/
theorem Compiler.classify_again_bosses : ∃ rows t,
    ((company.calls 9).classify 1 ["boss", "manager", "department"]).run bossesBuilt = (.ok (.association rows), t) ∧
      t.contexts.length = bossesBuilt.contexts.length + 2 ∧
      bossesBuilt.statements.map (·.sources.joins.length) = [1] ∧ t.statements.map (·.sources.joins.length) = [3] ∧
      ((company.calls 12).classify 1 ["boss", "manager", "department"]).run t = (.ok (.association rows), t) := by
  have hrun : ∃ rows t,
      ((company.calls 9).classify 1 ["boss", "manager", "department"]).run bossesBuilt = (.ok (.association rows), t) ∧
        t.contexts.length = bossesBuilt.contexts.length + 2 ∧
        bossesBuilt.statements.map (·.sources.joins.length) = [1] ∧ t.statements.map (·.sources.joins.length) = [3] :=
    ⟨_, _, rfl, rfl, rfl, rfl⟩
  obtain ⟨rows, t, hrun, hcontexts, hbefore, hafter⟩ := hrun
  exact ⟨rows, t, hrun, hcontexts, hbefore, hafter, classify_again hrun nofun (by decide)⟩

end ObjectQuery
