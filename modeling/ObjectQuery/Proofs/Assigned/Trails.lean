import ObjectQuery.Proofs.Assigned.Itself
import ObjectQuery.Proofs.Fusion.Replace
import ObjectQuery.Proofs.Repeated.Landed

/-!
Where projections lead that select one association after the other. The schema says it alone: an update of such a source
that compiles applies to rows of the entity that the steps of all the projections, read in one go, lead to.
-/
namespace ObjectQuery

open Build

/-- The steps lead from the one entity to the other, along associations only. -/
inductive Entity.Leads (m : Mapping) : Entity → List String → Entity → Prop
  | here (e : Entity) : Leads m e [] e
  | along {e f g : Entity} {name : String} {a : Association} {steps rest : List String}
    (member : Compiler.longestMember? e steps = some (name, .association a, rest))
    (target : m.entity? a.target = some f) (further : Leads m f rest g) : Leads m e steps g

/-- Rows of the entity with this name, filtered any number of times, of which projections select what the steps lead
to. -/
inductive Node.Trails : Node → String → List String → Prop
  | source (name : String) : Trails (.source name) name []
  | filter {node : Node} {name : String} {steps : List String} (h : Trails node name steps) (condition : Lambda) :
    Trails (node.filter condition) name steps
  | select {node : Node} {name : String} {steps : List String} (h : Trails node name steps) {l : Lambda} {path : Path}
    (body : Path.ofExpr? l.body = some path) (row : l.row? = some path.root) :
    Trails (node.select l) name (steps ++ path.steps)

/-- The context has rows of the entity with this name, or projects what the steps lead to from there. -/
inductive BuildState.Trails (s : BuildState) (name : String) : ContextId → List String → Prop
  | rows {id : ContextId} {x : Context} {r : Rows} (context : s.contexts[id]? = some x) (rows : x.rows? = some r)
    (entity : r.entity = name) : Trails s name id []
  | projection {id q : ContextId} {p : Option ContextId} {m : StatementId} {l : Lambda} {path : Path}
    {steps : List String} (context : s.contexts[id]? = some (.projection p m q l true))
    (body : Path.ofExpr? l.body = some path) (row : l.row? = some path.root) (h : Trails s name q steps) :
    Trails s name id (steps ++ path.steps)

variable {c : Compiler} {s t : BuildState} {id : ContextId} {name : String} {steps rest : List String} {n : Nat}
  {d : Denotation} {e f : Entity} {x : Context} {r : Rows}

theorem BuildState.Trails.mono (h : s.Trails name id steps) (hst : s.Later t) : t.Trails name id steps := by
  induction h with
  | rows context rows entity =>
    obtain ⟨more, ht⟩ := hst _ _ context
    exact .rows ht (Context.rows?_followAll_of rows more) entity
  | projection context body row _ ih =>
    obtain ⟨more, ht⟩ := hst _ _ context
    exact .projection ht body row ih

namespace Compiler

/-! What the steps lead to. -/

/-- The action stops for want of fuel, or at a number that names nothing, or it gives a result. -/
def Faultless {α : Type} (act : Build α) : Prop :=
  ∀ s fault, (act.run s).1 ≠ .error (.failed fault)

theorem Faultless.bind {α β : Type} {act : Build α} {next : α → Build β} (h : Faultless act)
    (hn : ∀ a, Faultless (next a)) : Faultless (act >>= next) := by
  intro s fault
  have hs := h s fault
  rw [run_bind]
  cases hr : act.run s with
  | mk result t =>
    rw [hr] at hs
    cases result with
    | error stop => exact fun h => hs (congrArg Except.error (Except.error.inj h))
    | ok a => exact hn a t fault

theorem faultless_pure {α : Type} (a : α) : Faultless (pure a) :=
  fun _ _ => nofun

theorem faultless_context (id : ContextId) : Faultless (context id) := by
  intro s fault
  rw [run_context]
  cases s.contexts[id]? <;> nofun

theorem faultless_nextAlias : Faultless nextAlias := by
  intro s fault h
  rw [run_nextAlias] at h
  cases h

theorem faultless_modifyStatement (m : StatementId) (edit : Statement → Statement) :
    Faultless (modifyStatement m edit) := by
  intro s fault h
  rw [run_modifyStatement] at h
  cases hm : s.statements[m]? <;> rw [hm] at h <;> cases h

theorem faultless_addContext (d : Context) : Faultless (addContext d) := by
  intro s fault h
  rw [run_addContext] at h
  cases h

theorem faultless_modifyContext (id : ContextId) (edit : Context → Context) : Faultless (modifyContext id edit) := by
  intro s fault h
  rw [run_modifyContext] at h
  cases hid : s.contexts[id]? <;> rw [hid] at h <;> cases h

theorem faultless_followAssociation {owner : ContextId} {a : Association}
    (hf : c.schema.mapping.entity? a.target = some f) : Faultless (c.followAssociation owner name a) := by
  refine (faultless_context owner).bind fun d => ?_
  split
  · exact faultless_pure _
  · have hentity : Faultless (c.entity a.target) := by
      rw [entity, hf]
      exact faultless_pure f
    exact hentity.bind fun _ => faultless_nextAlias.bind fun _ => (faultless_modifyStatement _ _).bind fun _ =>
      (faultless_addContext _).bind fun _ => (faultless_modifyContext _ _).bind fun _ => faultless_pure _

/-- How it ends to ask what a path to rows of the entity denotes: it finds such rows, and fails for no fault of the
path. -/
inductive LeadsTo (c : Compiler) (f : Entity) : Except Stop Denotation × BuildState → Prop
  | rows {d : Denotation} {rows : ContextId} {y : Context} {q : Rows} {t : BuildState}
    (answer : Request.table.answer d = ⟨true, some rows⟩) (context : t.contexts[rows]? = some y)
    (rows : y.rows? = some q) (entity : c.schema.mapping.entity? q.entity = some f) : LeadsTo c f (.ok d, t)
  | stops {stop : Stop} {t : BuildState} (h : ∀ fault, stop ≠ .failed fault) : LeadsTo c f (.error stop, t)

theorem exists_rows_of_run_followAssociation {a : Association} {target : ContextId} (hs : c.Landed s)
    (hx : s.contexts[id]? = some x) (hr : x.rows? = some r) (he : c.schema.mapping.entity? r.entity = some e)
    (ha : e.member? name = some (.association a)) (hf : c.schema.mapping.entity? a.target = some f)
    (hrun : (c.followAssociation id name a).run s = (.ok target, t)) :
    c.Landed t ∧ ∃ y q, t.contexts[target]? = some y ∧ y.rows? = some q ∧
      c.schema.mapping.entity? q.entity = some f := by
  have hends := ends_followAssociation hx hr he ha
  rw [hrun] at hends
  have ht : c.Landed t := landed_followAssociation hends hs
  refine ⟨ht, ?_⟩
  obtain ⟨m, r', e', a', f', q, hat, he', ha', hf', htarget, hentity, -⟩ :=
    ht id name target (follows_followAssociation hx hr hrun)
  -- the owner has the rows that it had before, so the association is this one
  obtain ⟨more, hat'⟩ := BuildState.RowsAt.mono ⟨x, hx, rfl, hr⟩ hends.keepsContexts
  obtain ⟨-, rfl⟩ := hat.unique hat'
  obtain rfl := Option.some.inj (he.symm.trans he')
  cases ha.symm.trans ha'
  obtain rfl := Option.some.inj (hf.symm.trans hf')
  refine ⟨_, q, htarget, rfl, ?_⟩
  rwa [hentity, Mapping.name_of_entity? hf]

theorem leadsTo_of_leads (hl : e.Leads c.schema.mapping steps f) (hs : c.Landed s) (hx : s.contexts[id]? = some x)
    (hr : x.rows? = some r) (he : c.schema.mapping.entity? r.entity = some e) :
    c.LeadsTo f (((c.calls n).classify id steps).run s) := by
  induction hl generalizing n s id x r with
  | here e =>
    cases n with
    | zero => exact .stops nofun
    | succ n =>
      change c.LeadsTo e ((c.classify (c.calls n) id []).run s)
      rw [run_classify_of_rows hx hr, run_classifyMember_nil hx]
      refine .rows (show Request.table.answer _ = ⟨true, some id⟩ from ?_) hx hr he
      cases x with
      | table | association => rfl
      | projection | lambda | update => cases hr
  | @along e f g name a steps rest member target _ ih =>
    cases n with
    | zero => exact .stops nofun
    | succ n =>
      change c.LeadsTo g ((c.classify (c.calls n) id steps).run s)
      rw [run_classify_of_rows hx hr, run_classifyMember_along hx hr he member, run_bind]
      have hfaultless : ∀ fault, ((c.followAssociation id name a).run s).1 ≠ .error (.failed fault) :=
        faultless_followAssociation target s
      cases hfollow : (c.followAssociation id name a).run s with
      | mk result u =>
        rw [hfollow] at hfaultless
        cases result with
        | error stop => exact .stops fun fault h => hfaultless fault (congrArg Except.error h)
        | ok owner =>
          obtain ⟨hu, y, q, hy, hq, hf⟩ :=
            exists_rows_of_run_followAssociation hs hx hr he (member?_of_longestMember? member) target hfollow
          exact ih hu hy hq hf

/-- Projections are looked through, down to the rows that they select from. -/
theorem leadsTo_of_trails (h : s.Trails name id steps) (hs : c.Landed s) (he : c.schema.mapping.entity? name = some e)
    (hl : e.Leads c.schema.mapping (steps ++ rest) f) : c.LeadsTo f (((c.calls n).classify id rest).run s) := by
  induction h generalizing n rest with
  | rows context rows entity => exact leadsTo_of_leads hl hs context rows (entity ▸ he)
  | @projection id q p m l path steps context body row _ ih =>
    cases n with
    | zero => exact .stops nofun
    | succ n =>
      have hpath : (Path.ofExpr? l.body.strip).filter (fun path => l.row? = some path.root) = some path := by
        simp [Path.ofExpr?_strip, body, row]
      change c.LeadsTo f ((c.classify (c.calls n) id rest).run s)
      rw [classify, run_bind_of (run_context_of context)]
      change c.LeadsTo f ((classifyValue (c.calls n) id q l l.body.strip rest).run s)
      rw [classifyValue_of_path hpath]
      exact ih (by rwa [← List.append_assoc])

/-! What the sequence is. -/

theorem of_run_composable {act : Build ContextId} {operation : String}
    (hrun : (composable operation act).run s = (.ok id, t)) : act.run s = (.ok id, t) := by
  obtain ⟨id', u, hact, hcomposes⟩ := exists_of_run_bind hrun
  obtain ⟨_, u', hensure, hlast⟩ := exists_of_run_bind hcomposes
  obtain rfl := of_run_ensureComposable hensure
  cases hlast
  exact hact

theorem trails_of_run_sequence {node : Node} {parent : Option ContextId} (h : node.Trails name steps)
    (hrun : ((c.calls n).sequence parent node).run s = (.ok id, t)) : t.Trails name id steps := by
  induction h generalizing n id t with
  | source name =>
    cases n with
    | zero => cases hrun
    | succ n =>
      have hsequence : (c.sequence (c.calls n) parent (.source name)).run s = (.ok id, t) := hrun
      obtain ⟨b, _, hfound, hbuild⟩ := exists_of_run_bind hsequence
      obtain ⟨hb, rfl⟩ := of_run_ofExcept hfound
      obtain rfl : b = .source := Builder.eq_of_claims (claims_of_builderFor hb) rfl
      change (c.buildSource (.source name) parent).run _ = (.ok id, t) at hbuild
      obtain ⟨name', _, e, m, aliasName, harguments, he, hid⟩ := of_run_buildSource hbuild
      cases harguments
      exact .rows hid rfl (Mapping.name_of_entity? he)
  | filter _ condition ih =>
    obtain ⟨n, rfl, -, u, hsource, hrestrict⟩ := exists_of_run_filter hrun
    exact (ih (of_run_composable hsource)).mono
      ((retains_restrict (c.calls_derive n) id condition parent).later_of_run hrestrict)
  | @select _ _ _ _ l path body row ih =>
    obtain ⟨n, rfl, sequence, u, d, hsource, -, rfl, rfl⟩ := exists_of_run_select hrun
    have hscalar : l.body.bindings?.isNone := by
      cases hb : l.body.bindings? with
      | none => rfl
      | some bindings =>
        rw [Path.eq_none_of_bindings? hb] at body
        cases body
    rw [hscalar]
    exact .projection (u.getElem?_enter_self _) body row ((ih (of_run_composable hsource)).mono (u.later_enter _))

theorem landed_of_run_sequence {node : Node} {parent : Option ContextId} (hs : c.Landed s) (hk : node.kind ≠ .update)
    (hrun : ((c.calls n).sequence parent node).run s = (.ok id, t)) : c.Landed t := by
  have hends := (calls_obey c.landing n).sequence parent node s
  rw [Law.Yields, hrun] at hends
  cases hends with
  | gives _ made =>
    cases made with
    | rows _ _ made => exact made hs
    | update _ _ _ _ kind => exact absurd kind hk

/-- An update asks for rows first, and takes it for an answer that the path is at fault. -/
theorem of_run_updatedRows? {rec : Calls} {sequence : ContextId} {rows : Option (ContextId × TableId)}
    (hrun : (updatedRows? rec sequence).run s = (.ok rows, t)) :
    (∃ d u, (rec.classify sequence []).run s = (.ok d, u)) ∨
      ∃ path fault u, (rec.classify sequence []).run s = (.error (.failed (.memberResolution path fault)), u) := by
  obtain ⟨_, s₁, hrows, -⟩ := exists_of_run_bind hrun
  obtain ⟨_, s₂, hask, -⟩ := exists_of_run_bind hrows
  obtain ⟨d, s₃, hcontext, hasks⟩ := exists_of_run_bind hask
  obtain ⟨-, rfl⟩ := of_run_context hcontext
  split at hasks
  · cases hasks
  · obtain ⟨answer, s₄, hattempt, hlast⟩ := exists_of_run_bind hasks
    rw [run_attempt] at hattempt
    split at hattempt <;> cases hattempt
    · next hclassify => exact .inl ⟨_, _, hclassify⟩
    · next e hclassify =>
      cases e with
      | memberResolution path fault => exact .inr ⟨path, fault, s₄, hclassify⟩
      | _ => cases hlast

end Compiler

theorem Node.sets_of_trails {node : Node} (h : node.Trails name steps) : node.sets = [] := by
  induction h with
  | source name => rfl
  | @filter node _ _ _ condition ih =>
    exact (show (node.filter condition).sets = node.sets from sets_of_kind_ne rfl nofun).trans ih
  | @select node _ _ _ l _ _ _ ih =>
    exact (show (node.select l).sets = node.sets from sets_of_kind_ne rfl nofun).trans ih

/-- If an update of such a source compiles, and the steps of its projections lead to an entity, then the source compiles
to rows of that entity. -/
theorem Compiler.compilesToRows_of_leads {fuel : Nat} {source : Node} {setter : Lambda} {q : CompiledQuery}
    (h : source.Trails name steps) (he : c.schema.mapping.entity? name = some e)
    (hl : e.Leads c.schema.mapping steps f) (hq : c.compile fuel (source.updateWith setter) = .ok q) :
    ∃ r, c.CompilesToRows source f r := by
  obtain ⟨_, n, sequence, s, _, u, v, -, hprimary, hkind, hsequence, -, -, hassign, -⟩ := of_compile_update hq rfl
  obtain rfl := Option.some.inj ((Node.primary?_chain ..).symm.trans hprimary)
  have hlanded := landed_of_run_sequence (@Visits.start c fun _ => True).landed hkind hsequence
  have hleads : c.LeadsTo f (((c.calls n).classify sequence []).run s) :=
    leadsTo_of_trails (trails_of_run_sequence h hsequence) hlanded he (by rwa [List.append_nil])
  obtain ⟨rows, t, hrows, -⟩ := exists_of_run_bind (show (c.updateWith (c.calls n) q.root sequence setter none).run s =
    (.ok (), u) from hassign)
  obtain ⟨d, t, hclassify⟩ | ⟨path, fault, t, hclassify⟩ := of_run_updatedRows? hrows
  · rw [hclassify] at hleads
    cases hleads with
    | rows hd hy hq hf => exact ⟨_, n, sequence, s, _, t, hsequence, ⟨d, hclassify, hd⟩, ⟨_, hy, hq⟩, hf⟩
  · rw [hclassify] at hleads
    cases hleads with
    | stops h => exact absurd rfl (h _)

/-- A setter that gives back its row assigns every column from itself. If the source, over which nothing is set,
compiles to rows of an entity, the update has one item for each member that is stored in a column, in the order of
declaration: the column itself, read through the alias of these rows. Where a filtered entity's rows are projected along
associations, the entity that the schema leads to is the one. -/
theorem Compiler.items_of_itself {fuel : Nat} {source : Node} {parameter : String} {q : CompiledQuery}
    (h : c.compile fuel (source.updateWith (.itself parameter)) = .ok q) :
    (source.sets = [] → ∀ e r, c.CompilesToRows source e r → q.Keeps e r.aliasName) ∧
      ∀ name steps e f, source.Trails name steps → c.schema.mapping.entity? name = some e →
        e.Leads c.schema.mapping steps f → ∃ r, c.CompilesToRows source f r ∧ q.Keeps f r.aliasName := by
  refine ⟨fun hsets e r hrows => keeps_of_compilesToRows hsets hrows h, fun name steps e f htrails he hl => ?_⟩
  obtain ⟨r, hrows⟩ := compilesToRows_of_leads htrails he hl h
  exact ⟨r, hrows, keeps_of_compilesToRows (Node.sets_of_trails htrails) hrows h⟩

/-- Employees with an embedded label, and with bosses who are employees too. -/
def Compiler.labelled : Compiler where
  schema := {
    database := Schema.company.database
    mapping := ⟨[
      ⟨"Employee", 0, ⟨[("id", .column ⟨0, 0⟩), ("label.name", .column ⟨0, 1⟩), ("label.code", .column ⟨0, 3⟩),
        ("boss", .association ⟨"Employee", ⟨0, 2⟩, ⟨0, 0⟩, true⟩)], by decide⟩⟩], by decide⟩ }

/-- The bosses of the employees called `x`. -/
def labelledBosses : Node :=
  ((Node.source "Employee").filter ⟨["e"], .binary (.comparison .equal)
    (.member (.member (.parameter "e") "label") "name") (.literal (.text "x"))⟩).select
      ⟨["e"], .member (.parameter "e") "boss"⟩

def keptBossesQuery : CompiledQuery :=
  (Compiler.labelled.compile 8 (labelledBosses.updateWith (.itself "b"))).toOption.getD default

/-- The bosses are joined in as `t2`, and the members of their labels are assigned like any other. -/
theorem Compiler.items_keptBosses :
    labelledBosses.sets = [] ∧
      Compiler.labelled.compile 8 (labelledBosses.updateWith (.itself "b")) = .ok keptBossesQuery ∧
      (∃ e r st, Compiler.labelled.CompilesToRows labelledBosses e r ∧
        keptBossesQuery.statements[keptBossesQuery.root]? = some st ∧
        st.update.items = [⟨⟨0, 0⟩, .column ⟨0, 0⟩ (some "t2")⟩, ⟨⟨0, 1⟩, .column ⟨0, 1⟩ (some "t2")⟩,
          ⟨⟨0, 3⟩, .column ⟨0, 3⟩ (some "t2")⟩]) ∧
      labelledBosses.Trails "Employee" ["boss"] ∧
      ∃ e f r, Compiler.labelled.schema.mapping.entity? "Employee" = some e ∧
        e.Leads Compiler.labelled.schema.mapping ["boss"] f ∧ Compiler.labelled.CompilesToRows labelledBosses f r ∧
        keptBossesQuery.Keeps f r.aliasName := by
  have hq : Compiler.labelled.compile 8 (labelledBosses.updateWith (.itself "b")) = .ok keptBossesQuery := rfl
  have hrows : ∃ e r, Compiler.labelled.CompilesToRows labelledBosses e r ∧ r.aliasName = "t2" ∧
      e.stored.map Prod.snd = [⟨0, 0⟩, ⟨0, 1⟩, ⟨0, 3⟩] :=
    ⟨_, _, ⟨8, _, _, _, _, rfl, ⟨_, rfl, rfl⟩, ⟨_, rfl, rfl⟩, rfl⟩, rfl, rfl⟩
  obtain ⟨e, r, hrows, halias, hcolumns⟩ := hrows
  obtain ⟨hkeeps, hleads⟩ := Compiler.items_of_itself hq
  obtain ⟨st, hst, hitems⟩ := hkeeps rfl e r hrows
  have hkept : st.update.items = (e.stored.map Prod.snd).map (SetItem.keeping r.aliasName) := by
    rw [hitems, List.map_map]
    rfl
  have htrails : labelledBosses.Trails "Employee" ["boss"] :=
    @Node.Trails.select _ _ _ (.filter (.source "Employee") _) ⟨["e"], .member (.parameter "e") "boss"⟩
      ⟨"e", ["boss"]⟩ rfl rfl
  obtain ⟨r', hbosses, hkeeps'⟩ := hleads "Employee" ["boss"] _ _ htrails rfl (.along rfl rfl (.here _))
  refine ⟨rfl, hq, ⟨e, r, st, hrows, hst, ?_⟩, htrails, _, _, r', rfl, .along rfl rfl (.here _), hbosses, hkeeps'⟩
  rw [hkept, halias, hcolumns]
  rfl

end ObjectQuery
