import ObjectQuery.Proofs.Halting.Values

/-!
Operators are compiled in finitely many steps, if their arguments are.
-/
namespace ObjectQuery

open Build

namespace Compiler

variable {c : Compiler} {s : BuildState} {scope into q : ContextId} {p : Option ContextId} {f : Lambda} {e : Expr}

/-! What operators ask of a path. -/

/-- A request for rows is answered with the context that has them. -/
theorem settles_ask (h : c.Readable s.contexts q) (steps : List String) (request : Request)
    (hrequest : request ≠ .object) :
    c.Settles s (fun rec => ask rec q steps request) fun answer l => ∀ id, answer.context = some id → Tabular l id := by
  refine Settles.context fun d _ => ?_
  split
  · exact .fail _
  · refine (h.classify steps).recover (fun d t _ hd => .pure ?_) fun e t _ => ?_
    · cases hd with
      | table rows | association rows =>
        cases request <;> rintro _ ⟨⟩ <;> exact rows
      | field | computed => cases request <;> nofun
      | object =>
        cases request with
        | object => exact absurd rfl hrequest
        | _ => nofun
    · cases e with
      | memberResolution => exact .pure nofun
      | _ => exact .fail _

theorem settles_itemsOf (h : c.Readable s.contexts q) (steps : List String) (extent : Extent) :
    c.Settles s (fun rec => itemsOf rec q steps extent) fun _ _ => True :=
  (settles_members h steps extent).bind fun _ _ _ _ => .pure trivial

theorem settles_itemsOfExpr (h : c.Evaluates e) (hg : c.Grounded s.contexts (some scope) e.free) (extent : Extent) :
    c.Settles s (fun rec => itemsOfExpr rec scope e.strip extent) fun _ _ => True := by
  unfold itemsOfExpr
  split
  · next path hpath =>
    have hroot := Path.root_mem_free hpath
    rw [e.free_strip] at hroot
    exact (settles_rootOf hg hroot).bind fun q t _ hq => settles_itemsOf hq path.steps extent
  · exact (h.stripped hg).bind fun _ _ _ _ => .pure trivial

theorem settles_selectItems (h : c.Readable s.contexts q) (steps : List String) (extent : Extent) :
    c.Settles s (fun rec => selectItems rec q steps extent) fun _ _ => True := by
  refine (settles_itemsOf h steps extent).bind fun items t _ _ => (Settles.still ?_).any
  refine (Still.context q).bind fun d => (Still.statement _).bind fun st => ?_
  exact (Still.modifyStatement _ _).bind fun _ => .pure _

theorem settles_settableColumn (h : c.Readable s.contexts q) (steps : List String) (table : Option TableId) :
    c.Settles s (fun rec => settableColumn rec q steps table) fun _ _ => True := by
  refine (h.classify steps).recover (fun d t _ _ => ?_) fun e t _ => ?_
  · cases d with
    | field column aliasName =>
      dsimp only
      split
      · exact .fail _
      · exact .pure trivial
    | table | association | computed | object => exact .fail _
  · cases e <;> exact .fail _

/-! Setters. -/

theorem settles_entered? (h : c.Readable s.contexts into) (steps : List String) (e : Expr) :
    c.Settles s (fun rec => entered? rec into steps e) fun r _ => ∀ bs, r = some bs → e.bindings? = some bs := by
  unfold entered?
  split
  · exact .pure nofun
  · next nested hnested =>
    refine (settles_ask h steps .field nofun).bind fun answer t _ _ => .pure ?_
    split
    · nofun
    · rintro _ ⟨⟩
      exact hnested

theorem settles_flatten {bs : List (String × Expr)} (hbs : ∀ b ∈ bs, c.Lively b.2)
    (hg : c.Grounded s.contexts (some scope) (Expr.freeBindings bs)) (hinto : c.Readable s.contexts into)
    (table : Option TableId) (depth : Nat) (outer : List String) :
    c.Settles s (fun rec => flatten c rec into table scope depth outer bs) fun _ _ => True := by
  induction depth generalizing s outer bs with
  | zero => exact .fail _
  | succ depth ih =>
    simp only [flatten_succ]
    refine (Settles.mapM _ fun t ht b hb => ?_).bind fun _ _ _ _ => .pure trivial
    obtain ⟨name, e⟩ := b
    have he := hbs _ hb
    have hfree := (hg.mono ht).of_subset (Expr.mem_freeBindings hb)
    refine (settles_entered? (hinto.mono ht) _ e).bind fun nested u hu hnested => ?_
    cases nested with
    | some nested =>
      have hnested := hnested nested rfl
      exact ih (he.parts hnested) ((Expr.free_bindings? hnested).symm ▸ hfree.mono hu) (hinto.mono (ht.trans hu)) _
    | none =>
      refine (settles_settableColumn (hinto.mono (ht.trans hu)) _ table).bind fun column t' ht' _ => ?_
      exact (he.evaluates.stripped (hfree.mono (hu.trans ht'))).bind fun _ _ _ _ => .pure trivial

theorem settles_setterItems (hf : c.Lively f.body) (hg : c.Grounded s.contexts p f.free)
    (hinto : c.Readable s.contexts into) (hq : c.Readable s.contexts q) (table : Option TableId) :
    c.Settles s (fun rec => c.setterItems rec f into table q p) fun _ _ => True := by
  refine settles_under hq (Lambda.free_eq f ▸ hg) fun t ht scope hscope => ?_
  split
  · next bs hbs =>
    exact settles_flatten (hf.parts hbs) ((Expr.free_bindings? hbs).symm ▸ hscope) (hinto.mono ht) table _ []
  · refine (settles_itemsOfExpr hf.evaluates hscope .all).bind fun items u hu _ => ?_
    refine Settles.mapM items fun v hv item _ => ?_
    refine (settles_orFail _ _).bind fun member w hw _ => ?_
    have hinto := hinto.mono (ht.trans (hu.trans (hv.trans hw)))
    exact (settles_settableColumn hinto _ table).bind fun _ _ _ _ => .pure trivial

theorem still_bindTarget (number : StatementId) (table : TableId) : (c.bindTarget number table).Still := by
  refine (Still.statement number).bind fun st => ?_
  split
  · exact (Still.orDangling _).bind fun _ => (Still.orDangling _).bind fun _ => .fail _
  · exact .modifyStatement _ _

theorem still_addItems (number : StatementId) (items : List SetItem) : (addItems number items).Still :=
  .modifyStatement _ _

/-! Operators. -/

theorem settles_restrict (hf : c.Lively f.body) (hg : c.Grounded s.contexts p f.free) (hq : c.Readable s.contexts q) :
    c.Settles s (fun rec => restrict rec q f p) fun _ _ => True := by
  have hcondition : c.Settles s (fun rec => lambdaCondition rec q f p) fun _ _ => True :=
    settles_under hq (Lambda.free_eq f ▸ hg) fun t _ scope hscope => hf.evaluates.condition hscope
  refine hcondition.bind fun _ t _ _ => Settles.context fun d _ => ?_
  exact (Settles.still (.modifyStatement _ _)).any

theorem settles_updatedRows? (hq : c.Readable s.contexts q) :
    c.Settles s (fun rec => updatedRows? rec q) fun rows l => ∀ r, rows = some r → Tabular l r.1 := by
  have hrows : c.Settles s (fun rec => rowsOf? rec q) fun rows l => ∀ id, rows = some id → Tabular l id := by
    refine (settles_ask hq [] .association nofun).bind fun association t ht hassociation => ?_
    split
    · exact .pure hassociation
    · refine (settles_ask (hq.mono ht) [] .table nofun).bind fun table u _ htable => .pure ?_
      split
      · exact htable
      · nofun
  refine hrows.bind fun rows t _ htabular => ?_
  cases rows with
  | none => exact .pure nofun
  | some id =>
    refine Settles.context fun d _ => .pure fun r hr => ?_
    obtain ⟨rows, -, rfl⟩ := Option.map_eq_some_iff.mp hr
    exact htabular id rfl

theorem settles_updateWith (hc : c.schema.Plain) (hf : c.Lively f.body) (hg : c.Grounded s.contexts p f.free)
    (hq : c.Readable s.contexts q) (number : StatementId) :
    c.Settles s (fun rec => c.updateWith rec number q f p) fun _ _ => True := by
  refine (settles_updatedRows? hq).bind fun rows t ht hrows => ?_
  cases rows with
  | some rows =>
    obtain ⟨rows, table⟩ := rows
    refine (Settles.still (still_bindTarget number table)).bind fun _ u hu _ => ?_
    have hinto := (readable_rows hc (hrows _ rfl)).mono hu
    have hu := ht.trans hu
    refine (settles_setterItems hf (hg.mono hu) hinto (hq.mono hu) _).bind fun items _ _ _ => ?_
    exact (Settles.still (still_addItems number items)).any
  | none =>
    refine (settles_setterItems hf (hg.mono ht) (hq.mono ht) (hq.mono ht) none).bind fun items u hu _ => ?_
    refine (Settles.still (.forM items fun item => still_bindTarget number _)).bind fun _ _ _ _ => ?_
    exact (Settles.still (still_addItems number items)).any

theorem settles_assignInto (hf : c.Lively f.body) (hg : c.Grounded s.contexts p f.free)
    (hinto : c.Readable s.contexts into) (hq : c.Readable s.contexts q) (number : StatementId) (table : TableId) :
    c.Settles s (fun rec => c.assignInto rec number q into table f p) fun _ _ => True := by
  refine (settles_selectItems hq [] .all).bind fun _ t ht _ => ?_
  refine (Settles.still (.modifyStatement number _)).bind fun _ u hu _ => ?_
  have hu := ht.trans hu
  refine (settles_setterItems hf (hg.mono hu) (hinto.mono hu) (hq.mono hu) (some table)).bind fun items _ _ _ => ?_
  refine (Settles.still ?_).any
  exact (Still.modifyStatement number _).bind fun _ => (still_bindTarget number table).bind fun _ =>
    still_addItems number items

theorem settles_updateInto {target : Node} (htarget : c.Builds target) (hf : c.Lively f.body)
    (hgt : c.Grounded s.contexts p target.free) (hg : c.Grounded s.contexts p f.free) (hq : c.Readable s.contexts q)
    (number : StatementId) : c.Settles s (fun rec => c.updateInto rec number q target f p) fun _ _ => True := by
  refine (htarget hgt).bind fun into t ht hinto => ?_
  have htable : (targetTable into).Still := by
    refine (Still.context into).bind fun d => ?_
    cases d with
    | table => exact .pure _
    | association | projection | lambda | update => exact .fail _
  refine (Settles.still htable).bind fun table u hu _ => ?_
  have htu := ht.trans hu
  exact settles_assignInto hf (hg.mono htu) (hinto.1.mono hu) (hq.mono htu) number table

theorem still_completeUpdate (number : StatementId) : (c.completeUpdate number).Still := by
  refine (Still.statement number).bind fun st => ?_
  dsimp only
  split
  · exact (Still.orDangling _).bind fun _ => .fail _
  · exact .modifyStatement _ _

theorem settles_computedColumn (hq : c.Readable s.contexts q) (path : Path) :
    c.Settles s (fun rec => c.computedColumn rec path q) fun _ _ => True := by
  refine Settles.context fun d _ => (Settles.still (.statement _)).bind fun st t ht _ => ?_
  split
  · refine (Settles.still ?_).any
    have hover : ∀ table, (c.entityOver table).Still := fun table =>
      (Still.orDangling _).bind fun _ => .orFail _ _
    refine (hover _).bind fun e => ?_
    split
    · exact .pure _
    · exact .fail _
  · exact settles_settableColumn (hq.mono ht) _ none

theorem settles_set (he : c.Evaluates e) (hg : c.Grounded s.contexts p (e.free.filter (f.row? ≠ some ·)))
    (hq : c.Readable s.contexts q) (path : Path) :
    c.Settles s (fun rec => c.setItem rec f path (.value e) q p) fun _ _ => True := by
  refine (settles_settableColumn hq _ none).bind fun column t ht _ => ?_
  refine settles_under (hq.mono ht) (hg.mono ht) fun u _ scope hscope => ?_
  exact (he.value hscope).bind fun _ _ _ _ => .pure trivial

/-- Under the scope of a value of which the projection mentions no parameter, it sees what it saw. -/
theorem settles_reparented {node : Node} {member : Lambda} (hf : c.Lively f.body) (hg : c.Grounded s.contexts p f.free)
    (hq : c.Readable s.contexts q) (hstands : Stands s.contexts p node q)
    (hshield : Likeness.lexical.Shielded (node.setWith member f)) :
    c.Settles s (fun rec => do
      let scope ← lambdaScope f q p
      withParent q (some scope) (rec.value scope f.body)) fun _ _ => True := by
  refine (settles_lambdaScope f q p).bind fun scope t ht hscope => ?_
  obtain ⟨x, m, hx, rfl, hlt, hl⟩ := hscope
  obtain ⟨d, hd, hs, hprojection⟩ := hstands
  have hd' : t.contexts[q]? = some d := by rw [hl, List.getElem?_append_left hlt, hd]
  have hsees : ∀ q' m' k g scalar, d = .projection q' m' k g scalar →
      ∀ y ∈ g.free, ∀ r, Finds t.contexts y q' r → Finds t.contexts y (some s.contexts.length) r := by
    intro q' m' k g scalar heq y hy r hr
    obtain ⟨hnode, hfinds⟩ := hprojection _ _ _ _ _ heq
    obtain ⟨r', hp, hq'⟩ := hfinds y hy
    obtain rfl := hr.unique (hq'.supports ht.supports)
    rw [hl]
    refine hp.enter ?_
    rintro rfl
    exact hshield _ _ _ _ rfl hnode _ hx hy
  refine Settles.withParent hd' hs hsees (hf.evaluates.value (Grounded.mono ?_ (preserves_reparent _ hd' hs hsees)))
  rw [hl]
  exact .enter hq hlt hx (Lambda.free_eq f ▸ hg)

theorem settles_setWith {node : Node} {member : Lambda} (hf : c.Lively f.body) (hg : c.Grounded s.contexts p f.free)
    (hq : c.Readable s.contexts q) (hstands : Stands s.contexts p node q)
    (hshield : Likeness.lexical.Shielded (node.setWith member f)) (path : Path) :
    c.Settles s (fun rec => c.setItem rec member path (.lambda f) q p) fun _ _ => True := by
  refine (settles_computedColumn hq path).bind fun column t ht _ => ?_
  have hvalue := settles_reparented hf (hg.mono ht) (hq.mono ht) (hstands.mono ht) hshield
  have hitem := hvalue.bind fun v u _ _ => Settles.pure (c := c) (s := u) (a := SetItem.mk column v)
    (P := fun _ _ => True) trivial
  simpa only [bind_assoc] using hitem

/-! Builders. -/

theorem settles_buildSource (hc : c.schema.Plain) (name : String) (p : Option ContextId) :
    c.Settles s (fun _ => c.buildSource (.source name) p) (c.Result p (.source name)) := by
  refine (settles_entity name).bind fun e t _ _ => (Settles.still .nextAlias).bind fun aliasName u _ _ => ?_
  refine (Settles.still (.addStatement _)).bind fun number v _ _ => ?_
  refine (Settles.addContext rfl).imp fun id l _ hid => ?_
  obtain ⟨rfl, rfl⟩ := hid
  have hid := List.getElem?_concat_length (l := v.contexts) (a := .table p number ⟨e.name, e.table, aliasName, []⟩)
  exact ⟨readable_rows hc ⟨_, hid, rfl⟩, _, hid, rfl, nofun⟩

theorem settles_buildFilter {source : Node} (hq : c.Result p source q s.contexts) (hf : c.Lively f.body)
    (hg : c.Grounded s.contexts p f.free) :
    c.Settles s (fun rec => buildFilter rec (source.filter f) q p) (c.Result p (source.filter f)) := by
  refine (Settles.still (.ensureComposable q _)).bind fun _ t ht _ => ?_
  refine (settles_restrict hf (hg.mono ht) (hq.1.mono ht)).bind fun _ u hu _ => .pure ?_
  exact ⟨hq.1.mono (ht.trans hu), hq.2.mono (ht.trans hu)⟩

theorem settles_buildSelect {source : Node} (hq : c.Readable s.contexts q) (hf : c.Lively f.body)
    (hg : c.Grounded s.contexts p f.free) :
    c.Settles s (fun _ => buildSelect (source.select f) q p) (c.Result p (source.select f)) := by
  refine (Settles.still (.ensureComposable q _)).bind fun _ t ht _ => Settles.context fun d _ => ?_
  refine (Settles.addContext rfl).imp fun id l hl hid => ?_
  obtain ⟨rfl, rfl⟩ := hid
  have hid := List.getElem?_concat_length (l := t.contexts) (a := .projection p d.statement q f f.body.bindings?.isNone)
  have htl := ht.trans hl
  refine ⟨readable_projection ⟨_, _, _, _, hid, hq.mono htl, hg.mono htl⟩ hf, _, hid, rfl, ?_⟩
  rintro _ _ _ _ _ ⟨⟩
  refine ⟨rfl, fun x hx => ?_⟩
  obtain ⟨r, hr, -⟩ := (hg.mono htl) x hx
  exact ⟨r, hr, hr⟩

/-- The statement of the sequence is assigned to, and becomes an update. -/
theorem settles_buildUpdate {node : Node}
    (hassign : ∀ t, Preserves s.contexts t.contexts → ∀ number,
      c.Settles t (fun rec => c.assign rec number q node.operands p) fun _ _ => True) :
    c.Settles s (fun rec => c.buildUpdate rec node q p) (c.Result p node) := by
  refine (Settles.still (.ensureComposable q _)).bind fun _ t ht _ => Settles.context fun d _ => ?_
  refine (hassign t ht d.statement).bind fun _ u _ _ => ?_
  refine (Settles.still (still_completeUpdate d.statement)).bind fun _ v _ _ => ?_
  refine (Settles.addContext rfl).imp fun id l _ hid => ?_
  obtain ⟨rfl, rfl⟩ := hid
  have hid := List.getElem?_concat_length (l := v.contexts) (a := .update p d.statement q)
  exact ⟨readable_update hid, _, hid, rfl, nofun⟩

theorem settles_buildSet {source : Node} (hq : c.Result p source q s.contexts) {member : Lambda} {operand : Argument}
    (hitem : ∀ t, Preserves s.contexts t.contexts → ∀ path,
      c.Settles t (fun rec => c.setItem rec member path operand q p) fun _ _ => True) :
    c.Settles s (fun rec => c.buildSet rec (source.chain .set [.lambda member, operand]) q p)
      (c.Result p (source.chain .set [.lambda member, operand])) := by
  refine (Settles.still (.ensureComposable q _)).bind fun _ t ht _ => ?_
  refine (Settles.still (.ofExcept _)).bind fun path u hu _ => Settles.context fun d _ => ?_
  refine (hitem u (ht.trans hu) path).bind fun item v hv _ => ?_
  refine (Settles.still (still_bindTarget _ _)).bind fun _ w hw _ => ?_
  refine (Settles.still (still_addItems _ _)).bind fun _ x hx _ => .pure ?_
  have hall := ht.trans (hu.trans (hv.trans (hw.trans hx)))
  exact ⟨hq.1.mono hall, hq.2.mono hall⟩

/-- The arguments of an operator are compiled in finitely many steps. -/
def Argued (c : Compiler) : Argument → Prop
  | .sequence node => c.Builds node
  | .lambda f => c.Lively f.body
  | .entity _ => True
  | .value e => c.Lively e

/-- Every operator but a source is compiled over the sequence of its source. -/
theorem settles_over {source : Node} {kind : OperatorKind} {as : List Argument} {b : Builder}
    (hsource : c.Builds source) (hg : c.Grounded s.contexts p (source.free ++ Argument.freeAll none as))
    (hn : ∀ t, c.Grounded t.contexts p (Argument.freeAll none as) → ∀ id, c.Result p source id t.contexts →
      c.Settles t (fun rec => c.build rec b (source.chain kind as) (some id) p)
        (c.Result p (source.chain kind as))) :
    c.Settles s (fun rec => primarySequence? rec p (source.chain kind as) >>= fun id =>
      c.build rec b (source.chain kind as) id p) (c.Result p (source.chain kind as)) := by
  obtain ⟨hgs, hga⟩ := hg.append
  simp only [primarySequence?, Node.primary?_chain, bind_map_left]
  exact (hsource hgs).bind fun id t ht hid => hn t (hga.mono ht) id hid

theorem settles_build (hc : c.schema.Plain) {node : Node} {b : Builder} (hshape : b.Shape node)
    (hshield : Likeness.lexical.Shielded node) (harguments : ∀ a ∈ node.arguments, c.Argued a)
    (hg : c.Grounded s.contexts p node.free) :
    c.Settles s (fun rec => primarySequence? rec p node >>= fun source => c.build rec b node source p)
      (c.Result p node) := by
  cases hshape with
  | source name => exact settles_buildSource hc name p
  | filter source f =>
    obtain ⟨hsource, hf⟩ : c.Builds source ∧ c.Lively f.body := by
      simpa [Node.filter, Node.chain, Argued] using harguments
    exact settles_over hsource hg fun t hga id hid => settles_buildFilter hid hf hga.append.1
  | select source f =>
    obtain ⟨hsource, hf⟩ : c.Builds source ∧ c.Lively f.body := by
      simpa [Node.select, Node.chain, Argued] using harguments
    exact settles_over hsource hg fun t hga id hid => settles_buildSelect hid.1 hf hga.append.1
  | update source =>
    have hsource : c.Builds source := harguments (.sequence source) List.mem_cons_self
    refine settles_over hsource hg fun t hga id hid => settles_buildUpdate fun u hu number => ?_
    refine (settles_updatedRows? (hid.1.mono hu)).bind fun rows v _ _ => ?_
    cases rows with
    | none => exact .pure trivial
    | some rows => exact (Settles.still (still_bindTarget number rows.2)).any
  | updateWith source f =>
    obtain ⟨hsource, hf⟩ : c.Builds source ∧ c.Lively f.body := by
      simpa [Node.updateWith, Node.chain, Argued] using harguments
    exact settles_over hsource hg fun t hga id hid => settles_buildUpdate fun u hu number =>
      settles_updateWith hc hf (hga.append.1.mono hu) (hid.1.mono hu) number
  | updateWhere source g f =>
    obtain ⟨hsource, hg', hf⟩ : c.Builds source ∧ c.Lively g.body ∧ c.Lively f.body := by
      simpa [Node.updateWhere, Node.chain, Argued] using harguments
    refine settles_over hsource hg fun t hga id hid => settles_buildUpdate fun u hu number => ?_
    obtain ⟨hgg, hgf⟩ := (hga.mono hu).append
    refine (settles_restrict hg' hgg (hid.1.mono hu)).bind fun _ v hv _ => ?_
    exact settles_updateWith hc hf (hgf.append.1.mono hv) (hid.1.mono (hu.trans hv)) number
  | updateInto source target f =>
    obtain ⟨hsource, htarget, hf⟩ : c.Builds source ∧ c.Builds target ∧ c.Lively f.body := by
      simpa [Node.updateInto, Node.chain, Argued] using harguments
    refine settles_over hsource hg fun t hga id hid => settles_buildUpdate fun u hu number => ?_
    obtain ⟨hgt, hgf⟩ := (hga.mono hu).append
    exact settles_updateInto htarget hf hgt hgf.append.1 (hid.1.mono hu) number
  | set source member e =>
    obtain ⟨hsource, -, he⟩ : c.Builds source ∧ c.Lively member.body ∧ c.Lively e := by
      simpa [Node.set, Node.chain, Argued] using harguments
    exact settles_over hsource hg fun t hga id hid => settles_buildSet hid fun u hu path =>
      settles_set he.evaluates (hga.append.2.append.1.mono hu) (hid.1.mono hu) path
  | setWith source member f =>
    obtain ⟨hsource, -, hf⟩ : c.Builds source ∧ c.Lively member.body ∧ c.Lively f.body := by
      simpa [Node.setWith, Node.chain, Argued] using harguments
    exact settles_over hsource hg fun t hga id hid => settles_buildSet hid fun u hu path =>
      settles_setWith hf (hga.append.2.append.1.mono hu) (hid.1.mono hu) (hid.2.mono hu) hshield path

theorem builds_of_arguments (hc : c.schema.Plain) {node : Node} (hshield : Likeness.lexical.Shielded node)
    (harguments : ∀ a ∈ node.arguments, c.Argued a) : c.Builds node := by
  intro s p hg
  refine .call (fun rec => c.sequence rec p node) ?_ fun _ => rfl
  unfold Compiler.sequence
  cases hb : c.builderFor node with
  | error e => exact .fail e
  | ok b => exact settles_build hc (Builder.shape_of_claims (claims_of_builderFor hb)) hshield harguments hg

end Compiler
end ObjectQuery
