import Mathlib.Data.List.Forall2
import ObjectQuery.Compile.Rows
import ObjectQuery.Proofs.Mirror.Alike

/-!
What a compilation reads off a query. Queries that are alike show it the same members, paths whose roots stand for each
other, and arguments of the same shape.
-/
namespace ObjectQuery

variable {κ : Likeness} {ρ : Names} {p q : Option String} {e e' : Expr} {node node' : Node}

theorem Expr.Alike.strip (h : e.Alike κ ρ e') : e.strip.Alike κ ρ e'.strip := by
  induction e using Expr.strip.induct generalizing e' with
  | case1 inner ih =>
    cases h with
    | convert hinner => simpa [Expr.strip] using ih hinner
  | case2 e hne =>
    cases h with
    | convert => exact absurd rfl (hne _)
    | parameter h => exact .parameter h
    | member h name => exact .member h name
    | literal v => exact .literal v
    | «external» name h => exact .external name h
    | null => exact .null
    | binary op hl hr => exact .binary op hl hr
    | not h => exact .not h
    | call f h => exact .call f h
    | construct h => exact .construct h
    | aggregate f hn hs => exact .aggregate f hn hs

theorem Expr.Alike.bindings? (h : e.Alike κ ρ e') :
    Option.Rel (Expr.AlikeBindings κ ρ) e.bindings? e'.bindings? := by
  have hstrip := h.strip
  unfold Expr.bindings?
  generalize e.strip = d at hstrip
  generalize e'.strip = d' at hstrip
  cases hstrip with
  | construct h => exact .some h
  | _ => exact .none

theorem Expr.AlikeBindings.lookup {bs cs : List (String × Expr)} (h : Expr.AlikeBindings κ ρ bs cs) (name : String) :
    Option.Rel (Expr.Alike κ ρ) (bs.lookup name) (cs.lookup name) := by
  induction bs generalizing cs with
  | nil =>
    cases h
    exact .none
  | cons b bs ih =>
    cases h with
    | cons key head tail =>
      rw [List.lookup_cons, List.lookup_cons]
      cases name == key with
      | true => exact .some head
      | false => exact ih tail

theorem Expr.AlikeBindings.forall₂ {bs cs : List (String × Expr)} (h : Expr.AlikeBindings κ ρ bs cs) :
    List.Forall₂ (fun b c => b.1 = c.1 ∧ b.2.Alike κ ρ c.2) bs cs := by
  induction bs generalizing cs with
  | nil =>
    cases h
    exact .nil
  | cons b bs ih =>
    cases h with
    | cons key head tail => exact .cons ⟨rfl, head⟩ (ih tail)

theorem Expr.AlikeAll.forall₂ {as bs : List Expr} (h : Expr.AlikeAll κ ρ as bs) :
    List.Forall₂ (Expr.Alike κ ρ) as bs := by
  induction as generalizing bs with
  | nil =>
    cases h
    exact .nil
  | cons a as ih =>
    cases h with
    | cons head tail => exact .cons head (ih tail)

theorem Expr.AlikeBindings.map_fst {bs cs : List (String × Expr)} (h : Expr.AlikeBindings κ ρ bs cs) :
    bs.map Prod.fst = cs.map Prod.fst := by
  induction bs generalizing cs with
  | nil =>
    cases h
    rfl
  | cons b bs ih =>
    cases h with
    | cons key head tail => rw [List.map_cons, List.map_cons, ih tail]

theorem Lambda.Alike.row {f g : Lambda} (h : f.Alike κ ρ g) : Option.Rel κ.binder f.row? g.row? := by
  cases h with
  | intro row => exact row

theorem Lambda.Alike.body {f g : Lambda} (h : f.Alike κ ρ g) : f.body.Alike κ (ρ.under f.row? g.row?) g.body := by
  cases h with
  | intro _ _ body => exact body

/-- The same steps, from names that stand for each other. -/
structure Path.Alike (ρ : Names) (path path' : Path) : Prop where
  root : ρ path.root path'.root
  steps : path'.steps = path.steps

theorem Expr.Alike.path? (h : e.Alike κ ρ e') :
    Option.Rel (Path.Alike ρ) (Path.ofExpr? e) (Path.ofExpr? e') := by
  unfold Path.ofExpr?
  generalize [] = steps
  induction e, steps using Path.read.induct generalizing e' with
  | case1 name steps =>
    cases h with
    | parameter h => exact .some ⟨h, rfl⟩
  | case2 object name steps ih =>
    cases h with
    | member h => exact ih h
  | case3 inner steps ih =>
    cases h with
    | convert h => simpa [Path.read] using ih h
  | case4 e steps hp hm hc =>
    cases h with
    | parameter => exact (hp _ rfl).elim
    | member => exact (hm _ _ rfl).elim
    | convert => exact (hc _ rfl).elim
    | _ => exact .none

theorem Expr.Alike.constructedAt (h : e.Alike κ ρ e') (steps : List String) :
    e.constructedAt steps = e'.constructedAt steps := by
  induction steps generalizing e e' with
  | nil =>
    have hbindings := h.bindings?
    unfold Expr.constructedAt
    generalize e.bindings? = bs at hbindings
    generalize e'.bindings? = cs at hbindings
    cases hbindings with
    | none => rfl
    | some h => exact h.map_fst
  | cons step steps ih =>
    have hbindings := h.bindings?
    unfold Expr.constructedAt
    generalize e.bindings? = bs at hbindings
    generalize e'.bindings? = cs at hbindings
    cases hbindings with
    | none => rfl
    | @some bs cs h =>
      have hlookup := h.lookup step
      simp only [Option.getD_some]
      generalize bs.lookup step = x at hlookup
      generalize cs.lookup step = y at hlookup
      cases hlookup with
      | none => rfl
      | some h => exact ih h

theorem Expr.Alike.isNone_bindings? (h : e.Alike κ ρ e') : e.bindings?.isNone = e'.bindings?.isNone := by
  have hbindings := h.bindings?
  generalize e.bindings? = bs at hbindings
  generalize e'.bindings? = cs at hbindings
  cases hbindings <;> rfl

theorem Node.Alike.kind (h : node.Alike κ ρ node') : node.kind = node'.kind := by
  cases h
  rfl

theorem Node.Alike.primary? (h : node.Alike κ ρ node') :
    Option.Rel (Node.Alike κ ρ) node.primary? node'.primary? := by
  cases h with
  | intro kind arguments =>
    cases arguments with
    | sequence head => exact .some head
    | _ => exact .none

theorem Node.Alike.operands (h : node.Alike κ ρ node') :
    Argument.AlikeAll κ ρ none none node.operands node'.operands := by
  cases h with
  | intro kind arguments =>
    cases arguments with
    | nil => exact .nil
    | sequence _ tail => exact tail
    | lambda head tail => exact .lambda head tail
    | «entity» name tail => exact .entity name tail
    | value head tail => exact .value head tail

/-! The operators that builders claim. -/

inductive Builder.Shape : Builder → Node → Prop
  | source (entity : String) : Shape .source (.source entity)
  | filter (source : Node) (f : Lambda) : Shape .filter (source.filter f)
  | select (source : Node) (f : Lambda) : Shape .select (source.select f)
  | update (source : Node) : Shape .update source.update
  | updateWith (source : Node) (setter : Lambda) : Shape .update (source.updateWith setter)
  | updateWhere (source : Node) (f setter : Lambda) : Shape .update (source.updateWhere f setter)
  | updateInto (source target : Node) (setter : Lambda) : Shape .update (source.updateInto target setter)
  | set (source : Node) (member : Lambda) (value : Expr) : Shape .set (source.set member value)
  | setWith (source : Node) (member value : Lambda) : Shape .set (source.setWith member value)

theorem Node.eq_chain {source : Node} (h : node.primary? = some source) :
    node = source.chain node.kind node.operands := by
  obtain ⟨kind, arguments⟩ := node
  unfold Node.primary? at h
  dsimp only at h
  split at h
  · cases h
    rfl
  · cases h

theorem Builder.shape_of_claims {b : Builder} (h : b.claims node = true) : b.Shape node := by
  have hchain : b ≠ .source → ∃ source : Node, node = source.chain node.kind node.operands := by
    intro hb
    refine (Option.isSome_iff_exists.mp ?_).imp fun source => Node.eq_chain
    cases b <;> cases hk : node.kind <;> simp_all [Builder.claims]
  cases b with
  | source =>
    obtain ⟨kind, arguments⟩ := node
    cases kind <;> simp only [Builder.claims, Bool.false_eq_true] at h
    split at h
    · exact .source _
    · cases h
  | filter | select =>
    obtain ⟨source, hnode⟩ := hchain nofun
    cases hk : node.kind <;> simp only [Builder.claims, hk, Bool.false_eq_true, Bool.and_eq_true] at h
    rw [hnode, hk]
    split at h
    · next ho =>
      rw [ho]
      constructor
    · cases h.2
  | update =>
    obtain ⟨source, hnode⟩ := hchain nofun
    cases hk : node.kind <;> simp only [Builder.claims, hk, Bool.false_eq_true, Bool.and_eq_true] at h
    rw [hnode, hk]
    split at h
    · next ho =>
      rw [ho]
      exact .update source
    · next ho =>
      rw [ho]
      exact .updateWith source _
    · next ho =>
      rw [ho]
      exact .updateWhere source _ _
    · next ho =>
      rw [ho]
      exact .updateInto source _ _
    · cases h.2
  | set =>
    obtain ⟨source, hnode⟩ := hchain nofun
    cases hk : node.kind <;> simp only [Builder.claims, hk, Bool.false_eq_true, Bool.and_eq_true] at h
    rw [hnode, hk]
    split at h
    · next ho =>
      rw [ho]
      exact .set source _ _
    · next ho =>
      rw [ho]
      exact .setWith source _ _
    · cases h.2

/-- Operators of the same shape, whose arguments are alike. -/
inductive Builder.Shapes (κ : Likeness) (ρ : Names) : Builder → Node → Node → Prop
  | source (entity : String) : Shapes κ ρ .source (.source entity) (.source entity)
  | filter {n n' : Node} {f g : Lambda} (source : n.Alike κ ρ n') (condition : f.Alike κ ρ g) :
    Shapes κ ρ .filter (n.filter f) (n'.filter g)
  | select {n n' : Node} {f g : Lambda} (source : n.Alike κ ρ n') (projection : f.Alike κ ρ g) :
    Shapes κ ρ .select (n.select f) (n'.select g)
  | update {n n' : Node} (source : n.Alike κ ρ n') : Shapes κ ρ .update n.update n'.update
  | updateWith {n n' : Node} {f g : Lambda} (source : n.Alike κ ρ n') (setter : f.Alike κ ρ g) :
    Shapes κ ρ .update (n.updateWith f) (n'.updateWith g)
  | updateWhere {n n' : Node} {f g h k : Lambda} (source : n.Alike κ ρ n') (condition : f.Alike κ ρ g)
    (setter : h.Alike κ ρ k) :
    Shapes κ ρ .update (n.updateWhere f h) (n'.updateWhere g k)
  | updateInto {n n' t t' : Node} {f g : Lambda} (source : n.Alike κ ρ n') (target : t.Alike κ ρ t')
    (setter : f.Alike κ ρ g) :
    Shapes κ ρ .update (n.updateInto t f) (n'.updateInto t' g)
  | set {n n' : Node} {f g : Lambda} {v w : Expr} (source : n.Alike κ ρ n') (member : f.Alike κ ρ g)
    (value : v.Alike κ (ρ.under f.row? g.row?) w) :
    Shapes κ ρ .set (n.set f v) (n'.set g w)
  | setWith {n n' : Node} {f g v w : Lambda} (source : n.Alike κ ρ n') (member : f.Alike κ ρ g)
    (value : v.Alike κ ρ w)
    (left : κ.Shielded (n.setWith f v)) (right : κ.Shielded (n'.setWith g w)) :
    Shapes κ ρ .set (n.setWith f v) (n'.setWith g w)

theorem Node.Alike.of_chain {source : Node} {kind : OperatorKind} {as : List Argument}
    (h : (source.chain kind as).Alike κ ρ node') : ∃ source' bs, node' = source'.chain kind bs ∧
      source.Alike κ ρ source' ∧ Argument.AlikeAll κ ρ none none as bs ∧
      κ.Shielded (source.chain kind as) ∧ κ.Shielded (source'.chain kind bs) := by
  unfold Node.chain at h
  cases h with
  | intro _ arguments left right =>
    cases arguments with
    | sequence head tail => exact ⟨_, _, rfl, head, tail, left, right⟩

theorem Builder.Shape.alike {b : Builder} (h : b.Shape node) (hnode : node.Alike κ ρ node') :
    b.Shapes κ ρ node node' := by
  cases h with
  | source «entity» =>
    unfold Node.source at hnode
    cases hnode with
    | intro _ arguments =>
      cases arguments with
      | «entity» _ tail =>
        cases tail
        exact .source «entity»
  | filter source f =>
    obtain ⟨source', bs, rfl, hsource, hargs, -⟩ := Node.Alike.of_chain hnode
    cases hargs with
    | lambda hf tail =>
      cases tail
      exact .filter hsource hf
  | select source f =>
    obtain ⟨source', bs, rfl, hsource, hargs, -⟩ := Node.Alike.of_chain hnode
    cases hargs with
    | lambda hf tail =>
      cases tail
      exact .select hsource hf
  | update source =>
    obtain ⟨source', bs, rfl, hsource, hargs, -⟩ := Node.Alike.of_chain hnode
    cases hargs
    exact .update hsource
  | updateWith source f =>
    obtain ⟨source', bs, rfl, hsource, hargs, -⟩ := Node.Alike.of_chain hnode
    cases hargs with
    | lambda hf tail =>
      cases tail
      exact .updateWith hsource hf
  | updateWhere source f setter =>
    obtain ⟨source', bs, rfl, hsource, hargs, -⟩ := Node.Alike.of_chain hnode
    cases hargs with
    | lambda hf tail =>
      cases tail with
      | lambda hsetter tail =>
        cases tail
        exact .updateWhere hsource hf hsetter
  | updateInto source target setter =>
    obtain ⟨source', bs, rfl, hsource, hargs, -⟩ := Node.Alike.of_chain hnode
    cases hargs with
    | sequence htarget tail =>
      cases tail with
      | lambda hsetter tail =>
        cases tail
        exact .updateInto hsource htarget hsetter
  | set source member value =>
    obtain ⟨source', bs, rfl, hsource, hargs, -⟩ := Node.Alike.of_chain hnode
    cases hargs with
    | lambda hmember tail =>
      cases tail with
      | value hvalue tail =>
        cases tail
        exact .set hsource hmember hvalue
  | setWith source member value =>
    obtain ⟨source', bs, rfl, hsource, hargs, left, right⟩ := Node.Alike.of_chain hnode
    cases hargs with
    | lambda hmember tail =>
      cases tail with
      | lambda hvalue tail =>
        cases tail
        exact .setWith hsource hmember hvalue left right

/-- Builders look at the shape of the arguments only. -/
theorem Node.Alike.claims (h : node.Alike κ ρ node') (b : Builder) : b.claims node = b.claims node' := by
  have hprimary : node.primary?.isSome = node'.primary?.isSome := by
    have h := h.primary?
    generalize node.primary? = x at h
    generalize node'.primary? = y at h
    cases h <;> rfl
  have hoperands := h.operands
  unfold Builder.claims
  rw [← h.kind, ← hprimary]
  generalize node.operands = as at hoperands
  generalize node'.operands = bs at hoperands
  split
  · cases h with
    | intro kind arguments =>
      cases arguments with
      | «entity» name tail => cases tail <;> rfl
      | _ => rfl
  · cases hoperands with
    | lambda head tail => cases tail <;> rfl
    | _ => rfl
  · cases hoperands with
    | lambda head tail => cases tail <;> rfl
    | _ => rfl
  · cases hoperands with
    | nil => rfl
    | lambda head tail => cases tail with
      | lambda head tail => cases tail <;> rfl
      | _ => rfl
    | sequence head tail => cases tail with
      | lambda head tail => cases tail <;> rfl
      | _ => rfl
    | _ => rfl
  · cases hoperands with
    | lambda head tail => cases tail with
      | lambda head tail => cases tail <;> rfl
      | value head tail => cases tail <;> rfl
      | _ => rfl
    | _ => rfl
  · rfl

end ObjectQuery
