import ObjectQuery.Proofs.Mirror.Lexical

/-!
Queries that are alike mention parameters that stand for each other. So a projection is as safe from a value as the one
that it stands for, as long as the value keeps its parameter.
-/
namespace ObjectQuery

/-- Every name of the one list has a name in the other one, and the other way round. -/
def Names.Covers (ρ : Names) (xs ys : List String) : Prop :=
  (∀ x ∈ xs, ∃ y ∈ ys, ρ x y) ∧ ∀ y ∈ ys, ∃ x ∈ xs, ρ x y

namespace Names

variable {ρ : Names} {xs ys xs' ys' : List String} {a b : Option String}

theorem covers_nil : ρ.Covers [] [] :=
  ⟨nofun, nofun⟩

theorem covers_singleton {x y : String} (h : ρ x y) : ρ.Covers [x] [y] := by
  simp [Covers, h]

theorem Covers.append (h : ρ.Covers xs ys) (k : ρ.Covers xs' ys') : ρ.Covers (xs ++ xs') (ys ++ ys') := by
  constructor
  · intro x hx
    rcases List.mem_append.mp hx with hx | hx
    · exact (h.1 x hx).imp fun y => And.imp_left (List.mem_append_left _)
    · exact (k.1 x hx).imp fun y => And.imp_left (List.mem_append_right _)
  · intro y hy
    rcases List.mem_append.mp hy with hy | hy
    · exact (h.2 y hy).imp fun x => And.imp_left (List.mem_append_left _)
    · exact (k.2 y hy).imp fun x => And.imp_left (List.mem_append_right _)

theorem Covers.under (h : (ρ.under a b).Covers xs ys) :
    ρ.Covers (xs.filter (a ≠ some ·)) (ys.filter (b ≠ some ·)) := by
  constructor
  · intro x hx
    obtain ⟨hx, ha⟩ := List.mem_filter.mp hx
    obtain ⟨y, hy, hxy⟩ := h.1 x hx
    rcases hxy with ⟨hax, -⟩ | ⟨-, hb, hxy⟩
    · simp [hax] at ha
    · exact ⟨y, List.mem_filter.mpr ⟨hy, by simpa using hb⟩, hxy⟩
  · intro y hy
    obtain ⟨hy, hb⟩ := List.mem_filter.mp hy
    obtain ⟨x, hx, hxy⟩ := h.2 y hy
    rcases hxy with ⟨-, hby⟩ | ⟨ha, -, hxy⟩
    · simp [hby] at hb
    · exact ⟨x, List.mem_filter.mpr ⟨hx, by simpa using ha⟩, hxy⟩

end Names

mutual

theorem Expr.Alike.covers {κ : Likeness} {ρ : Names} {e e' : Expr} (h : e.Alike κ ρ e') : ρ.Covers e.free e'.free := by
  cases h with
  | parameter h => exact Names.covers_singleton h
  | member h => exact h.covers
  | literal | «external» | null => exact Names.covers_nil
  | convert h => exact h.covers
  | not h => exact h.covers
  | binary _ hl hr => exact hl.covers.append hr.covers
  | call _ h => exact h.covers
  | construct h => exact h.covers
  | aggregate _ hn hf => exact hn.covers.append hf.covers
  termination_by structural e

theorem Expr.AlikeAll.covers {κ : Likeness} {ρ : Names} {es es' : List Expr} (h : Expr.AlikeAll κ ρ es es') :
    ρ.Covers (Expr.freeAll es) (Expr.freeAll es') := by
  cases h with
  | nil => exact Names.covers_nil
  | cons h hs => exact h.covers.append hs.covers
  termination_by structural es

theorem Expr.AlikeBindings.covers {κ : Likeness} {ρ : Names} {bs bs' : List (String × Expr)}
    (h : Expr.AlikeBindings κ ρ bs bs') : ρ.Covers (Expr.freeBindings bs) (Expr.freeBindings bs') := by
  cases h with
  | nil => exact Names.covers_nil
  | cons _ h hs => exact h.covers.append hs.covers
  termination_by structural bs

theorem Lambda.Alike.covers {κ : Likeness} {ρ : Names} {f g : Lambda} (h : f.Alike κ ρ g) : ρ.Covers f.free g.free := by
  cases h with
  | intro _ _ body => exact body.covers.under
  termination_by structural f

theorem Lambda.AlikeOption.covers {κ : Likeness} {ρ : Names} {f g : Option Lambda} (h : Lambda.AlikeOption κ ρ f g) :
    ρ.Covers (Lambda.freeOption f) (Lambda.freeOption g) := by
  cases h with
  | none => exact Names.covers_nil
  | some h => exact h.covers
  termination_by structural f

theorem Node.Alike.covers {κ : Likeness} {ρ : Names} {node node' : Node} (h : node.Alike κ ρ node') :
    ρ.Covers node.free node'.free := by
  cases h with
  | intro _ arguments => exact arguments.covers
  termination_by structural node

theorem Argument.AlikeAll.covers {κ : Likeness} {ρ : Names} {p q : Option String} {as bs : List Argument}
    (h : Argument.AlikeAll κ ρ p q as bs) : ρ.Covers (Argument.freeAll p as) (Argument.freeAll q bs) := by
  cases h with
  | nil => exact Names.covers_nil
  | sequence h hs => exact h.covers.append hs.covers
  | lambda h hs => exact h.covers.append hs.covers
  | «entity» _ hs => exact hs.covers
  | value h hs => exact h.covers.under.append hs.covers
  termination_by structural as

end

/-- The rows are read through projections that are alike. -/
theorem Node.Alike.projection? {κ : Likeness} {ρ : Names} {node node' : Node} (h : node.Alike κ ρ node') :
    Option.Rel (Lambda.Alike κ ρ) node.projection? node'.projection? := by
  induction node using Node.projection?.induct generalizing node' with
  | case1 source f =>
    obtain ⟨source', bs, rfl, -, hs, -⟩ := Node.Alike.of_chain h
    cases hs with
    | lambda hf hs =>
      cases hs
      exact .some hf
  | case2 source args ih =>
    obtain ⟨source', bs, rfl, hsource, -⟩ := Node.Alike.of_chain h
    exact (ih hsource :)
  | case3 source args ih =>
    obtain ⟨source', bs, rfl, hsource, -⟩ := Node.Alike.of_chain h
    exact (ih hsource :)
  | case4 node hselect hfilter hset =>
    cases h with
    | intro kind arguments =>
      cases kind with
      | source | update => exact .none
      | filter =>
        cases arguments with
        | sequence => exact (hfilter _ _ rfl).elim
        | nil | lambda | «entity» | value => exact .none
      | set =>
        cases arguments with
        | sequence => exact (hset _ _ rfl).elim
        | nil | lambda | «entity» | value => exact .none
      | select =>
        cases arguments with
        | sequence hsource hs =>
          cases hs with
          | lambda hf hs =>
            cases hs with
            | nil => exact (hselect _ _ rfl).elim
            | sequence | lambda | «entity» | value => exact .none
          | nil | sequence | «entity» | value => exact .none
        | nil | lambda | «entity» | value => exact .none

/-- A projection is as safe from a value as the one that it stands for, unless the value has got another parameter. -/
theorem Likeness.Shielded.of_alike {ρ : Names} {kind : OperatorKind} {as bs : List Argument}
    (h : Argument.AlikeAll .lexical ρ none none as bs) (hleft : Likeness.lexical.Shielded ⟨kind, as⟩)
    (hvalue : ∀ {source source' : Node} {member member' value value' f : Lambda} {x y : String},
      as = [.sequence source, .lambda member, .lambda value] →
      bs = [.sequence source', .lambda member', .lambda value'] →
      source.projection? = some f → x ∈ f.free → ρ x y → value'.row? = some y → value.row? = some x) :
    Likeness.lexical.Shielded ⟨kind, bs⟩ := by
  rintro source' member' value' f' ⟨⟩ hf' y hy hfree
  cases h with
  | @sequence _ _ _ source _ _ _ hsource hs =>
    cases hs with
    | @lambda _ _ _ member _ _ _ _ hs =>
      cases hs with
      | @lambda _ _ _ value _ _ _ _ hs =>
        cases hs
        have hprojection := hsource.projection?
        rw [hf'] at hprojection
        generalize hf : source.projection? = projection at hprojection
        cases hprojection with
        | @some f _ hff =>
          obtain ⟨x, hx, hxy⟩ := hff.covers.2 y hfree
          exact hleft source member value f rfl hf x (hvalue rfl rfl hf hx hxy hy) hx

end ObjectQuery
