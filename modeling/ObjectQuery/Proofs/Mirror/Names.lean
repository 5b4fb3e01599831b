import ObjectQuery.Proofs.Mirror.Shape

/-!
The names of parameters in a query, bound or not. Those that are free are among them, and so are those of the projection
that the rows are read through.
-/
namespace ObjectQuery

/-! All names of parameters, bound or not. -/

mutual

def Expr.names : Expr → List String
  | .parameter name => [name]
  | .member object _ => object.names
  | .convert inner | .not inner => inner.names
  | .binary _ lhs rhs => lhs.names ++ rhs.names
  | .call _ args => Expr.namesAll args
  | .construct bindings => Expr.namesBindings bindings
  | .aggregate _ source selector => source.names ++ Lambda.namesOption selector
  | .literal _ | .external _ | .null => []
  termination_by structural e => e

def Expr.namesAll : List Expr → List String
  | [] => []
  | e :: es => e.names ++ Expr.namesAll es
  termination_by structural es => es

def Expr.namesBindings : List (String × Expr) → List String
  | [] => []
  | (_, e) :: bs => e.names ++ Expr.namesBindings bs
  termination_by structural bs => bs

def Lambda.names : Lambda → List String
  | ⟨ps, body⟩ => ps ++ body.names
  termination_by structural f => f

def Lambda.namesOption : Option Lambda → List String
  | none => []
  | some f => f.names
  termination_by structural f => f

def Node.names : Node → List String
  | ⟨_, arguments⟩ => Argument.namesAll arguments
  termination_by structural node => node

def Argument.namesAll : List Argument → List String
  | [] => []
  | .sequence node :: as => node.names ++ Argument.namesAll as
  | .lambda f :: as => f.names ++ Argument.namesAll as
  | .entity _ :: as => Argument.namesAll as
  | .value e :: as => e.names ++ Argument.namesAll as
  termination_by structural as => as

end

/-! Free parameters are among the names. -/

theorem Names.subset_append {xs ys xs' ys' : List String} (h : xs ⊆ xs') (k : ys ⊆ ys') : xs ++ ys ⊆ xs' ++ ys' :=
  List.append_subset.mpr
    ⟨List.Subset.trans h (List.subset_append_left _ _), List.Subset.trans k (List.subset_append_right _ _)⟩

theorem Names.of_not_mem_append {y : String} {xs ys : List String} (h : y ∉ xs ++ ys) : y ∉ xs ∧ y ∉ ys :=
  not_or.mp (mt List.mem_append.mpr h)

mutual

theorem Expr.free_subset_names (e : Expr) : e.free ⊆ e.names := by
  cases e with
  | parameter | literal | «external» | null => exact List.Subset.refl _
  | member e _ => exact e.free_subset_names
  | convert e => exact e.free_subset_names
  | not e => exact e.free_subset_names
  | binary op lhs rhs => exact Names.subset_append lhs.free_subset_names rhs.free_subset_names
  | call function args => exact Expr.freeAll_subset_names args
  | construct bindings => exact Expr.freeBindings_subset_names bindings
  | aggregate function source selector =>
    exact Names.subset_append source.free_subset_names (Lambda.freeOption_subset_names selector)
  termination_by structural e

theorem Expr.freeAll_subset_names (es : List Expr) : Expr.freeAll es ⊆ Expr.namesAll es := by
  cases es with
  | nil => exact List.Subset.refl _
  | cons e es => exact Names.subset_append e.free_subset_names (Expr.freeAll_subset_names es)
  termination_by structural es

theorem Expr.freeBindings_subset_names (bs : List (String × Expr)) : Expr.freeBindings bs ⊆ Expr.namesBindings bs := by
  match bs with
  | [] => exact List.Subset.refl _
  | (_, e) :: bs => exact Names.subset_append e.free_subset_names (Expr.freeBindings_subset_names bs)
  termination_by structural bs

theorem Lambda.free_subset_names (f : Lambda) : f.free ⊆ f.names := by
  cases f with
  | mk ps body =>
    have hbody : body.free ⊆ ps ++ body.names := List.Subset.trans body.free_subset_names (List.subset_append_right _ _)
    exact List.Subset.trans (List.filter_subset_self _) hbody
  termination_by structural f

theorem Lambda.freeOption_subset_names (f : Option Lambda) : Lambda.freeOption f ⊆ Lambda.namesOption f := by
  match f with
  | none => exact List.Subset.refl _
  | some f => exact f.free_subset_names
  termination_by structural f

theorem Node.free_subset_names (node : Node) : node.free ⊆ node.names := by
  cases node with
  | mk kind arguments => exact Argument.freeAll_subset_names none arguments
  termination_by structural node

theorem Argument.freeAll_subset_names (row : Option String) (as : List Argument) :
    Argument.freeAll row as ⊆ Argument.namesAll as := by
  match as with
  | [] => exact List.Subset.refl _
  | .sequence node :: as =>
    exact Names.subset_append node.free_subset_names (Argument.freeAll_subset_names none as)
  | .lambda f :: as => exact Names.subset_append f.free_subset_names (Argument.freeAll_subset_names f.row? as)
  | .entity _ :: as => exact Argument.freeAll_subset_names none as
  | .value e :: as =>
    exact Names.subset_append (List.Subset.trans (List.filter_subset_self _) e.free_subset_names)
      (Argument.freeAll_subset_names none as)
  termination_by structural as

end

theorem Lambda.mem_names_of_row? {f : Lambda} {y : String} (h : f.row? = some y) : y ∈ f.names := by
  cases f with
  | mk ps body => exact List.mem_append_left _ (List.mem_of_mem_head? h)

theorem Node.names_projection? {node : Node} {f : Lambda} (h : node.projection? = some f) : f.names ⊆ node.names := by
  induction node using Node.projection?.induct with
  | case1 source g =>
    cases h
    simp [Node.names, Argument.namesAll]
  | case2 source args ih => exact List.Subset.trans (ih h) (List.subset_append_left _ _)
  | case3 source args ih => exact List.Subset.trans (ih h) (List.subset_append_left _ _)
  | case4 node hselect hfilter hset =>
    unfold Node.projection? at h
    split at h
    · exact (hselect _ _ rfl).elim
    · exact (hfilter _ _ rfl).elim
    · exact (hset _ _ rfl).elim
    · cases h

end ObjectQuery
