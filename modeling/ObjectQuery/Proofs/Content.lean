import ObjectQuery.Proofs.World

/-!
What may be known of all values and conditions of a compilation, whatever it is.
-/
namespace ObjectQuery

/-- The columns that the schema declares for a table, as members or as a side of an association. -/
inductive Compiler.Declares (c : Compiler) : TableId → ColumnId → Prop
  | stored {entity name : String} {e : Entity} {id : ColumnId} :
    c.schema.mapping.entity? entity = some e → (name, .column id) ∈ e.members.items →
    Declares c e.table id
  | own {entity name : String} {e : Entity} {a : Association} :
    c.schema.mapping.entity? entity = some e → (name, .association a) ∈ e.members.items →
    Declares c e.table a.own
  | foreign {entity name : String} {e target : Entity} {a : Association} :
    c.schema.mapping.entity? entity = some e → (name, .association a) ∈ e.members.items →
    c.schema.mapping.entity? a.target = some target → Declares c target.table a.foreign

/-- What is to be known of every value and condition of a statement. It must hold of the simplest ones, pass
from parts to what is built from them, and stay true in statements further in and in later states. -/
structure Content (c : Compiler) where
  value : World → StatementId → SqlExpr → Prop
  condition : World → StatementId → Predicate → Prop
  value_mono : ∀ {σ τ m v}, World.Grows σ τ → value σ m v → value τ m v
  condition_mono : ∀ {σ τ m p}, World.Grows σ τ → condition σ m p → condition τ m p
  value_within : ∀ {σ : World} {a m v}, σ.Encloses a m → value σ a v → value σ m v
  column : ∀ {σ : World} {m source id}, σ.Reads m source → c.Declares source.table id →
    value σ m (.column id (some source.aliasName))
  parameter : ∀ {σ m name v}, value σ m (.parameter name v)
  literal : ∀ {σ m v}, value σ m (.literal v)
  null : ∀ {σ m}, value σ m .null
  star : ∀ {σ m}, value σ m .star
  arithmetic : ∀ {σ m op l r}, value σ m l → value σ m r → value σ m (.arithmetic op l r)
  function : ∀ {σ m name args}, (∀ v ∈ args, value σ m v) → value σ m (.function name args)
  subquery : ∀ {σ : World} {m n a}, σ.outer[n]? = some (some a) → σ.Encloses a m →
    value σ m (.subquery n)
  ofCondition : ∀ {σ m p}, condition σ m p → value σ m (.condition p)
  toCondition : ∀ {σ m p}, value σ m (.condition p) → condition σ m p
  always : ∀ {σ m}, condition σ m .always
  ofBool : ∀ {σ m b}, condition σ m (.ofBool b)
  compare : ∀ {σ m op l r}, value σ m l → value σ m r → condition σ m (.compare op l r)
  isNull : ∀ {σ m v}, value σ m v → condition σ m (.isNull v)
  equal : ∀ {σ m l r}, value σ m l → value σ m r → condition σ m (.equal l r)
  negate : ∀ {σ m p}, condition σ m p → condition σ m p.negate
  conjunction : ∀ {σ m p q}, condition σ m p → condition σ m q → condition σ m (p.conjunction q)
  disjunction : ∀ {σ m p q}, condition σ m p → condition σ m q → condition σ m (p.disjunction q)

def Content.anything (c : Compiler) : Content c where
  value _ _ _ := True
  condition _ _ _ := True
  value_mono _ _ := trivial
  condition_mono _ _ := trivial
  value_within _ _ := trivial
  column _ _ := trivial
  parameter := trivial
  literal := trivial
  null := trivial
  star := trivial
  arithmetic _ _ := trivial
  function _ := trivial
  subquery _ _ := trivial
  ofCondition _ := trivial
  toCondition _ := trivial
  always := trivial
  ofBool := trivial
  compare _ _ := trivial
  isNull _ := trivial
  equal _ _ := trivial
  negate _ := trivial
  conjunction _ _ := trivial
  disjunction _ _ := trivial

end ObjectQuery
