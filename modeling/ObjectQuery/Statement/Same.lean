import ObjectQuery.Statement.Basic

/-!
Equality of statements as values. It differs from identity in the floats only.
-/
namespace ObjectQuery

def Join.same (a b : Join) : Bool :=
  a.source == b.source && a.kind == b.kind && a.on.same b.on && a.weak == b.weak

def Sources.same (a b : Sources) : Bool :=
  a.root == b.root && a.joins.length == b.joins.length &&
    (a.joins.zip b.joins).all fun (x, y) => x.same y

def SetItem.same (a b : SetItem) : Bool :=
  a.column == b.column && a.value.same b.value

def Assignments.same (a b : Assignments) : Bool :=
  a.target == b.target && a.items.length == b.items.length &&
    (a.items.zip b.items).all fun (x, y) => x.same y

def Statement.same (a b : Statement) : Bool :=
  a.kind == b.kind && SqlExpr.sameAll a.select b.select && a.sources.same b.sources &&
    a.condition.same b.condition && a.update.same b.update

end ObjectQuery
