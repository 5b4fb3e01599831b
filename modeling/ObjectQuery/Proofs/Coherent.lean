import ObjectQuery.Proofs.Content
import ObjectQuery.Proofs.Specification.Closed

/-!
Coherent schemas: the columns that a table is declared with are its own. Every specification that resolves
gives one.
-/
namespace ObjectQuery

def Compiler.Coherent (c : Compiler) : Prop :=
  ∀ table id, c.Declares table id → id.table = table

namespace Spec

/-- The columns of a schema that was resolved from a specification belong to the tables they are declared for. -/
theorem coherent_of_resolve {spec : Spec} {c : Compiler} (h : spec.resolve = .ok c.schema) :
    c.Coherent := by
  have hrealizes := realizes_of_resolve h
  intro table id hd
  cases hd with
  | stored he hm =>
    obtain ⟨e, -, hdescribes⟩ := exists_of_mem_of_forall₂ hrealizes.entities (Keyed.mem_of_find? he)
    obtain ⟨t, htable⟩ := hdescribes.table
    obtain ⟨column, hplaces⟩ := hdescribes.exists_places (Entity.member?_of_mem hm)
    exact hplaces.table_eq htable
  | own he hm =>
    obtain ⟨target, -, hown, -⟩ := hrealizes.targets _ (Keyed.mem_of_find? he) _ _ (Entity.member?_of_mem hm)
    exact hown
  | foreign he hm ht =>
    obtain ⟨target, hfind, -, hforeign⟩ := hrealizes.targets _ (Keyed.mem_of_find? he) _ _ (Entity.member?_of_mem hm)
    obtain rfl := Option.some.inj (hfind.symm.trans ht)
    exact hforeign

/-- Employees have a department and may have a manager, who is an employee too. -/
def company : Spec where
  tables := [
    ⟨"employees", [⟨"id", .int .bits32, true, false⟩, ⟨"name", .string none, false, false⟩,
      ⟨"manager", .int .bits32, false, true⟩, ⟨"department", .int .bits32, false, false⟩]⟩,
    ⟨"departments", [⟨"id", .int .bits32, true, false⟩, ⟨"name", .string none, false, false⟩]⟩]
  entities := [
    ⟨"Employee", "employees", [("id", .column "id"), ("name", .column "name"),
      ("manager", .association "Employee" "manager" "id" true),
      ("department", .association "Department" "department" "id" false)]⟩,
    ⟨"Department", "departments", [("id", .column "id"), ("name", .column "name")]⟩]

end Spec

def Schema.company : Schema where
  database := ⟨Spec.company.tables⟩
  mapping := ⟨[
    ⟨"Employee", 0, ⟨[("id", .column ⟨0, 0⟩), ("name", .column ⟨0, 1⟩),
      ("manager", .association ⟨"Employee", ⟨0, 2⟩, ⟨0, 0⟩, true⟩),
      ("department", .association ⟨"Department", ⟨0, 3⟩, ⟨1, 0⟩, false⟩)], by decide⟩⟩,
    ⟨"Department", 1, ⟨[("id", .column ⟨1, 0⟩), ("name", .column ⟨1, 1⟩)], by decide⟩⟩], by decide⟩

example : Spec.company.resolve = .ok Schema.company := rfl

def Compiler.company : Compiler where
  schema := .company

end ObjectQuery
