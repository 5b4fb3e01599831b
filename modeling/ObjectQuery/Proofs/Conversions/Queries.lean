import ObjectQuery.Compile.Query
import ObjectQuery.Proofs.Coherent
import ObjectQuery.Proofs.Conversions.Operators

/-!
Whole queries with and without conversions. They compile to the same statements, and to contexts that differ at most in
conversions; or they fail for reasons of the same kind.
-/
namespace ObjectQuery

open Build Compiler

/-- What two queries come to that are the same up to conversions. -/
inductive Accord : Except Stop CompiledQuery → Except Stop CompiledQuery → Prop
  | compiled {q q' : CompiledQuery} (root : q.root = q'.root) (rootContext : q.rootContext = q'.rootContext)
    (statements : q.statements = q'.statements)
    (contexts : q.contexts.map Context.erase = q'.contexts.map Context.erase) :
    Accord (.ok q) (.ok q')
  | failed {e e' : CompileError} (kind : e.ctorIdx = e'.ctorIdx) (cause : e.rootCause.ctorIdx = e'.rootCause.ctorIdx) :
    Accord (.error (.failed e)) (.error (.failed e'))
  | dangling : Accord (.error .dangling) (.error .dangling)

theorem Accord.symm {r r' : Except Stop CompiledQuery} (h : Accord r r') : Accord r' r := by
  cases h with
  | compiled root rootContext statements contexts =>
    exact .compiled root.symm rootContext.symm statements.symm contexts.symm
  | failed kind cause => exact .failed kind.symm cause.symm
  | dangling => exact .dangling

namespace Compiler

variable {c c' : Compiler} {node node' : Node} {fuel : Nat}

/-- What the query comes to with any amount of fuel beyond some amount. -/
def Returns (c : Compiler) (node : Node) (r : Except Stop CompiledQuery) : Prop :=
  ∀ᶠ fuel in Filter.atTop, c.compile fuel node = r

theorem echoes_finish {rec : Calls} (h : rec.Echo c') (id : ContextId) :
    c'.Echoes Eq (finish rec id) fun rec' => finish rec' id := by
  refine (Echoes.context id).bind fun d d' hd => ?_
  have hlast : c'.Echoes Eq (context id >>= fun d => pure (d.statement, id)) fun _ =>
      context id >>= fun d => pure (d.statement, id) :=
    (Echoes.context id).bind fun e e' he => he.statement_eq ▸ .pure rfl
  rw [hd.isUpdate_eq]
  dsimp only
  split
  · exact hlast
  · exact (echoes_selectItems h id [] .all).bind fun _ _ _ => hlast

/-- A query that does not run out of fuel comes to the same as one that differs from it in conversions only. -/
theorem exists_returns (hc : c.erase = c'.erase) (hnode : node.erase = node'.erase)
    (h : c.compile fuel node ≠ .error .outOfFuel) :
    ∃ r, c'.Returns node' r ∧ Accord (c.compile fuel node) r := by
  have hrec := calls_echo hc fuel
  have hroot : c'.Echoes Eq (c.root fuel node) fun rec' => rec'.sequence none node' >>= finish rec' :=
    (hrec.sequence none hnode).bind fun id _ hid => hid ▸ echoes_finish hrec id
  obtain ⟨u, hu⟩ | ⟨r, hr, hends⟩ := hroot {} {} rfl
  · exact absurd (by rw [compile, hu]) h
  · have hreturns : ∀ᶠ n in Filter.atTop, (c'.root n node').run {} = r := hr
    unfold compile
    generalize (c.root fuel node).run {} = x at hends
    cases hends with
    | @gives a b s t alike hab =>
      obtain rfl := hab
      obtain ⟨number, id⟩ := a
      obtain ⟨hstatements, hcontexts, -⟩ := BuildState.erase_eq_iff.mp alike
      refine ⟨.ok ⟨t.statements, t.contexts, number, id⟩, ?_, .compiled rfl rfl hstatements hcontexts⟩
      exact hreturns.mono fun n hn => by rw [compile, hn]
    | @fails e e' s t alike he =>
      exact ⟨.error (.failed e'), hreturns.mono fun n hn => by rw [compile, hn], .failed he.1 he.2⟩
    | dangles => exact ⟨.error .dangling, hreturns.mono fun n hn => by rw [compile, hn], .dangling⟩

end Compiler

/-- Conversions make no difference. A query that compiles or fails does so without the conversions in it and in the
mapping as well, and the other way round: the statements are the same, and so are the contexts up to the conversions in
the lambdas of projections, and an error is of the same kind and has a root cause of the same kind. -/
theorem Compiler.compile_erase (c : Compiler) (node : Node) (fuel : Nat) :
    (c.compile fuel node ≠ .error .outOfFuel →
      ∃ r, c.erase.Returns node.erase r ∧ Accord (c.compile fuel node) r) ∧
    (c.erase.compile fuel node.erase ≠ .error .outOfFuel →
      ∃ r, c.Returns node r ∧ Accord r (c.erase.compile fuel node.erase)) := by
  refine ⟨exists_returns c.erase_erase.symm node.erase_erase.symm, fun h => ?_⟩
  obtain ⟨r, hr, hcorresponds⟩ := exists_returns c.erase_erase node.erase_erase h
  exact ⟨r, hr, hcorresponds.symm⟩

/-- The employees called `x`, with conversions around the projection and what it is read through. -/
def convertedNames : Node :=
  ((Node.source "Employee").select
    ⟨["e"], .convert (.construct [("who", .convert (.member (.convert (.parameter "e")) "name"))])⟩).filter
    ⟨["p"], .convert (.binary (.comparison .equal) (.convert (.member (.parameter "p") "who"))
      (.literal (.text "x")))⟩

def plainNames : Node :=
  ((Node.source "Employee").select ⟨["e"], .construct [("who", .member (.parameter "e") "name")]⟩).filter
    ⟨["p"], .binary (.comparison .equal) (.member (.parameter "p") "who") (.literal (.text "x"))⟩

def convertedNamesQuery : CompiledQuery :=
  (Compiler.company.compile 12 convertedNames).toOption.getD default

theorem Compiler.compile_erase_convertedNames :
    convertedNames.erase = plainNames ∧ Compiler.company.compile 12 convertedNames = .ok convertedNamesQuery ∧
      ∃ q, Compiler.company.erase.Returns plainNames (.ok q) ∧ q.statements = convertedNamesQuery.statements ∧
        q.contexts.map Context.erase = convertedNamesQuery.contexts.map Context.erase := by
  have hq : Compiler.company.compile 12 convertedNames = .ok convertedNamesQuery := rfl
  obtain ⟨r, hr, haccord⟩ := (Compiler.compile_erase Compiler.company convertedNames 12).1 (by rw [hq]; nofun)
  rw [hq] at haccord
  cases haccord with
  | @compiled _ q _ _ hstatements hcontexts => exact ⟨rfl, hq, q, hr, hstatements.symm, hcontexts.symm⟩

end ObjectQuery
