import ObjectQuery.Compile.Query
import ObjectQuery.Proofs.Mirror.Lexicon

/-!
Two compilations in step. What their values and errors have to do with each other is open here: it has to pass from
parts to what is built from them.
-/
namespace ObjectQuery

open Build

def SqlExpr.test : SqlExpr → Predicate
  | .condition p => p
  | v => .equal v (.literal (.bool true))

/-- What a constant is compiled to after so many parameters. -/
def Compiler.constant (c : Compiler) (n : Nat) (v : Literal) : SqlExpr :=
  if c.settings.parameterizeConstants then .parameter ("p" ++ toString (n + 1)) (some v) else .literal v

def Compiler.counted (c : Compiler) (n : Nat) : Nat :=
  if c.settings.parameterizeConstants then n + 1 else n

/-- What the values of two compilations have to do with each other, given what is remembered of the steps so far. -/
structure Reading (c c' : Compiler) where
  Ghost : Type
  later : Ghost → Ghost → Prop
  counts : Ghost → Nat → Nat → Prop
  value : Ghost → SqlExpr → SqlExpr → Prop
  condition : Ghost → Predicate → Predicate → Prop
  selects : Ghost → List SqlExpr → List SqlExpr → Prop
  refl : ∀ g, later g g
  trans : ∀ {g h k}, later g h → later h k → later g k
  value_mono : ∀ {g h v w}, later g h → value g v w → value h v w
  condition_mono : ∀ {g h p q}, later g h → condition g p q → condition h p q
  selects_mono : ∀ {g h vs ws}, later g h → selects g vs ws → selects h vs ws
  constant : ∀ {g m n} (v : Literal), counts g m n →
    ∃ h, later g h ∧ counts h (c.counted m) (c'.counted n) ∧ value h (c.constant m v) (c'.constant n v)
  column : ∀ {g} (id : ColumnId) (aliasName : Option String), value g (.column id aliasName) (.column id aliasName)
  null : ∀ {g}, value g .null .null
  star : ∀ {g}, value g .star .star
  subquery : ∀ {g} (m : StatementId), value g (.subquery m) (.subquery m)
  arithmetic : ∀ {g l l' r r'} (op : Arithmetic), value g l l' → value g r r' →
    value g (.arithmetic op l r) (.arithmetic op l' r')
  function : ∀ {g vs ws} (name : String), List.Forall₂ (value g) vs ws →
    value g (.function name vs) (.function name ws)
  ofCondition : ∀ {g p q}, condition g p q → value g (.condition p) (.condition q)
  test : ∀ {g v w}, value g v w → condition g v.test w.test
  ofBool : ∀ {g} (b : Bool), condition g (.ofBool b) (.ofBool b)
  comparison : ∀ {g l l' r r'} (op : Comparison), value g l l' → value g r r' →
    condition g (Compiler.comparison op l r) (Compiler.comparison op l' r')
  negate : ∀ {g p q}, condition g p q → condition g p.negate q.negate
  conjunction : ∀ {g p p' q q'}, condition g p p' → condition g q q' →
    condition g (p.conjunction q) (p'.conjunction q')
  disjunction : ∀ {g p p' q q'}, condition g p p' → condition g q q' →
    condition g (p.disjunction q) (p'.disjunction q')
  selected : ∀ {g vs ws}, List.Forall₂ (value g) vs ws → selects g vs ws
  add : ∀ {g vs ws v w}, selects g vs ws → value g v w →
    selects g (SelectList.add vs v).1 (SelectList.add ws w).1

/-- An error about a member that cannot be resolved is taken for an answer by some. -/
def CompileError.isResolution : CompileError → Bool
  | .memberResolution .. => true
  | _ => false

/-- How two compilations are compared. Unless errors are much the same already if both or neither are about the
resolution of a member, the names in their texts have to be the same. -/
structure Mirror (c c' : Compiler) where
  lexicon : Lexicon
  reading : Reading c c'
  error : CompileError → CompileError → Prop
  lawful : lexicon.Lawful c.schema
  schema : c'.schema = c.schema
  depth : c'.settings.maxSetterDepth = c.settings.maxSetterDepth
  same : ∀ e, error e e
  «external» : ∀ {g name}, lexicon.likeness.outer name → reading.value g (.parameter name none) (.parameter name none)
  within : ∀ {e e'} (text : String), error e e' → error (.inContext text e) (.inContext text e')
  resolution : ∀ {e e'}, error e e' → e'.isResolution = e.isResolution
  restate : ∀ {path path' fault fault'} (text : String),
    error (.memberResolution path fault) (.memberResolution path' fault') →
    error (.memberResolution text fault) (.memberResolution text fault')
  texts : ((∀ x y, lexicon.likeness.binder x y → x = y) ∧ ∀ {l r n p x y}, lexicon.agree l r n p x y → x = y) ∨
    ∀ e e', e'.isResolution = e.isResolution → error e e'
  builder : ∀ {ρ node node'}, node.Alike lexicon.likeness ρ node' →
    (∃ b, c.builderFor node = .ok b ∧ c'.builderFor node' = .ok b) ∨
      ∃ e e', c.builderFor node = .error e ∧ c'.builderFor node' = .error e' ∧ error e e'

namespace Mirror

variable {c c' : Compiler}

/-- The states of both compilations, and what is remembered of the steps so far. -/
structure Moment (M : Mirror c c') where
  ghost : M.reading.Ghost
  left : BuildState
  right : BuildState

structure Matches (M : Mirror c c') (g : M.reading.Ghost) (st st' : Statement) : Prop where
  kind : st'.kind = st.kind
  select : M.reading.selects g st.select st'.select
  sources : st'.sources = st.sources
  joins : ∀ j ∈ st.sources.joins, M.reading.condition g j.on j.on
  condition : M.reading.condition g st.condition st'.condition
  target : st'.update.target = st.update.target
  items : List.Forall₂ (fun i j => j.column = i.column ∧ M.reading.value g i.value j.value) st.update.items
    st'.update.items

structure Alike (M : Mirror c c') (m : M.Moment) : Prop where
  aliases : m.right.aliases = m.left.aliases
  counts : M.reading.counts m.ghost m.left.parameters m.right.parameters
  statements : List.Forall₂ (M.Matches m.ghost) m.left.statements m.right.statements
  contexts : M.lexicon.Pairs m.left.contexts m.right.contexts

variable {M : Mirror c c'}

namespace Moment

structure Later (m n : M.Moment) : Prop where
  ghost : M.reading.later m.ghost n.ghost
  left : Sustains m.left.contexts n.left.contexts
  right : Sustains m.right.contexts n.right.contexts

variable {m n o : M.Moment}

theorem Later.refl (m : M.Moment) : m.Later m :=
  ⟨M.reading.refl _, .refl _, .refl _⟩

theorem Later.trans (h : m.Later n) (k : n.Later o) : m.Later o :=
  ⟨M.reading.trans h.ghost k.ghost, h.left.trans k.left, h.right.trans k.right⟩

/-- The names that stand for each other are bound to the same as seen from the scope. -/
def Knows (m : M.Moment) (scope : Option ContextId) (ρ : Names) : Prop :=
  M.lexicon.Knows m.left.contexts m.right.contexts m.left.contexts.length scope ρ

theorem Knows.mono {p : Option ContextId} {ρ : Names} (h : m.Knows p ρ) (hn : m.Later n) : n.Knows p ρ :=
  fun x y hxy => M.lawful.widen hn.left.length_le (M.lawful.keep hn.left.supports hn.right.supports (h x y hxy))

end Moment

theorem Matches.mono {g h : M.reading.Ghost} {st st' : Statement} (hst : M.Matches g st st')
    (hg : M.reading.later g h) : M.Matches h st st' :=
  ⟨hst.kind, M.reading.selects_mono hg hst.select, hst.sources,
    fun j hj => M.reading.condition_mono hg (hst.joins j hj), M.reading.condition_mono hg hst.condition, hst.target,
    hst.items.imp fun _ _ => And.imp_right (M.reading.value_mono hg)⟩

theorem Matches.joins_settle {g : M.reading.Ghost} {st st' : Statement} (hst : M.Matches g st st') :
    ∀ j ∈ st.sources.settle.joins, M.reading.condition g j.on j.on := by
  intro j hj
  obtain ⟨i, hi, rfl⟩ := List.mem_map.mp hj
  exact hst.joins i hi

end Mirror
end ObjectQuery
