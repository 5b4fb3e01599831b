import ObjectQuery.Proofs.Fusion.Resolve

/-!
Rows, objects and assignments give the same columns and values on both sides.
-/
namespace ObjectQuery

open Build Compiler

namespace Fusion

variable {φ : Fusion} {m n : φ.Moment} {i j : ContextId} {c : Compiler} {rec rec' : ObjectQuery.Calls}

theorem tracks_rowColumns (hij : m.same i j) (outer : Option String) (extent : Extent) :
    Tracks m Equal (c.rowColumns i outer extent) (c.rowColumns j outer extent) := by
  refine .context hij fun d e _ _ hde => ?_
  refine (Tracks.orFailRel _ _ hde.rows?).bind fun n hn rows rows' hrows => ?_
  obtain ⟨-⟩ := hrows
  refine (tracks_entity _).bind fun n' hn' entity _ hentity => ?_
  obtain ⟨rfl, -⟩ := hentity
  cases extent with
  | key => exact (Tracks.orDangling _).then fun _ _ keys => (Tracks.pure rfl).then fun _ _ columns => .pure rfl
  | field | all => exact (Tracks.pure rfl).then fun _ _ columns => .pure rfl

theorem tracks_targetColumn (target : TableId) (name : String) :
    Tracks m Equal (c.targetColumn target name) (c.targetColumn target name) := by
  refine ((Tracks.orDangling _).then fun _ _ _ => Tracks.orFail _ _ _).then fun _ _ e => ?_
  split
  · exact .pure rfl
  · exact .fail _

theorem tracks_bindTarget (number : StatementId) (table : TableId) :
    Tracks m Equal (c.bindTarget number table) (c.bindTarget number table) := by
  refine (Tracks.statement number).then fun _ _ st => ?_
  split
  · exact (Tracks.orDangling _).then fun _ _ _ => (Tracks.orDangling _).then fun _ _ _ => .fail _
  · exact .modifyStatement _ _

variable (h : φ.Calls rec rec')

include h

theorem tracks_members (hij : m.same i j) (steps : List String) (extent : Extent) :
    Tracks m Equal (c.members rec i steps extent) (c.members rec' j steps extent) := by
  refine (h.classify steps hij).bind fun n hn d d' hd => ?_
  cases hd with
  | field | computed => exact .pure rfl
  | table rows | association rows => exact tracks_rowColumns rows none extent
  | object owner steps hmembers =>
    refine .context owner fun d e hd he hde => ?_
    have hnames := hmembers d e hd he
    cases hde with
    | projection mode _ _ _ =>
      dsimp only [Context.constructedAt] at hnames ⊢
      rw [hnames]
      refine (Tracks.mapM (List.forall₂_same.mpr fun _ _ => rfl) fun k hk x y hxy => ?_).then fun _ _ groups =>
        .pure rfl
      obtain rfl : x = y := hxy
      exact (h.members _ extent (hk.same owner)).then fun _ _ items => .pure rfl
    | table | association | lambda | read => exact tracks_rowColumns owner _ extent

/-- There is no column where the steps cannot be resolved. -/
theorem tracks_settableColumn (hij : m.same i j) (steps : List String) (table : Option TableId) :
    Tracks m Equal (settableColumn rec i steps table) (settableColumn rec' j steps table) := by
  refine (h.classify steps hij).answer (fun e => ?_) fun n _ d d' hd => ?_
  · cases e <;> exact ⟨_, rfl⟩
  · cases hd with
    | field column aliasName =>
      dsimp only
      split
      · exact .fail _
      · exact .pure rfl
    | table | association | computed | object => exact .fail _

theorem tracks_computedColumn (hij : m.same i j) (path : Path) :
    Tracks m Equal (c.computedColumn rec path i) (c.computedColumn rec' path j) := by
  refine .context hij fun d e _ _ hde => ?_
  rw [hde.statement]
  refine (Tracks.statement _).then fun n hn st => ?_
  split
  · exact tracks_targetColumn _ _
  · exact tracks_settableColumn h (hn.same hij) _ _

end Fusion
end ObjectQuery
