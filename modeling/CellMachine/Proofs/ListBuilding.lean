import CellMachine.Core.Library
import CellMachine.Proofs.Grading
import CellMachine.Proofs.Locality

/-!
# The order in which a list is built

The unification of two tags is their least upper bound in the order of what tags cover, and it is
there as soon as some tag covers both.  Main statements: the tag of a list is the least one that
covers the types of its items, whatever order they come in (`CellList.ofCells_eq_ok_iff`), and
joining lists is associative.

The tags of the joined lists themselves do NOT matter: only their items are looked at, so joining
two empty lists of integers gives a list whose tag is undetermined.
-/

namespace CellMachine

/-! ## Tags as a partial join -/

namespace CellType

variable {a b element merged : CellType}

theorem Covers.antisymm (h : a.Covers b) (h' : b.Covers a) : a = b :=
  Option.some.inj (h.symm.trans h'.unify_cover)

/-- Unification gives the least tag that covers both, if any tag does. -/
theorem unify_eq_some_iff :
    a.unify b = some merged ↔ ∀ t : CellType, t.Covers merged ↔ t.Covers a ∧ t.Covers b := by
  constructor
  · intro hUnify t
    obtain ⟨hLeft, hRight⟩ := covers_of_unify hUnify
    refine ⟨fun h => ⟨h.trans hLeft, h.trans hRight⟩, fun ⟨ha, hb⟩ => ?_⟩
    obtain ⟨least, hLeast, hCovers⟩ := ha.unify hb
    rwa [Option.some.inj (hUnify.symm.trans hLeast)]
  · intro h
    obtain ⟨ha, hb⟩ := (h merged).1 (covers_self merged)
    obtain ⟨least, hLeast, hCovers⟩ := ha.unify hb
    have hSame : least = merged := ((h least).2 (covers_of_unify hLeast)).antisymm hCovers
    rw [hLeast, hSame]

/-- A tag is covered by the same tags as all the given ones together. -/
def IsLeastCover (tags : List CellType) (cover : CellType) : Prop :=
  ∀ t : CellType, t.Covers cover ↔ ∀ tag ∈ tags, t.Covers tag

theorem isLeastCover_singleton : IsLeastCover [element] merged ↔ element = merged := by
  constructor
  · intro h
    have hCovers : merged.Covers element := (h merged).1 (covers_self merged) element (by simp)
    have hCovered : element.Covers merged := (h element).2 (by simpa using covers_self element)
    exact hCovered.antisymm hCovers
  · rintro rfl t
    simp

/-- Only which tags there are matters, not their order. -/
theorem isLeastCover_congr {tags tags' : List CellType} (h : ∀ tag, tag ∈ tags ↔ tag ∈ tags') :
    IsLeastCover tags merged ↔ IsLeastCover tags' merged := by
  unfold IsLeastCover
  simp only [h]

/-- Two tags may be replaced by their unification. -/
theorem isLeastCover_unify {next : CellType} {tags : List CellType}
    (h : a.unify b = some next) :
    IsLeastCover (next :: tags) merged ↔ IsLeastCover (a :: b :: tags) merged := by
  unfold IsLeastCover
  simp only [List.forall_mem_cons, unify_eq_some_iff.1 h, and_assoc]

/-- The undetermined tag may be left out. -/
theorem isLeastCover_undetermined {tags : List CellType} :
    IsLeastCover (undetermined :: tags) merged ↔ IsLeastCover tags merged := by
  unfold IsLeastCover
  simp only [List.forall_mem_cons, covers_undetermined, true_and]

/-- Some cells are absorbed one after the other exactly if they are values and some tag covers them
all; the tag is then the least such. -/
theorem absorbAll_eq_ok_iff {cells : List Cell} :
    element.absorbAll cells = .ok merged ↔
      (∀ cell ∈ cells, cell.isReference = false) ∧
        IsLeastCover (element :: cells.map Cell.type) merged := by
  induction cells generalizing element with
  | nil => simp [absorbAll, isLeastCover_singleton]
  | cons cell rest ih =>
      rw [absorbAll, List.forall_mem_cons, List.map_cons]
      cases hAbsorb : element.absorb cell with
      | ok next =>
          obtain ⟨hValue, hUnify⟩ := absorb_eq_ok_iff.1 hAbsorb
          simp only [ih, isLeastCover_unify hUnify, hValue, true_and]
      | error e =>
          simp only [reduceCtorEq, false_iff]
          rintro ⟨⟨hValue, -⟩, hLeast⟩
          -- The least cover would cover both tags, so the cell could be absorbed.
          have hCovers := (hLeast merged).1 (covers_self merged)
          simp only [List.forall_mem_cons] at hCovers
          obtain ⟨next, hUnify, -⟩ := hCovers.1.unify hCovers.2.1
          rw [absorb_eq_ok_iff.2 ⟨hValue, hUnify⟩] at hAbsorb
          cases hAbsorb

end CellType

/-! ## Lists of cells -/

namespace CellList

variable {cells cells' : List Cell} {l : CellList}

/-- A list is built exactly of values that some tag covers; it has the least such tag. -/
theorem ofCells_eq_ok_iff :
    ofCells cells = .ok l ↔
      l.items = cells ∧ (∀ cell ∈ cells, cell.isReference = false) ∧
        CellType.IsLeastCover (cells.map Cell.type) l.element := by
  obtain ⟨element, items⟩ := l
  rw [ofCells, build, ← CellType.isLeastCover_undetermined, ← CellType.absorbAll_eq_ok_iff]
  cases CellType.undetermined.absorbAll cells <;> simp [and_comm, eq_comm]

/-- The tag of the list that is built of some cells, if one is. -/
theorem ofCells_element_eq_some_iff {tag : CellType} :
    (ofCells cells).toOption.map element = some tag ↔
      (∀ cell ∈ cells, cell.isReference = false) ∧
        CellType.IsLeastCover (cells.map Cell.type) tag := by
  rw [Option.map_eq_some_iff]
  constructor
  · rintro ⟨l, hBuilt, rfl⟩
    cases hCells : ofCells cells with
    | error e =>
        rw [hCells] at hBuilt
        cases hBuilt
    | ok found =>
        rw [hCells] at hBuilt
        cases hBuilt
        exact (ofCells_eq_ok_iff.1 hCells).2
  · intro h
    have hBuilt : ofCells cells = .ok ⟨tag, cells⟩ := ofCells_eq_ok_iff.2 ⟨rfl, h⟩
    exact ⟨⟨tag, cells⟩, by rw [hBuilt]; rfl, rfl⟩

/-- Whether cells can be put into one list, and with which tag, does not depend on their order. -/
theorem ofCells_element_perm (h : cells.Perm cells') :
    (ofCells cells).toOption.map element = (ofCells cells').toOption.map element := by
  refine Option.ext fun tag => ?_
  rw [ofCells_element_eq_some_iff, ofCells_element_eq_some_iff]
  refine and_congr ?_ (CellType.isLeastCover_congr fun type => (h.map Cell.type).mem_iff)
  simp only [h.mem_iff]

/-- Fewer cells can be put into one list if more can. -/
theorem ofCells_of_subset (h : ofCells cells = .ok l) (hCells : cells' ⊆ cells) :
    ∃ l', ofCells cells' = .ok l' := by
  obtain ⟨-, hValues, hLeast⟩ := ofCells_eq_ok_iff.1 h
  have hCovers := (hLeast l.element).1 (CellType.covers_self l.element)
  have hAll : ∀ cell ∈ cells', cell.isReference = false ∧ l.element.Covers cell.type :=
    fun cell hCell => ⟨hValues cell (hCells hCell), hCovers _ (List.mem_map_of_mem (hCells hCell))⟩
  obtain ⟨merged, hMerged, -⟩ :=
    (CellType.covers_undetermined l.element).absorbAll hAll
  exact ⟨⟨merged, cells'⟩, by rw [ofCells, build, hMerged]⟩

/-- The cell is the list of the given items, or an error if there is no such list. -/
def Gathers (items : List Cell) (result : Cell) : Prop :=
  match ofCells items with
  | .ok l => result = .list l.element items
  | .error _ => result.isError = true

/-- An error stands for items of which some cannot be put into one list. -/
theorem gathers_of_subset {e : ListError} {result : Cell} (h : ofCells cells' = .error e)
    (hCells : cells' ⊆ cells) (hError : result.isError = true) : Gathers cells result := by
  unfold Gathers
  cases hAll : ofCells cells with
  | ok l =>
      obtain ⟨l', hSome⟩ := ofCells_of_subset hAll hCells
      rw [h] at hSome
      cases hSome
  | error _ => exact hError

end CellList

/-! ## Joining lists -/

namespace Exec

/-- Join two cells through the core function for it. -/
def concatenate (execute : Code → Exec Ending) (a b : Cell) : Exec Cell := do
  let (result, _) ← runNative execute (CoreFunction.concat.resolve (Args.ofCells [a, b]))
  return result

/-- The core function does no more than join and report. -/
theorem concatenate_eq (execute : Code → Exec Ending) (a b : Cell) :
    concatenate execute a b = (do
      let (result, _) ← runNative execute
        (Core.concat a b fun result => .done result (Args.ofCells [a, b]))
      return result) := rfl

/-- Two lists are joined to the list of their items, if there is one. -/
theorem concatenate_lists (execute : Code → Exec Ending) (s t : CellType) (xs ys : List Cell)
    (m : Machine) :
    ∃ result m', concatenate execute (.list s xs) (.list t ys) m = .ok result m' ∧
      CellList.Gathers (xs ++ ys) result := by
  rw [concatenate_eq]
  unfold CellList.Gathers
  cases hCells : CellList.ofCells (xs ++ ys) with
  | ok l =>
      have hItems := (CellList.ofCells_eq_ok_iff.1 hCells).1
      simp only [Core.concat, hCells]
      exact ⟨l.toCell, m, rfl, by rw [CellList.toCell, hItems]⟩
  | error e =>
      simp only [Core.concat, hCells]
      exact ⟨_, m.report .mixedListTypes, rfl, rfl⟩

/-- An error cell cannot be joined with anything. -/
theorem concatenate_isError (execute : Code → Exec Ending) {a b : Cell}
    (h : a.isError = true ∨ b.isError = true) (m : Machine) :
    ∃ result m', concatenate execute a b m = .ok result m' ∧ result.isError = true := by
  have hConcat : (Core.concat a b fun result => .done result (Args.ofCells [a, b])) =
      .done (.error "Error: Text or list operands expected") (Args.ofCells [a, b]) := by
    rcases h with ha | hb
    · cases a with
      | error message => rfl
      | _ => cases ha
    · cases b with
      | error message => cases a <;> rfl
      | _ => cases hb
  rw [concatenate_eq, hConcat]
  exact ⟨_, m, rfl, rfl⟩

variable (execute : Code → Exec Ending) (s t u : CellType) (xs ys zs : List Cell) (m : Machine)

/-- Three lists, of which the first two are joined first. -/
theorem concatenate_left :
    ∃ result m', (concatenate execute (.list s xs) (.list t ys) >>= fun joined =>
        concatenate execute joined (.list u zs)) m = .ok result m' ∧
      CellList.Gathers (xs ++ ys ++ zs) result := by
  obtain ⟨joined, m₁, hJoined, hGathers⟩ := concatenate_lists execute s t xs ys m
  rw [bind_of_ok hJoined]
  unfold CellList.Gathers at hGathers
  split at hGathers
  · rw [hGathers]
    exact concatenate_lists execute _ u (xs ++ ys) zs m₁
  · -- If the first two have no list in common, then all three have none.
    rename_i hMixed
    obtain ⟨result, m', hResult, hError⟩ :=
      concatenate_isError execute (Or.inl hGathers : _ ∨ (Cell.list u zs).isError = true) m₁
    exact ⟨result, m', hResult,
      CellList.gathers_of_subset hMixed (List.subset_append_left _ _) hError⟩

/-- Three lists, of which the last two are joined first. -/
theorem concatenate_right :
    ∃ result m', (concatenate execute (.list t ys) (.list u zs) >>= fun joined =>
        concatenate execute (.list s xs) joined) m = .ok result m' ∧
      CellList.Gathers (xs ++ ys ++ zs) result := by
  obtain ⟨joined, m₁, hJoined, hGathers⟩ := concatenate_lists execute t u ys zs m
  rw [bind_of_ok hJoined, List.append_assoc]
  unfold CellList.Gathers at hGathers
  split at hGathers
  · rw [hGathers]
    exact concatenate_lists execute s _ xs (ys ++ zs) m₁
  · rename_i hMixed
    obtain ⟨result, m', hResult, hError⟩ :=
      concatenate_isError execute (Or.inr hGathers : (Cell.list s xs).isError = true ∨ _) m₁
    exact ⟨result, m', hResult,
      CellList.gathers_of_subset hMixed (List.subset_append_right _ _) hError⟩

end Exec

/-- The order in which a list is built does not matter.  Cells in another order can be put into one
list if they could before, and the list has the same tag.  Joining three lists gives the list of all
their items if there is one, and an error otherwise, whichever two are joined first. -/
theorem list_building_order_independent :
    (∀ cells cells' : List Cell, cells.Perm cells' →
      (CellList.ofCells cells).toOption.map CellList.element =
        (CellList.ofCells cells').toOption.map CellList.element) ∧
    ∀ (execute : Code → Exec Ending) (m : Machine) (s t u : CellType) (xs ys zs : List Cell),
      ∃ left right m₁ m₂,
        (Exec.concatenate execute (.list s xs) (.list t ys) >>= fun joined =>
          Exec.concatenate execute joined (.list u zs)) m = .ok left m₁ ∧
        (Exec.concatenate execute (.list t ys) (.list u zs) >>= fun joined =>
          Exec.concatenate execute (.list s xs) joined) m = .ok right m₂ ∧
        ((left.isError = true ∧ right.isError = true ∧
            (CellList.ofCells (xs ++ ys ++ zs)).toOption = none) ∨
          ∃ tag, (CellList.ofCells (xs ++ ys ++ zs)).toOption.map CellList.element = some tag ∧
            left = .list tag (xs ++ ys ++ zs) ∧ right = .list tag (xs ++ ys ++ zs)) := by
  refine ⟨fun _ _ => CellList.ofCells_element_perm, fun execute m s t u xs ys zs => ?_⟩
  obtain ⟨left, m₁, hLeft, hGathersLeft⟩ := Exec.concatenate_left execute s t u xs ys zs m
  obtain ⟨right, m₂, hRight, hGathersRight⟩ := Exec.concatenate_right execute s t u xs ys zs m
  refine ⟨left, right, m₁, m₂, hLeft, hRight, ?_⟩
  unfold CellList.Gathers at hGathersLeft hGathersRight
  cases hCells : CellList.ofCells (xs ++ ys ++ zs) with
  | ok l =>
      rw [hCells] at hGathersLeft hGathersRight
      exact Or.inr ⟨l.element, rfl, hGathersLeft, hGathersRight⟩
  | error e =>
      rw [hCells] at hGathersLeft hGathersRight
      exact Or.inl ⟨hGathersLeft, hGathersRight, rfl⟩

/-! ### Lists of numbers in two orders -/

/-- Lists of two kinds of numbers and an empty one, which share a tag that none of them has. -/
def numberLists : List Cell :=
  [ .list .integer [.integer 1], .list .undetermined [],
    .list .rational [.rational (Rational.ofInteger 2)] ]

theorem numberLists_order_independent :
    (CellList.ofCells numberLists).toOption.map CellList.element = some (.list .number) ∧
      (CellList.ofCells numberLists.reverse).toOption.map CellList.element =
        some (.list .number) := by
  have hBuilt : (CellList.ofCells numberLists).toOption.map CellList.element =
      some (.list .number) := rfl
  refine ⟨hBuilt, ?_⟩
  rw [list_building_order_independent.1 _ _ numberLists.reverse_perm, hBuilt]

end CellMachine
