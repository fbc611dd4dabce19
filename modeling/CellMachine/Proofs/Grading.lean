import CellMachine.Proofs.Dispatch
import CellMachine.Proofs.TreeZip

/-!
# Operands of equal depth

The tag of a list covers its items, so the items are equally deep as far as there are any: the type
of each is that of scalars inside of one number of lists, where an empty list may stand for deeper
ones.  Main statement: when operands are paired, the rows are all one level less deep than the
operands (`Graded.row`).

Scalars are of one of the types `NUMBER`, `INTEGER` and `BOOLEAN`.  For a parameter of type `ANY`
the depth would NOT be determined, since it accepts lists as they are.
-/

namespace CellMachine

/-! ## Tags -/

namespace CellType

/-- A tag inside of the given number of list tags. -/
def nest : Nat → CellType → CellType
  | 0, t => t
  | depth + 1, t => list (nest depth t)

theorem undetermined_unify (t : CellType) : undetermined.unify t = some t := by
  cases t <;> simp [unify]

theorem unify_number {t : CellType} (h : t.isNumeric = true) : t.unify number = some number := by
  cases t <;> simp_all [unify, isNumeric]

theorem Covers.unify_cover {cover t : CellType} (h : cover.Covers t) :
    t.unify cover = some cover := by
  rcases h.cases with rfl | rfl | ⟨rfl, hNumeric⟩ | ⟨cover', t', rfl, rfl, h'⟩
  · exact unify_self _
  · exact undetermined_unify cover
  · exact unify_number hNumeric
  · simp [unify, h'.unify_cover]
termination_by sizeOf cover
decreasing_by
  subst_vars
  simp

theorem unify_of_isNumeric {a b : CellType} (ha : a.isNumeric = true) (hb : b.isNumeric = true) :
    a.unify b = some (if a = b then a else number) := by
  cases a <;> simp_all [unify, isNumeric] <;> cases b <;> simp_all

/-- Tags that are covered by one tag can be merged, and the merged tag is covered too. -/
theorem Covers.unify {cover a b : CellType} (ha : cover.Covers a) (hb : cover.Covers b) :
    ∃ merged, a.unify b = some merged ∧ cover.Covers merged := by
  rcases ha.cases with rfl | rfl | ⟨rfl, hNumeric⟩ | ⟨cover', a', rfl, rfl, ha'⟩
  · exact ⟨_, hb, covers_self _⟩
  · exact ⟨b, undetermined_unify b, hb⟩
  · rcases hb.cases with rfl | rfl | ⟨-, hNumeric'⟩ | ⟨cover', b', hList, -⟩
    · exact ⟨_, ha.unify_cover, covers_self _⟩
    · exact ⟨a, covers_undetermined a, ha⟩
    · refine ⟨_, unify_of_isNumeric hNumeric hNumeric', ?_⟩
      split
      · exact ha
      · exact covers_self _
    · cases hList
  · rcases hb.cases with rfl | rfl | ⟨hNumber, -⟩ | ⟨_, b', hList, rfl, hb'⟩
    · exact ⟨_, ha.unify_cover, covers_self _⟩
    · exact ⟨_, covers_undetermined _, ha⟩
    · cases hNumber
    · cases hList
      obtain ⟨merged, hMerged, hCovers⟩ := Covers.unify ha' hb'
      exact ⟨list merged, by simp [CellType.unify, hMerged], list_covers_list.2 hCovers⟩
termination_by sizeOf cover
decreasing_by
  subst_vars
  simp

/-- Values whose types are covered by one tag can be put into one list. -/
theorem Covers.absorbAll {cover element : CellType} {cells : List Cell}
    (hElement : cover.Covers element)
    (hCells : ∀ cell ∈ cells, cell.isReference = false ∧ cover.Covers cell.type) :
    ∃ merged, element.absorbAll cells = .ok merged ∧ cover.Covers merged := by
  induction cells generalizing element with
  | nil => exact ⟨element, rfl, hElement⟩
  | cons cell rest ih =>
      rw [List.forall_mem_cons] at hCells
      obtain ⟨merged, hMerged, hCovers⟩ := hElement.unify hCells.1.2
      obtain ⟨last, hLast, hCoversLast⟩ := ih hCovers hCells.2
      refine ⟨last, ?_, hCoversLast⟩
      rw [CellType.absorbAll, absorb_eq_ok_iff.2 ⟨hCells.1.1, hMerged⟩]
      exact hLast

/-- The types of single values that parameters of the operations on scalars have. -/
def isScalar : CellType → Bool
  | number | integer | boolean => true
  | _ => false

variable {base t element : CellType} {depth : Nat}

theorem covers_iff_accepts (hBase : base.isScalar = true) :
    base.Covers t ↔ t = undetermined ∨ base.accepts t = true := by
  cases base with
  | number => cases t <;> simp [Covers, CellType.unify, accepts, isNumeric]
  | integer => cases t <;> simp [Covers, CellType.unify, accepts, isNumeric]
  | boolean => cases t <;> simp [Covers, CellType.unify, accepts, isNumeric]
  | _ => cases hBase

theorem not_accepts_list (hBase : base.isScalar = true) : base.accepts (list element) = false := by
  cases base with
  | number | integer | boolean => rfl
  | _ => cases hBase

theorem nest_covers_list_iff (hBase : base.isScalar = true) :
    (nest depth base).Covers (list element) ↔
      ∃ depth', depth = depth' + 1 ∧ (nest depth' base).Covers element := by
  cases depth with
  | zero => simp [nest, covers_iff_accepts hBase, not_accepts_list hBase]
  | succ depth => simp [nest, list_covers_list]

/-- A type other than a list type is at depth zero. -/
theorem nest_covers_plain (hPlain : ∀ element, t ≠ list element) (hType : t ≠ undetermined)
    (h : (nest depth base).Covers t) : depth = 0 := by
  cases depth with
  | zero => rfl
  | succ depth =>
      rcases h.cases with rfl | rfl | ⟨hNumber, -⟩ | ⟨_, element, -, rfl, -⟩
      · exact absurd rfl (hPlain _)
      · exact absurd rfl hType
      · cases hNumber
      · exact absurd rfl (hPlain _)

/-- A scalar type takes lists apart exactly at the types that are covered at some depth. -/
theorem acceptsElements_iff_covers (hBase : base.isScalar = true) :
    base.acceptsElements (list element) = true ↔
      ∃ depth, (nest depth base).Covers element := by
  rw [acceptsElements_list_iff]
  induction element with
  | list element ih =>
      rw [acceptsElements_list_iff, ih, not_accepts_list hBase]
      simp only [reduceCtorEq, Bool.false_eq_true, false_or, nest_covers_list_iff hBase]
      exact ⟨fun ⟨depth, h⟩ => ⟨depth + 1, depth, rfl, h⟩, fun ⟨_, depth, _, h⟩ => ⟨depth, h⟩⟩
  | undetermined => exact iff_of_true (Or.inl rfl) ⟨0, covers_undetermined base⟩
  | _ =>
      constructor
      · rintro (hNone | hAccepts | hElements)
        · cases hNone
        · exact ⟨0, (covers_iff_accepts hBase).2 (Or.inr hAccepts)⟩
        · cases hElements
      · rintro ⟨depth, h⟩
        have hDepth := nest_covers_plain (by simp) (by simp) h
        subst hDepth
        exact ((covers_iff_accepts hBase).1 h).imp_right Or.inl

end CellType

/-! ## Cells and rows -/

namespace Cell

variable {base : CellType} {depth : Nat} {cell : Cell}

theorem isList_iff : cell.isList = true ↔ ∃ element items, cell = list element items := by
  cases cell <;> simp [isList, asItems?]

theorem type_ne_list (h : cell.isList = false) (element : CellType) :
    cell.type ≠ .list element := by
  cases cell with
  | list element items => cases h
  | stream stream => cases stream <;> simp [type]
  | _ => simp [type]

/-- The cell is well formed, and its type is that of scalars inside of as many lists. -/
structure AtDepth (base : CellType) (depth : Nat) (cell : Cell) : Prop where
  wellFormed : cell.WellFormed
  covers : (base.nest depth).Covers cell.type

/-- A cell that is no list is a scalar. -/
theorem AtDepth.scalar (hBase : base.isScalar = true) (h : cell.AtDepth base depth)
    (hPlain : cell.isList = false) : depth = 0 ∧ base.accepts cell.type = true := by
  have hDepth : depth = 0 :=
    CellType.nest_covers_plain (type_ne_list hPlain) cell.type_ne_undetermined h.covers
  subst hDepth
  exact ⟨rfl, ((CellType.covers_iff_accepts hBase).1 h.covers).resolve_left
    cell.type_ne_undetermined⟩

/-- The items of a list are one level less deep. -/
theorem AtDepth.item (hBase : base.isScalar = true) {element : CellType} {items : List Cell}
    (h : (list element items).AtDepth base depth) :
    ∃ depth', depth = depth' + 1 ∧ ∀ item ∈ items, item.AtDepth base depth' := by
  obtain ⟨depth', hDepth, hCovers⟩ := (CellType.nest_covers_list_iff hBase).1 h.covers
  refine ⟨depth', hDepth, fun item hItem => ?_⟩
  obtain ⟨-, hItemCovers, hItemFormed⟩ := wellFormed_list_iff.1 h.wellFormed item hItem
  exact ⟨hItemFormed, hCovers.trans hItemCovers⟩

end Cell

/-- What is taken for a parameter of a scalar type is a scalar, or a list at some depth. -/
theorem Param.Binds.exists_atDepth {base : CellType} (hBase : base.isScalar = true) {name : String}
    {listable : Bool} {cell : Cell} (h : (Param.byValue name base).Binds listable cell) :
    ∃ depth, cell.AtDepth base depth := by
  have hScalar (hAccepts : base.accepts cell.type = true) : ∃ depth, cell.AtDepth base depth := by
    refine ⟨0, .leaf ?_, (CellType.covers_iff_accepts hBase).2 (Or.inr hAccepts)⟩
    cases cell with
    | list element items =>
        rw [Cell.type, CellType.not_accepts_list hBase] at hAccepts
        cases hAccepts
    | _ => rfl
  rcases h with (⟨hByRef, -⟩ | ⟨-, -, hAccepts⟩ | hDefault) | ⟨-, -, -, hFormed, hBroadcast⟩
  · cases hByRef
  · exact hScalar hAccepts
  · cases hDefault
  · rw [Param.acceptsBroadcast, Bool.or_eq_true] at hBroadcast
    rcases hBroadcast with hAccepts | hElements
    · exact hScalar hAccepts
    · cases cell with
      | list element items =>
          obtain ⟨depth, hCovers⟩ := (CellType.acceptsElements_iff_covers hBase).1 hElements
          exact ⟨depth + 1, hFormed, CellType.list_covers_list.2 hCovers⟩
      | stream stream => cases stream <;> cases hElements
      | _ => cases hElements

namespace TreeZip

variable {base : CellType} {depth : Nat} {cells : List Cell}

/-- Operands of at most the given depth, one of which has it. -/
structure Graded (base : CellType) (depth : Nat) (cells : List Cell) : Prop where
  within : ∀ cell ∈ cells, ∃ depth' ≤ depth, cell.AtDepth base depth'
  reached : ∃ cell ∈ cells, cell.AtDepth base depth

/-- Operands that are each at some depth have a greatest depth. -/
theorem exists_graded (h : ∀ cell ∈ cells, ∃ depth, cell.AtDepth base depth) (hSome : cells ≠ []) :
    ∃ depth, Graded base depth cells := by
  induction cells with
  | nil => exact absurd rfl hSome
  | cons cell rest ih =>
      rw [List.forall_mem_cons] at h
      obtain ⟨depth, hDepth⟩ := h.1
      cases rest with
      | nil =>
          have hWithin : ∃ depth' ≤ depth, cell.AtDepth base depth' :=
            ⟨depth, Nat.le_refl depth, hDepth⟩
          exact ⟨depth, List.forall_mem_singleton.2 hWithin, cell, List.mem_cons_self, hDepth⟩
      | cons next more =>
          obtain ⟨deepest, hWithin, reached, hMem, hReached⟩ := ih h.2 (by simp)
          refine ⟨max depth deepest, List.forall_mem_cons.2 ⟨⟨depth, by omega, hDepth⟩, ?_⟩, ?_⟩
          · exact fun operand hOperand =>
              (hWithin operand hOperand).imp fun _ hAt => ⟨by omega, hAt.2⟩
          · rcases Nat.le_total depth deepest with hLe | hLe
            · rw [Nat.max_eq_right hLe]
              exact ⟨reached, List.mem_cons_of_mem _ hMem, hReached⟩
            · rw [Nat.max_eq_left hLe]
              exact ⟨cell, List.mem_cons_self, hDepth⟩

theorem Graded.any_isList (hBase : base.isScalar = true) (h : Graded base (depth + 1) cells) :
    cells.any Cell.isList = true := by
  obtain ⟨cell, hMem, hDepth⟩ := h.reached
  refine List.any_eq_true.2 ⟨cell, hMem, ?_⟩
  cases hList : cell.isList with
  | true => rfl
  | false => cases (hDepth.scalar hBase hList).1

/-- At depth zero all operands are scalars. -/
theorem Graded.scalars (hBase : base.isScalar = true) (h : Graded base 0 cells) :
    cells.any Cell.isList = false ∧ ∀ cell ∈ cells, base.accepts cell.type = true := by
  have hPlain (cell : Cell) (hMem : cell ∈ cells) : cell.isList = false := by
    obtain ⟨depth', hLe, hDepth⟩ := h.within cell hMem
    cases hList : cell.isList with
    | false => rfl
    | true =>
        obtain ⟨element, items, rfl⟩ := Cell.isList_iff.1 hList
        obtain ⟨inner, hInner, -⟩ := hDepth.item hBase
        omega
  refine ⟨by simpa [List.any_eq_false] using hPlain, fun cell hMem => ?_⟩
  obtain ⟨depth', -, hDepth⟩ := h.within cell hMem
  exact (hDepth.scalar hBase (hPlain cell hMem)).2

theorem length_of_isLevel (h : isLevel cells = true) {element : CellType} {items : List Cell}
    (hMem : .list element items ∈ cells) : items.length = width cells := by
  have hLength : items.length ∈ lengths cells := List.mem_filterMap.2 ⟨_, hMem, rfl⟩
  simpa using List.all_eq_true.1 h _ hLength

/-- The operands of one pairing are one level less deep than the ones they are taken from. -/
theorem Graded.row (hBase : base.isScalar = true) (h : Graded base (depth + 1) cells)
    (hLevel : isLevel cells = true) {row : List Cell} (hRow : row ∈ rows cells) :
    Graded base depth row := by
  obtain ⟨index, hIndex, rfl⟩ := List.mem_map.1 hRow
  rw [List.mem_range] at hIndex
  have hItem {element : CellType} {items : List Cell} (hMem : .list element items ∈ cells) :
      ∃ item ∈ items, Cell.part index (.list element items) = item := by
    have hLength : index < items.length := by rwa [length_of_isLevel hLevel hMem]
    exact ⟨items[index], List.getElem_mem hLength, by simp [Cell.part, hLength]⟩
  constructor
  · intro part hPart
    obtain ⟨cell, hMem, rfl⟩ := List.mem_map.1 hPart
    obtain ⟨depth', hLe, hDepth⟩ := h.within cell hMem
    cases hList : cell.isList with
    | true =>
        obtain ⟨element, items, rfl⟩ := Cell.isList_iff.1 hList
        obtain ⟨inner, hInner, hItems⟩ := hDepth.item hBase
        obtain ⟨item, hItemMem, hItemEq⟩ := hItem hMem
        rw [hItemEq]
        exact ⟨inner, by omega, hItems item hItemMem⟩
    | false =>
        have hWhole : Cell.part index cell = cell := by
          cases cell with
          | list element items => cases hList
          | _ => rfl
        rw [hWhole]
        exact ⟨depth', by have := (hDepth.scalar hBase hList).1; omega, hDepth⟩
  · -- The operand that reaches the depth is a list, and its share reaches one level less.
    obtain ⟨cell, hMem, hDepth⟩ := h.reached
    have hList : cell.isList = true := by
      cases hList : cell.isList with
      | true => rfl
      | false => cases (hDepth.scalar hBase hList).1
    obtain ⟨element, items, rfl⟩ := Cell.isList_iff.1 hList
    obtain ⟨inner, hInner, hItems⟩ := hDepth.item hBase
    obtain ⟨item, hItemMem, hItemEq⟩ := hItem hMem
    obtain rfl : depth = inner := by omega
    exact ⟨_, List.mem_map_of_mem hMem, hItemEq ▸ hItems item hItemMem⟩

/-- A value at some depth is neither a reference nor an error. -/
theorem value_of_covers {kind : CellType} (hKind : kind.isScalar = true) {cell : Cell}
    (h : (kind.nest depth).Covers cell.type) : cell.isReference = false ∧ cell.isError = false := by
  have hPlain (t : CellType) (ht : cell.type = t) (hList : ∀ element, t ≠ .list element)
      (hAccepts : kind.accepts t = false) : False := by
    have hType := cell.type_ne_undetermined
    rw [ht] at h hType
    have hDepth := CellType.nest_covers_plain hList hType h
    subst hDepth
    have hCovers := ((CellType.covers_iff_accepts hKind).1 h).resolve_left hType
    rw [hAccepts] at hCovers
    cases hCovers
  cases cell with
  | reference name =>
      exact (hPlain .reference rfl (by simp) (by cases kind <;> first | rfl | cases hKind)).elim
  | error message =>
      exact (hPlain .error rfl (by simp) (by cases kind <;> first | rfl | cases hKind)).elim
  | _ => exact ⟨rfl, rfl⟩

end TreeZip
end CellMachine
