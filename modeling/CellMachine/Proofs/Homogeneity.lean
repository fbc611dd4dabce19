import CellMachine.Cell.Sequence

/-!
# Element tags and their items

Tags are ordered by what they cover: `undetermined` is covered by every tag, the numeric ones by
`number`, and lists by what covers their elements.  Unifying two tags gives a tag that covers both,
so the tag of a list goes on covering the items it had when it takes another one.  Hence every
cell that is built through the operations on lists is well formed: at any depth, the tag of a list
covers all its items, and none of them is a reference.

The order has NO greatest tag: `any` covers only itself and `undetermined`.
-/

namespace CellMachine
namespace CellType

/-- A list with the first tag takes a cell of the second type without changing its tag. -/
def Covers (element t : CellType) : Prop := element.unify t = some element

theorem covers_self (t : CellType) : t.Covers t := unify_self t

theorem covers_undetermined (t : CellType) : t.Covers .undetermined := by
  cases t <;> simp [Covers, unify]

theorem number_covers {t : CellType} (h : t.isNumeric = true) : number.Covers t := by
  cases t <;> simp_all [Covers, unify, isNumeric]

theorem list_covers_list {a b : CellType} : (list a).Covers (list b) ↔ a.Covers b := by
  simp [Covers, unify]

/-- What a tag covers: itself, the undetermined tag, numeric tags if it is `number`, and lists
element by element. -/
theorem Covers.cases {a b : CellType} (h : a.Covers b) :
    b = a ∨ b = .undetermined ∨ (a = .number ∧ b.isNumeric = true) ∨
      ∃ a' b', a = .list a' ∧ b = .list b' ∧ a'.Covers b' := by
  unfold Covers unify at h
  split at h
  · rename_i a' b'
    exact Or.inr (Or.inr (Or.inr ⟨a', b', rfl, rfl, list_covers_list.1 h⟩))
  · split at h
    · rename_i hEq
      exact Or.inl hEq.symm
    · split at h
      · exact Or.inl (Option.some.inj h)
      · split at h
        · rename_i hNone
          exact Or.inr (Or.inl hNone)
        · split at h
          · rename_i hNumeric
            rw [Bool.and_eq_true] at hNumeric
            exact Or.inr (Or.inr (Or.inl ⟨(Option.some.inj h).symm, hNumeric.2⟩))
          · cases h

theorem undetermined_covers {t : CellType} (h : undetermined.Covers t) : t = .undetermined := by
  rcases h.cases with hEq | hNone | ⟨hNumber, -⟩ | ⟨a', b', hList, -⟩
  · exact hEq
  · exact hNone
  · cases hNumber
  · cases hList

theorem Covers.of_number {a : CellType} (h : a.Covers .number) : a = .number := by
  rcases h.cases with hEq | hNone | ⟨hNumber, -⟩ | ⟨a', b', -, hList, -⟩
  · exact hEq.symm
  · cases hNone
  · exact hNumber
  · cases hList

theorem Covers.of_list {a b : CellType} (h : a.Covers (.list b)) :
    ∃ a', a = .list a' ∧ a'.Covers b := by
  rcases h.cases with rfl | hNone | ⟨-, hNumeric⟩ | ⟨a', b', rfl, hList, hInner⟩
  · exact ⟨b, rfl, covers_self b⟩
  · cases hNone
  · cases hNumeric
  · cases hList
    exact ⟨a', rfl, hInner⟩

/-- The recursion goes into the elements of the middle tag. -/
theorem Covers.trans {a b c : CellType} (h : a.Covers b) (h' : b.Covers c) : a.Covers c := by
  rcases h'.cases with rfl | rfl | ⟨rfl, hNumeric⟩ | ⟨b', c', rfl, rfl, hInner'⟩
  · exact h
  · exact covers_undetermined a
  · rw [h.of_number]
    exact number_covers hNumeric
  · obtain ⟨a', rfl, hInner⟩ := h.of_list
    exact list_covers_list.2 (hInner.trans hInner')
termination_by sizeOf b
decreasing_by
  subst_vars
  simp

/-- The unification of two tags covers both. -/
theorem covers_of_unify {a b merged : CellType} (h : a.unify b = some merged) :
    merged.Covers a ∧ merged.Covers b := by
  unfold unify at h
  split at h
  · rename_i a' b'
    obtain ⟨inner, hInner, rfl⟩ := Option.map_eq_some_iff.1 h
    obtain ⟨hLeft, hRight⟩ := covers_of_unify hInner
    exact ⟨list_covers_list.2 hLeft, list_covers_list.2 hRight⟩
  · split at h
    · rename_i hEq
      cases h
      subst hEq
      exact ⟨covers_self _, covers_self _⟩
    · split at h
      · rename_i hNone
        cases h
        subst hNone
        exact ⟨covers_undetermined _, covers_self _⟩
      · split at h
        · rename_i hNone
          cases h
          subst hNone
          exact ⟨covers_self _, covers_undetermined _⟩
        · split at h
          · rename_i hNumeric
            rw [Bool.and_eq_true] at hNumeric
            cases h
            exact ⟨number_covers hNumeric.1, number_covers hNumeric.2⟩
          · cases h
termination_by sizeOf a

theorem absorb_eq_ok_iff {element merged : CellType} {cell : Cell} :
    element.absorb cell = .ok merged ↔
      cell.isReference = false ∧ element.unify cell.type = some merged := by
  unfold absorb
  split
  · simp [Cell.isReference]
  · rename_i hValue
    have hPlain : cell.isReference = false := by
      cases cell with
      | reference name => exact absurd rfl (hValue name)
      | _ => rfl
    rw [hPlain]
    cases element.unify cell.type <;> simp

end CellType

/-! ## Well-formed cells -/

/-- Induction over a cell and the cells in its lists. -/
theorem Cell.induct {P : Cell → Prop} (leaf : ∀ cell, cell.asItems? = none → P cell)
    (list : ∀ element items, (∀ item ∈ items, P item) → P (.list element items)) (cell : Cell) :
    P cell := by
  cases cell with
  | list element items => exact list element items fun item _ => induct leaf list item
  | _ => exact leaf _ rfl
termination_by cell
decreasing_by
  have hSize := List.sizeOf_lt_of_mem ‹_ ∈ items›
  simp
  omega

/-- The tag of every list, at any depth, covers all its items, none of which is a reference. -/
inductive Cell.WellFormed : Cell → Prop
  | leaf {cell : Cell} (h : cell.asItems? = none) : WellFormed cell
  | list {element : CellType} {items : List Cell}
      (hItems : ∀ item ∈ items, item.isReference = false ∧ element.Covers item.type)
      (hInner : ∀ item ∈ items, WellFormed item) : WellFormed (.list element items)

namespace Cell

theorem type_ne_undetermined (cell : Cell) : cell.type ≠ .undetermined := by
  cases cell with
  | stream stream => cases stream <;> simp [type]
  | _ => simp [type]

theorem wellFormed_list_iff {element : CellType} {items : List Cell} :
    (list element items).WellFormed ↔ ∀ item ∈ items,
      item.isReference = false ∧ element.Covers item.type ∧ item.WellFormed := by
  constructor
  · intro h item hItem
    cases h with
    | leaf h => cases h
    | list hItems hInner => exact ⟨(hItems item hItem).1, (hItems item hItem).2, hInner item hItem⟩
  · intro h
    exact .list (fun item hItem => ⟨(h item hItem).1, (h item hItem).2.1⟩)
      fun item hItem => (h item hItem).2.2

theorem wellFormed_nil (element : CellType) : (list element []).WellFormed :=
  wellFormed_list_iff.2 fun _ hItem => by cases hItem

/-- A list that took an item has a tag. -/
theorem WellFormed.element_ne_undetermined {element : CellType} {items : List Cell}
    (h : (Cell.list element items).WellFormed) (hItems : items ≠ []) : element ≠ .undetermined := by
  obtain ⟨item, rest, rfl⟩ := List.exists_cons_of_ne_nil hItems
  obtain ⟨-, hCovers, -⟩ := wellFormed_list_iff.1 h item List.mem_cons_self
  rintro rfl
  exact item.type_ne_undetermined (CellType.undetermined_covers hCovers)

/-- The order of the items and how often each stands in the list do not matter. -/
theorem WellFormed.of_subset {element : CellType} {items items' : List Cell}
    (h : (Cell.list element items).WellFormed) (hItems : items' ⊆ items) :
    (Cell.list element items').WellFormed :=
  wellFormed_list_iff.2 fun item hItem => wellFormed_list_iff.1 h item (hItems hItem)

/-- A list that takes another item has a tag that covers the old one, hence the items that were
there. -/
theorem WellFormed.absorb {element merged : CellType} {items : List Cell} {cell : Cell}
    (h : (Cell.list element items).WellFormed) (hCell : cell.WellFormed)
    (hAbsorb : element.absorb cell = .ok merged) :
    (Cell.list merged (cell :: items)).WellFormed := by
  obtain ⟨hValue, hUnify⟩ := CellType.absorb_eq_ok_iff.1 hAbsorb
  obtain ⟨hOld, hNew⟩ := CellType.covers_of_unify hUnify
  refine wellFormed_list_iff.2 (List.forall_mem_cons.2 ⟨⟨hValue, hNew, hCell⟩, ?_⟩)
  intro item hItem
  obtain ⟨hPlain, hCovers, hInner⟩ := wellFormed_list_iff.1 h item hItem
  exact ⟨hPlain, hOld.trans hCovers, hInner⟩

/-- A list that takes several more items. -/
theorem WellFormed.absorbAll {element merged : CellType} {items cells : List Cell}
    (h : (Cell.list element items).WellFormed) (hCells : ∀ cell ∈ cells, cell.WellFormed)
    (hAbsorb : element.absorbAll cells = .ok merged) :
    (Cell.list merged (cells ++ items)).WellFormed := by
  induction cells generalizing element items with
  | nil =>
      cases hAbsorb
      exact h
  | cons cell rest ih =>
      rw [List.forall_mem_cons] at hCells
      rw [CellType.absorbAll] at hAbsorb
      split at hAbsorb
      · rename_i hFirst
        have hRest := ih (h.absorb hCells.1 hFirst) hCells.2 hAbsorb
        exact hRest.of_subset List.perm_middle.symm.subset
      · cases hAbsorb

end Cell

/-! ## Cells that are built -/

mutual

/-- The cell is made by the constructors of cells, lists only through the operations on them. -/
inductive Cell.Built : Cell → Prop
  | leaf {cell : Cell} (h : cell.asItems? = none) : Cell.Built cell
  | list {l : CellList} (h : CellList.Built l) : Cell.Built l.toCell

/-- The list starts empty with some tag, and takes cells that are built or a tag in place of the
undetermined one. -/
inductive CellList.Built : CellList → Prop
  | start (element : CellType) : CellList.Built ⟨element, []⟩
  | insert {l l' : CellList} {cell : Cell} {index : Nat} (h : CellList.Built l)
      (hCell : Cell.Built cell) (hInsert : l.insert index cell = .ok l') : CellList.Built l'
  | push {l l' : CellList} {cell : Cell} (h : CellList.Built l) (hCell : Cell.Built cell)
      (hPush : l.push cell = .ok l') : CellList.Built l'
  | adopt {l l' : CellList} {element : CellType} (h : CellList.Built l)
      (hAdopt : l.adopt element = some l') : CellList.Built l'

end

namespace CellList

/-- What an accepted insertion does. -/
theorem insert_eq_ok {l l' : CellList} {index : Nat} {cell : Cell}
    (h : l.insert index cell = .ok l') :
    index ≤ l.items.length ∧ l.element.absorb cell = .ok l'.element ∧
      l'.items = l.items.insertIdx index cell := by
  unfold insert at h
  split at h
  · cases h
  · split at h
    · cases h
    · rename_i hIndex
      split at h
      · rename_i merged hMerged
        cases h
        exact ⟨by omega, hMerged, rfl⟩
      · cases h

theorem insert_wellFormed {l l' : CellList} {index : Nat} {cell : Cell}
    (h : l.toCell.WellFormed) (hCell : cell.WellFormed) (hInsert : l.insert index cell = .ok l') :
    l'.toCell.WellFormed := by
  obtain ⟨hIndex, hAbsorb, hItems⟩ := insert_eq_ok hInsert
  refine (Cell.WellFormed.absorb h hCell hAbsorb).of_subset fun item hItem => ?_
  rw [hItems, List.mem_insertIdx hIndex] at hItem
  exact List.mem_cons.2 hItem

theorem build_wellFormed {element : CellType} {cells : List Cell} {l : CellList}
    (hCells : ∀ cell ∈ cells, cell.WellFormed) (h : build element cells = .ok l) :
    l.toCell.WellFormed := by
  unfold build at h
  split at h
  · rename_i merged hAbsorb
    cases h
    have hList := (Cell.wellFormed_nil element).absorbAll hCells hAbsorb
    rw [List.append_nil] at hList
    exact hList
  · cases h

/-- Only a list without items can take a tag. -/
theorem adopt_wellFormed {l l' : CellList} {element : CellType} (h : l.toCell.WellFormed)
    (hAdopt : l.adopt element = some l') : l'.toCell.WellFormed := by
  unfold adopt at hAdopt
  split at hAdopt
  · rename_i hNone
    cases hAdopt
    have hEmpty : l.items = [] := Classical.byContradiction fun hItems =>
      h.element_ne_undetermined hItems hNone
    refine Cell.wellFormed_list_iff.2 fun item hItem => ?_
    rw [hEmpty] at hItem
    cases hItem
  · cases hAdopt

end CellList

mutual

/-- Every cell that is built is well formed. -/
theorem Cell.Built.wellFormed {cell : Cell} : cell.Built → cell.WellFormed
  | .leaf h => .leaf h
  | .list h => CellList.Built.wellFormed h

theorem CellList.Built.wellFormed {l : CellList} : CellList.Built l → l.toCell.WellFormed
  | .start element => Cell.wellFormed_nil element
  | .insert h hCell hInsert =>
      CellList.insert_wellFormed (CellList.Built.wellFormed h) (Cell.Built.wellFormed hCell) hInsert
  | .push h hCell hPush =>
      CellList.insert_wellFormed (CellList.Built.wellFormed h) (Cell.Built.wellFormed hCell) hPush
  | .adopt h hAdopt => CellList.adopt_wellFormed (CellList.Built.wellFormed h) hAdopt

end

end CellMachine
