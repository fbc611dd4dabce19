import CellMachine.Proofs.Grading

/-!
# Element-wise application as a zip of trees

Main statement: invoking an operation on scalars of one type performs the events of its operands up
to the first that fails and gives back their outcome (`invokeWithin_eq`).  So its errors are those
of the operation and the mismatch of lengths (`message_of_outcome`), and the results of an operation
on one operand are nested as the operand is (`shape_zip`).

Collecting the results needs them to share a tag.  They do because the operands of one row are as
deep as those of any other; for an operation whose results are of different kinds it would NOT hold.
-/

namespace CellMachine

/-! ## What is taken apart -/

namespace TreeZip

variable {base : CellType} {depth : Nat} {cells : List Cell}

/-- A parameter of a scalar type takes apart exactly the lists. -/
theorem spreads_eq_isList (hBase : base.isScalar = true) (name : String) {cell : Cell}
    (h : cell.AtDepth base depth) : (Param.byValue name base).spreads cell = cell.isList := by
  have hAccepts : (Param.byValue name base).accepts cell = base.accepts cell.type := rfl
  unfold Param.spreads Param.acceptsBroadcast
  rw [hAccepts]
  cases hList : cell.isList with
  | false => simp [(h.scalar hBase hList).2]
  | true =>
      obtain ⟨element, items, rfl⟩ := Cell.isList_iff.1 hList
      obtain ⟨inner, -, hCovers⟩ := (CellType.nest_covers_list_iff hBase).1 h.covers
      have hElements : base.acceptsElements (.list element) = true :=
        (CellType.acceptsElements_iff_covers hBase).2 ⟨inner, hCovers⟩
      simp [Cell.type, CellType.not_accepts_list hBase, hElements, Param.byValue]

/-- A cell with whether it is a list. -/
def spreadOf (cell : Cell) : Spread := ⟨cell.isList, cell⟩

theorem zipWith_ofParam_eq (hBase : base.isScalar = true) {params : List Param}
    (hParams : ∀ p ∈ params, p = .byValue p.name base) (hLength : cells.length = params.length)
    (h : ∀ cell ∈ cells, ∃ depth, cell.AtDepth base depth) :
    List.zipWith Spread.ofParam params cells = cells.map spreadOf := by
  induction params generalizing cells with
  | nil => simp [List.eq_nil_of_length_eq_zero hLength]
  | cons p params ih =>
      cases cells with
      | nil => rfl
      | cons cell cells =>
          rw [List.forall_mem_cons] at hParams h
          obtain ⟨depth, hDepth⟩ := h.1
          have hFirst : Spread.ofParam p cell = spreadOf cell := by
            rw [hParams.1, Spread.ofParam, spreads_eq_isList hBase p.name hDepth, spreadOf]
          rw [List.zipWith_cons_cons, List.map_cons, hFirst,
            ih hParams.2 (by simpa using hLength) h.2]

theorem lengths_eq (cells : List Cell) :
    ((cells.map spreadOf).filter Spread.apart).map Spread.length = lengths cells := by
  induction cells with
  | nil => rfl
  | cons cell rest ih =>
      cases cell with
      | list element items =>
          simp only [lengths] at ih
          simp [spreadOf, Cell.isList, Cell.asItems?, lengths, Spread.length, ih]
      | _ => simpa [spreadOf, Cell.isList, Cell.asItems?, lengths] using ih

theorem commonLength_eq (cells : List Cell) :
    Spread.commonLength (cells.map spreadOf) =
      if isLevel cells then some (width cells) else none := by
  unfold Spread.commonLength isLevel width
  rw [lengths_eq]
  cases lengths cells <;> simp

theorem rows_eq (cells : List Cell) :
    Spread.rows (cells.map spreadOf) (width cells) = rows cells := by
  have hElement (index : Nat) (cell : Cell) :
      Spread.element index (spreadOf cell) = cell.part index := by
    cases cell <;> rfl
  simp [Spread.rows, rows, Cell.parts, List.map_map, Function.comp_def, hElement]

/-! ## Collecting results -/

variable {f : List Cell → Cell} {name : String}

/-- Collecting the outcomes of rows performs the events of all of them up to the first that fails.
The results can share a list because one tag covers them all. -/
theorem collect_eq {inner : List Cell → Exec Cell} {visit : List Cell → Exec Unit}
    {cover element : CellType} {rows : List (List Cell)} (done : List Cell)
    (hElement : cover.Covers element)
    (hInner : ∀ row ∈ rows, inner row =
      (perform visit name (happening f name (events row)) >>= fun _ =>
        pure (outcome f name row)))
    (hRows : ∀ row ∈ rows, failure? f name (events row) = none →
      (zip f row).isReference = false ∧ (zip f row).isError = false ∧
        cover.Covers (zip f row).type) :
    Exec.collect inner element done rows =
      (perform visit name (happening f name (rows.flatMap events)) >>= fun _ =>
        pure (settled (gathered element done.reverse (rows.map (zip f)))
          (failure? f name (rows.flatMap events)))) := by
  induction rows generalizing element done with
  | nil => simp [Exec.collect, happening, perform, failure?, gathered, CellType.absorbAll]
  | cons row rest ih =>
      rw [List.forall_mem_cons] at hInner hRows
      rw [Exec.collect, hInner.1, List.flatMap_cons, bind_assoc, failure?_append]
      simp only [pure_bind]
      cases hRow : failure? f name (events row) with
      | some message =>
          simp [happening_append_of_some hRow, outcome, hRow, Cell.isError]
      | none =>
          -- The result of the row joins the list, whose tag stays covered, and the rest follows.
          obtain ⟨hValue, hError, hCovers⟩ := hRows.1 hRow
          obtain ⟨merged, hMerged, hCover⟩ := hElement.unify hCovers
          have hAbsorb := CellType.absorb_eq_ok_iff.2 ⟨hValue, hMerged⟩
          have hWhole := happening_append_of_none hRow ([] : List Event)
          simp only [List.append_nil, happening] at hWhole
          rw [happening_append_of_none hRow, perform_append, bind_assoc, hWhole]
          congr 1
          funext _
          simp only [outcome, settled_none, hRow, hError, hAbsorb, Bool.false_eq_true, if_false,
            Option.none_or]
          rw [ih _ hCover hInner.2 hRows.2]
          simp [gathered, CellType.absorbAll, hAbsorb]

end TreeZip

/-! ## Operations on scalars -/

/-- The result that the native body of an overload computes without asking the machine for
anything. -/
def Overload.scalar (o : Overload) (operands : List Cell) : Cell :=
  match o.body with
  | .native resolve =>
    match resolve (Args.ofCells operands) with
    | .done result _ => result
    | _ => .null .undetermined
  | .user _ => .null .undetermined

/-- The overload computes a scalar of type `kind` from scalars of type `base`, or gives one of the
listed errors, and is applied to lists element by element. -/
structure Overload.Operates (base kind : CellType) (errors : List String) (o : Overload) :
    Prop where
  operand : base.isScalar = true
  value : kind.isScalar = true
  params : ∀ p ∈ o.signature.params, p = .byValue p.name base
  arity_pos : 0 < o.signature.arity
  flags : o.signature.flags = ⟨true, false⟩
  body : ∀ execute args, Exec.runBody execute o args = pure (o.scalar args.cells, args)
  result : ∀ operands, operands.length = o.signature.arity →
    (∀ cell ∈ operands, base.accepts cell.type = true) →
    kind.accepts (o.scalar operands).type = true ∨
      ∃ message ∈ errors, o.scalar operands = .error message

namespace TreeZip

variable {base kind : CellType} {errors : List String} {o : Overload} {depth : Nat}
  {cells : List Cell} {name : String}

/-- Results of which one tag covers all are collected into one list. -/
theorem zip_eq_list (hKind : kind.isScalar = true) {f : List Cell → Cell}
    (hList : cells.any Cell.isList = true)
    (hRows : ∀ row ∈ rows cells, (kind.nest depth).Covers (zip f row).type) :
    ∃ element, (kind.nest depth).Covers element ∧
      zip f cells = .list element ((rows cells).map (zip f)) := by
  have hResults : ∀ result ∈ (rows cells).map (zip f),
      result.isReference = false ∧ (kind.nest depth).Covers result.type := by
    intro result hResult
    obtain ⟨row, hRow, rfl⟩ := List.mem_map.1 hResult
    exact ⟨(value_of_covers hKind (hRows row hRow)).1, hRows row hRow⟩
  obtain ⟨merged, hMerged, hCovers⟩ :=
    (CellType.covers_undetermined (kind.nest depth)).absorbAll hResults
  refine ⟨merged, hCovers, ?_⟩
  rw [zip_of_list hList, collected_eq, gathered, hMerged]
  rfl

/-- The tree of the results is as deep as the deepest operand. -/
theorem zip_covers (ho : o.Operates base kind errors) (h : Graded base depth cells)
    (hLength : cells.length = o.signature.arity)
    (hNone : failure? o.scalar name (events cells) = none) :
    (kind.nest depth).Covers (zip o.scalar cells).type := by
  induction depth generalizing cells with
  | zero =>
      obtain ⟨hPlain, hAccepts⟩ := h.scalars ho.operand
      rw [events_of_scalars hPlain] at hNone
      rw [zip_of_scalars hPlain]
      rcases ho.result cells hLength hAccepts with hType | ⟨message, -, hError⟩
      · exact (CellType.covers_iff_accepts ho.value).2 (Or.inr hType)
      · simp [failure?, Event.error?, hError] at hNone
  | succ depth ih =>
      have hList := h.any_isList ho.operand
      obtain ⟨hLevel, hRows⟩ := failure?_rows hList hNone
      obtain ⟨element, hCovers, hZip⟩ := zip_eq_list ho.value hList fun row hRow =>
        ih (h.row ho.operand hLevel hRow) ((length_of_mem_rows hRow).trans hLength) (hRows row hRow)
      rw [hZip]
      exact CellType.list_covers_list.2 hCovers

theorem ofArgs_eq (ho : o.Operates base kind errors) {args : Args}
    (h : Graded base depth args.cells) (hLength : args.cells.length = o.signature.arity) :
    Spread.ofArgs o.signature args = args.cells.map spreadOf :=
  zipWith_ofParam_eq ho.operand ho.params hLength fun cell hMem =>
    (h.within cell hMem).imp fun _ hDepth => hDepth.2

theorem needsBroadcast_eq (ho : o.Operates base kind errors) {args : Args}
    (h : Graded base depth args.cells) (hLength : args.cells.length = o.signature.arity) :
    needsBroadcast o.signature args = args.cells.any Cell.isList := by
  simp [needsBroadcast, ofArgs_eq ho h hLength, spreadOf, Function.comp_def]

/-- Invoking an operation on scalars performs the events of its operands up to the first that fails
and gives back their outcome.  The induction is on the depth of the operands: the rows of one level
are all one level less deep, so one tag covers their results. -/
theorem invokeWithin_eq (ho : o.Operates base kind errors) (execute : Code → Exec Ending)
    (visit : List Cell → Exec Unit) {args : Args} (h : Graded base depth args.cells)
    (hLength : args.cells.length = o.signature.arity) {levels : Nat}
    (hLevels : Cell.heights args.cells ≤ levels) :
    Exec.invokeWithin (fun args => do visit args.cells; Exec.runBody execute o args) o.signature
        levels args =
      (perform visit o.signature.name
          (happening o.scalar o.signature.name (events args.cells)) >>= fun _ =>
        pure (outcome o.scalar o.signature.name args.cells, args)) := by
  induction depth generalizing args levels with
  | zero =>
      obtain ⟨hPlain, -⟩ := h.scalars ho.operand
      have hNeeds := needsBroadcast_eq ho h hLength
      have hScalars := of_scalars o.scalar o.signature.name hPlain
      rw [Exec.invokeWithin.eq_def, hScalars.1, hScalars.2]
      simp [ho.flags, hNeeds, hPlain, ho.body, perform, Event.perform]
  | succ depth ih =>
      have hList := h.any_isList ho.operand
      have hNeeds := needsBroadcast_eq ho h hLength
      have hPos := Cell.heights_pos hList
      obtain ⟨levels, rfl⟩ : ∃ below, levels = below + 1 := ⟨levels - 1, by omega⟩
      rw [Exec.invokeWithin.eq_def]
      simp only [ho.flags, hNeeds, hList, Bool.false_and, Bool.and_true, Bool.false_eq_true,
        if_false, if_true, Exec.broadcast, ofArgs_eq ho h hLength, commonLength_eq]
      cases hLevel : isLevel args.cells with
      | false =>
          have hMismatch := of_mismatch o.scalar o.signature.name hList hLevel
          rw [hMismatch.1, hMismatch.2]
          simp [Exec.failWith, perform, Event.perform]
      | true =>
          have hInner : ∀ row ∈ rows args.cells, (do
              return (← Exec.invokeWithin
                (fun args => do visit args.cells; Exec.runBody execute o args) o.signature levels
                (Args.ofCells row)).1) =
              (perform visit o.signature.name
                  (happening o.scalar o.signature.name (events row)) >>= fun _ =>
                pure (outcome o.scalar o.signature.name row)) := by
            intro row hRow
            have hGraded := h.row ho.operand hLevel hRow
            have hRowLength := (length_of_mem_rows hRow).trans hLength
            obtain ⟨index, -, rfl⟩ := List.mem_map.1 hRow
            have hHeights := Cell.heights_parts index args.cells
            rw [ih (by simpa using hGraded) (by simpa using hRowLength)
              (by simp only [Args.cells_ofCells]; omega)]
            simp
          have hCollect := collect_eq [] (CellType.covers_undetermined (kind.nest depth)) hInner
            fun row hRow hNone => ?_
          · simp only [if_true, rows_eq, hCollect]
            rw [events_of_list hList hLevel, outcome, events_of_list hList hLevel,
              zip_of_list hList, collected_eq]
            simp
          · have hCovers := zip_covers ho (h.row ho.operand hLevel hRow)
              ((length_of_mem_rows hRow).trans hLength) hNone
            have hValue := value_of_covers ho.value hCovers
            exact ⟨hValue.1, hValue.2, hCovers⟩

/-! ## What can go wrong -/

theorem error?_of_mem_events (ho : o.Operates base kind errors) (h : Graded base depth cells)
    (hLength : cells.length = o.signature.arity) {event : Event} (hEvent : event ∈ events cells)
    {message : String} (hError : event.error? o.scalar name = some message) :
    message ∈ errors ∨ message = (Diagnostic.listLengthMismatch name).message := by
  induction depth generalizing cells with
  | zero =>
      obtain ⟨hPlain, hAccepts⟩ := h.scalars ho.operand
      rw [events_of_scalars hPlain, List.mem_singleton] at hEvent
      subst hEvent
      left
      rcases ho.result cells hLength hAccepts with hType | ⟨listed, hListed, hResult⟩
      · have hCovers : (kind.nest 0).Covers (o.scalar cells).type :=
          (CellType.covers_iff_accepts ho.value).2 (Or.inr hType)
        have hValue := (value_of_covers ho.value hCovers).2
        rw [Event.error?] at hError
        split at hError
        · rename_i hResult
          rw [hResult] at hValue
          cases hValue
        · cases hError
      · rw [Event.error?, hResult] at hError
        cases hError
        exact hListed
  | succ depth ih =>
      have hList := h.any_isList ho.operand
      cases hLevel : isLevel cells with
      | false =>
          rw [events, if_pos hList, hLevel] at hEvent
          obtain rfl : event = .mismatch := by simpa using hEvent
          exact Or.inr (Option.some.inj hError).symm
      | true =>
          rw [events_of_list hList hLevel, List.mem_flatMap] at hEvent
          obtain ⟨row, hRow, hMem⟩ := hEvent
          exact ih (h.row ho.operand hLevel hRow) ((length_of_mem_rows hRow).trans hLength) hMem

/-- The errors that an operation on scalars can give back for lists. -/
theorem message_of_outcome (ho : o.Operates base kind errors) (h : Graded base depth cells)
    (hLength : cells.length = o.signature.arity) {message : String}
    (hOutcome : outcome o.scalar name cells = .error message) :
    message ∈ errors ∨ message = (Diagnostic.listLengthMismatch name).message := by
  unfold outcome at hOutcome
  cases hFailure : failure? o.scalar name (events cells) with
  | some found =>
      rw [hFailure] at hOutcome
      cases hOutcome
      obtain ⟨event, hEvent, hError⟩ := List.exists_of_findSome?_eq_some hFailure
      exact error?_of_mem_events ho h hLength hEvent hError
  | none =>
      have hZip : zip o.scalar cells = .error message := by simpa [hFailure] using hOutcome
      have hValue := (value_of_covers ho.value (zip_covers ho h hLength hFailure)).2
      rw [hZip] at hValue
      cases hValue

/-! ## Shapes -/

/-- The results of an operation on one operand are nested as the operand is. -/
theorem shape_zip (ho : o.Operates base kind errors) {cell : Cell} (h : Graded base depth [cell])
    (hArity : o.signature.arity = 1)
    (hNone : failure? o.scalar name (events [cell]) = none) :
    (zip o.scalar [cell]).shape = cell.shape := by
  have hLength {operand : Cell} : [operand].length = o.signature.arity := hArity.symm
  induction depth generalizing cell with
  | zero =>
      obtain ⟨hPlain, -⟩ := h.scalars ho.operand
      have hCovers := zip_covers ho h hLength hNone
      have hScalar : (zip o.scalar [cell]).isList = false := by
        cases hList : (zip o.scalar [cell]).isList with
        | false => rfl
        | true =>
            obtain ⟨element, items, hZip⟩ := Cell.isList_iff.1 hList
            rw [hZip] at hCovers
            obtain ⟨inner, hInner, -⟩ := (CellType.nest_covers_list_iff ho.value).1 hCovers
            cases hInner
      rw [Cell.shape_of_not_isList hScalar, Cell.shape_of_not_isList (by simpa using hPlain)]
  | succ depth ih =>
      have hList := h.any_isList ho.operand
      obtain ⟨hLevel, hRows⟩ := failure?_rows hList hNone
      obtain ⟨element, items, rfl⟩ := Cell.isList_iff.1 (by simpa using hList)
      have hGraded {row : List Cell} (hRow : row ∈ rows [.list element items]) :
          Graded base depth row := h.row ho.operand hLevel hRow
      obtain ⟨merged, -, hZip⟩ := zip_eq_list ho.value hList fun row hRow =>
        zip_covers ho (hGraded hRow) ((length_of_mem_rows hRow).trans hLength) (hRows row hRow)
      rw [rows_singleton] at hZip hRows hGraded
      simp only [hZip, Cell.shape, Cell.shapes_eq_map, List.map_map]
      congr 1
      refine List.map_congr_left fun item hItem => ?_
      have hRow : [item] ∈ items.map fun item => [item] := List.mem_map_of_mem hItem
      exact ih (hGraded hRow) (hRows _ hRow)

end TreeZip
end CellMachine
