import CellMachine.Machine.Invoke

/-!
# Zipping trees

Nested lists are trees.  A function on scalars is applied to several of them at once: where no
operand is a list it is applied directly, and otherwise the lists have to be of one length and the
function is applied to the operands at each index, those that are not lists being repeated.

`TreeZip.events` lists what happens on the way in left-to-right, depth-first order, `TreeZip.zip` is
the tree of the results, and `TreeZip.outcome` is that tree or the error of the first event that
fails.  The tree is built whether or not some event fails; only the outcome depends on that.
-/

namespace CellMachine

namespace Cell

def isList (cell : Cell) : Bool := cell.asItems?.isSome

/-- The part of a cell at an index: an item of a list, and all of any other cell. -/
def part (index : Nat) : Cell → Cell
  | list _ items => items[index]?.getD (.null .undetermined)
  | cell => cell

theorem height_part (index : Nat) (cell : Cell) : (cell.part index).height ≤ cell.height - 1 := by
  cases cell with
  | list element items =>
      simp only [Cell.part, height]
      cases hItem : items[index]? with
      | none => simp [height]
      | some item => simpa using height_le_heights (List.mem_of_getElem? hItem)
  | _ => simp [Cell.part, height]

/-- The operands of one pairing. -/
def parts (index : Nat) (cells : List Cell) : List Cell := cells.map (part index)

theorem heights_parts (index : Nat) (cells : List Cell) :
    heights (parts index cells) ≤ heights cells - 1 := by
  induction cells with
  | nil => simp [parts, heights]
  | cons cell rest ih =>
      have hFirst := height_part index cell
      simp only [parts, List.map_cons, heights] at ih ⊢
      omega

theorem heights_pos {cells : List Cell} (h : cells.any isList = true) : 0 < heights cells := by
  obtain ⟨cell, hMem, hList⟩ := List.any_eq_true.1 h
  have hLe := height_le_heights hMem
  cases cell with
  | list element items =>
      rw [height] at hLe
      omega
  | _ => simp [isList, asItems?] at hList

end Cell

/-- A tree without its values. -/
inductive Shape where
  | leaf
  | node (children : List Shape)

namespace Cell

mutual

/-- How the lists in a cell are nested. -/
def shape : Cell → Shape
  | list _ items => .node (shapes items)
  | _ => .leaf

def shapes : List Cell → List Shape
  | [] => []
  | item :: rest => shape item :: shapes rest

end

theorem shapes_eq_map (cells : List Cell) : shapes cells = cells.map shape := by
  induction cells with
  | nil => rfl
  | cons cell rest ih => simp [shapes, ih]

theorem shape_of_not_isList {cell : Cell} (h : cell.isList = false) : cell.shape = .leaf := by
  cases cell with
  | list element items => cases h
  | _ => rfl

end Cell

/-! ## The reference -/

namespace TreeZip

/-- The lengths of the lists among some operands. -/
def lengths (cells : List Cell) : List Nat :=
  cells.filterMap fun cell => cell.asItems?.map List.length

/-- How many times operands are paired: the length of the first list among them. -/
def width (cells : List Cell) : Nat := (lengths cells).headD 0

/-- Whether all lists among some operands have one length. -/
def isLevel (cells : List Cell) : Bool := (lengths cells).all (· == width cells)

/-- What happens when operands are paired: the function is applied, or lists are found to differ in
length. -/
inductive Event where
  | apply (operands : List Cell)
  | mismatch

/-- All that happens, in left-to-right, depth-first order. -/
def events (cells : List Cell) : List Event :=
  if cells.any Cell.isList then
    if isLevel cells then
      (List.range (width cells)).flatMap fun index => events (Cell.parts index cells)
    else [.mismatch]
  else [.apply cells]
termination_by Cell.heights cells
decreasing_by
  have hPos := Cell.heights_pos ‹_›
  have hLess := Cell.heights_parts index cells
  omega

/-- The results as one list. -/
def collected (results : List Cell) : Cell :=
  match CellList.ofCells results with
  | .ok list => list.toCell
  | .error _ => .error Diagnostic.mixedListTypes.message

/-- The tree of the results. -/
def zip (f : List Cell → Cell) (cells : List Cell) : Cell :=
  if cells.any Cell.isList then
    collected ((List.range (width cells)).map fun index => zip f (Cell.parts index cells))
  else f cells
termination_by Cell.heights cells
decreasing_by
  have hPos := Cell.heights_pos ‹_›
  have hLess := Cell.heights_parts index cells
  omega

/-- The message of an event that fails, for a function of the given name. -/
def Event.error? (f : List Cell → Cell) (name : String) : Event → Option String
  | apply operands =>
    match f operands with
    | .error message => some message
    | _ => none
  | mismatch => some (Diagnostic.listLengthMismatch name).message

/-- The message of the first event that fails. -/
def failure? (f : List Cell → Cell) (name : String) (events : List Event) : Option String :=
  events.findSome? (Event.error? f name)

/-- The error of a failure, or the given cell without one. -/
def settled (cell : Cell) : Option String → Cell
  | some message => .error message
  | none => cell

@[simp] theorem settled_some (cell : Cell) (message : String) :
    settled cell (some message) = .error message := rfl

@[simp] theorem settled_none (cell : Cell) : settled cell none = cell := rfl

/-- The error of the first event that fails, or else the tree of the results. -/
def outcome (f : List Cell → Cell) (name : String) (cells : List Cell) : Cell :=
  settled (zip f cells) (failure? f name (events cells))

/-- The events up to the first that fails, which is the last that happens. -/
def happening (f : List Cell → Cell) (name : String) : List Event → List Event
  | [] => []
  | event :: rest =>
    if (event.error? f name).isSome then [event] else event :: happening f name rest

/-- What an event does to the machine: a mismatch is reported, and applying the function does what
`visit` does. -/
def Event.perform (visit : List Cell → Exec Unit) (name : String) : Event → Exec Unit
  | apply operands => visit operands
  | mismatch => Exec.report (.listLengthMismatch name)

/-- Perform events in order. -/
def perform (visit : List Cell → Exec Unit) (name : String) (events : List Event) : Exec Unit :=
  events.forM (Event.perform visit name)

/-- The operands of each pairing. -/
def rows (cells : List Cell) : List (List Cell) :=
  (List.range (width cells)).map fun index => Cell.parts index cells

variable {f : List Cell → Cell} {name : String} {cells : List Cell}

theorem events_of_list (h : cells.any Cell.isList = true) (hLevel : isLevel cells = true) :
    events cells = (rows cells).flatMap events := by
  rw [TreeZip.events, if_pos h, if_pos hLevel, rows, List.flatMap_map]

theorem events_of_scalars (h : cells.any Cell.isList = false) : events cells = [.apply cells] := by
  rw [events, h, if_neg (by simp)]

theorem zip_of_scalars (h : cells.any Cell.isList = false) : zip f cells = f cells := by
  rw [zip, h, if_neg (by simp)]

theorem zip_of_list (h : cells.any Cell.isList = true) :
    zip f cells = collected ((rows cells).map (zip f)) := by
  rw [TreeZip.zip, if_pos h, rows, List.map_map]
  rfl

/-! ### Events up to the first failure -/

theorem failure?_cons (event : Event) (rest : List Event) :
    failure? f name (event :: rest) = (event.error? f name).or (failure? f name rest) := by
  simp only [failure?, List.findSome?_cons]
  cases event.error? f name <;> rfl

theorem failure?_append (first rest : List Event) :
    failure? f name (first ++ rest) = (failure? f name first).or (failure? f name rest) :=
  List.findSome?_append

/-- Without a failure everything happens. -/
theorem happening_append_of_none {first : List Event} (h : failure? f name first = none)
    (rest : List Event) : happening f name (first ++ rest) = first ++ happening f name rest := by
  induction first with
  | nil => rfl
  | cons event more ih =>
      rw [failure?_cons, Option.or_eq_none_iff] at h
      simp [happening, h.1, ih h.2]

/-- What comes behind a failure does not happen. -/
theorem happening_append_of_some {first : List Event} {message : String}
    (h : failure? f name first = some message) (rest : List Event) :
    happening f name (first ++ rest) = happening f name first := by
  induction first with
  | nil => cases h
  | cons event more ih =>
      rw [failure?_cons] at h
      cases hEvent : event.error? f name with
      | some found => simp [happening, hEvent]
      | none =>
          rw [hEvent, Option.none_or] at h
          simp [happening, hEvent, ih h]

/-! ### One level -/

theorem length_of_mem_rows {row : List Cell} (h : row ∈ rows cells) :
    row.length = cells.length := by
  obtain ⟨index, -, rfl⟩ := List.mem_map.1 h
  simp [Cell.parts]

/-- A list among the operands whose pairing fails nowhere: the lists are of one length, and no row
fails. -/
theorem failure?_rows (hList : cells.any Cell.isList = true)
    (h : failure? f name (events cells) = none) :
    isLevel cells = true ∧ ∀ row ∈ rows cells, failure? f name (events row) = none := by
  cases hLevel : isLevel cells with
  | false =>
      rw [events, if_pos hList, hLevel] at h
      cases h
  | true =>
      refine ⟨rfl, fun row hRow => ?_⟩
      rw [events_of_list hList hLevel] at h
      simp only [failure?, List.findSome?_eq_none_iff, List.mem_flatMap] at h ⊢
      exact fun event hEvent => h event ⟨row, hRow, hEvent⟩

/-- Without lists the function is applied, and its result is the outcome. -/
theorem of_scalars (f : List Cell → Cell) (name : String) (h : cells.any Cell.isList = false) :
    happening f name (events cells) = [.apply cells] ∧ outcome f name cells = f cells := by
  constructor
  · simp [events_of_scalars h, happening]
  · simp only [outcome, events_of_scalars h, zip_of_scalars h, failure?, List.findSome?_singleton,
      Event.error?]
    cases f cells <;> rfl

/-- Lists of different lengths are reported, and nothing is applied to their items. -/
theorem of_mismatch (f : List Cell → Cell) (name : String) (h : cells.any Cell.isList = true)
    (hLevel : isLevel cells = false) :
    happening f name (events cells) = [.mismatch] ∧
      outcome f name cells = .error (Diagnostic.listLengthMismatch name).message := by
  have hEvents : events cells = [.mismatch] := by rw [events, h, if_pos rfl, hLevel]; rfl
  simp [hEvents, happening, outcome, failure?, Event.error?]

theorem rows_singleton (element : CellType) (items : List Cell) :
    rows [.list element items] = items.map fun item => [item] := by
  have hWidth : width [.list element items] = items.length := by
    simp [width, lengths, Cell.asItems?]
  refine List.ext_getElem (by simp [rows, hWidth]) fun index hLeft hRight => ?_
  have hIndex : index < items.length := by simpa using hRight
  simp [rows, Cell.parts, Cell.part, hIndex]

/-- The list of some items with more results behind them. -/
def gathered (element : CellType) (items results : List Cell) : Cell :=
  match element.absorbAll results with
  | .ok merged => .list merged (items ++ results)
  | .error _ => .error Diagnostic.mixedListTypes.message

theorem collected_eq (results : List Cell) :
    collected results = gathered .undetermined [] results := by
  unfold collected gathered CellList.ofCells CellList.build
  cases CellType.absorbAll .undetermined results <;> rfl

/-! ### Performing events -/

theorem perform_append (visit : List Cell → Exec Unit) (first rest : List Event) :
    perform visit name (first ++ rest) =
      (perform visit name first >>= fun _ => perform visit name rest) := by
  simp [perform]

/-- Without visits nothing happens to the machine but the report of a mismatch. -/
theorem perform_silent (f : List Cell → Cell) (name : String) (events : List Event) (m : Machine) :
    ∃ m', perform (fun _ => pure ()) name (happening f name events) m = .ok () m' ∧
      (m' = m ∨ m' = m.report (.listLengthMismatch name)) := by
  induction events with
  | nil => exact ⟨m, rfl, Or.inl rfl⟩
  | cons event rest ih =>
      cases event with
      | mismatch => exact ⟨_, rfl, Or.inr rfl⟩
      | apply operands =>
          rw [happening]
          split
          · exact ⟨m, rfl, Or.inl rfl⟩
          · exact ih

end TreeZip
end CellMachine
