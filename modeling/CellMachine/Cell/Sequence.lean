import CellMachine.Cell.Basic

/-!
# Lists of cells

All elements of a list share one element tag.  A list starts `undetermined`, takes the tag of
its first element, and related numeric tags merge into `number`.  A reference is never stored
in a list.
-/

namespace CellMachine

/-- Why a list refuses an element. -/
inductive ListError where
  | unresolvedReference (name : String)
  | mixedTypes (expected found : CellType)
  | indexOutOfBounds (index length : Nat)
  deriving DecidableEq

def ListError.message : ListError → String
  | unresolvedReference name => "cannot insert undefined reference \"" ++ name ++ "\" into a list"
  | mixedTypes expected found =>
    "cannot insert " ++ found.render ++ " into a list of " ++ expected.render
  | indexOutOfBounds index length =>
    "list index " ++ Integer.renderNat index ++ " out of bounds for length " ++
      Integer.renderNat length

/-- The element tag after one more element: the element has to be a value whose tag unifies
with the old one. -/
def CellType.absorb (element : CellType) (cell : Cell) : Except ListError CellType :=
  match cell with
  | .reference name => .error (.unresolvedReference name)
  | _ =>
    match element.unify cell.type with
    | some merged => .ok merged
    | none => .error (.mixedTypes element cell.type)

/-- The element tag after several more elements, stopping at the first that is refused. -/
def CellType.absorbAll (element : CellType) : List Cell → Except ListError CellType
  | [] => .ok element
  | cell :: rest =>
    match element.absorb cell with
    | .ok merged => merged.absorbAll rest
    | .error e => .error e

/-- A list under construction. -/
structure CellList where
  element : CellType
  items : List Cell

namespace CellList

def empty : CellList := ⟨.undetermined, []⟩

def toCell (l : CellList) : Cell := .list l.element l.items

/-- Insert before position `index`, counted from zero. -/
def insert (l : CellList) (index : Nat) (cell : Cell) : Except ListError CellList :=
  match cell with
  | .reference name => .error (.unresolvedReference name)
  | _ =>
    if l.items.length < index then .error (.indexOutOfBounds index l.items.length)
    else
      match l.element.absorb cell with
      | .ok merged => .ok ⟨merged, l.items.insertIdx index cell⟩
      | .error e => .error e

/-- Insert behind the last element. -/
def push (l : CellList) (cell : Cell) : Except ListError CellList :=
  l.insert l.items.length cell

/-- A list that starts with the given tag and takes the given cells in order. -/
def build (element : CellType) (cells : List Cell) : Except ListError CellList :=
  match element.absorbAll cells with
  | .ok merged => .ok ⟨merged, cells⟩
  | .error e => .error e

/-- The list of the given cells. -/
def ofCells : List Cell → Except ListError CellList :=
  build .undetermined

/-- Give an undetermined list an element tag; a determined one keeps its own. -/
def adopt (l : CellList) (element : CellType) : Option CellList :=
  if l.element = .undetermined then some ⟨element, l.items⟩ else none

end CellList
end CellMachine
