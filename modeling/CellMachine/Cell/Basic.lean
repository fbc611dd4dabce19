import CellMachine.Cell.Type
import CellMachine.Number.Decimal

/-!
# Cells

A cell is the machine's unit of data.  Cells are plain values: a copy is the cell itself.
The comparison `equals` is the one scripts observe; it follows the numeric rule for floats and
object identity for handles, so it is NOT the equality of the type.
-/

namespace CellMachine

/-- A handle onto an object of a domain library; `id` is the identity of the object.  The library
may destroy the object, and then its handles are no longer valid.  Nothing that a machine does by
itself destroys one. -/
structure Handle where
  id : Nat
  typeName : String
  owner : Option Nat
  valid : Bool
  deriving DecidableEq, Inhabited

/-- The text shown for a handle: its type in parentheses. -/
def Handle.render (h : Handle) : String :=
  "(" ++ h.typeName ++ ")"

/-- The ambient streams; `discard` swallows what is written to it. -/
inductive Stream where
  | input
  | output
  | discard
  deriving DecidableEq, Inhabited

/-- A tagged value. -/
inductive Cell where
  | boolean (value : Bool)
  | integer (value : Int64)
  | float (value : Binary64)
  | rational (value : Rational)
  | text (value : String)
  /-- A list with the tag that its elements share. -/
  | list (element : CellType) (items : List Cell)
  /-- The name of a variable, not looked up yet. -/
  | reference (name : String)
  | handle (object : Handle)
  | error (message : String)
  /-- No value, standing in for one of the given type. -/
  | null (placeholder : CellType)
  | stream (stream : Stream)

namespace Cell

instance : Inhabited Cell := ⟨null .undetermined⟩

/-- The tag of a cell. -/
def type : Cell → CellType
  | boolean _ => .boolean
  | integer _ => .integer
  | float _ => .float
  | rational _ => .rational
  | text _ => .text
  | list element _ => .list element
  | reference _ => .reference
  | handle object => .handle object.typeName
  | error _ => .error
  | null _ => .null
  | stream .input => .input
  | stream .output => .output
  | stream .discard => .output

def isError : Cell → Bool
  | error _ => true
  | _ => false

def isReference : Cell → Bool
  | reference _ => true
  | _ => false

/-- Whether the cell is usable, given which objects are alive.  Handles inside a list are not
looked at. -/
def isValid (alive : Handle → Bool) : Cell → Bool
  | handle object => alive object
  | _ => true

def asBoolean? : Cell → Option Bool
  | boolean b => some b
  | _ => none

def asInteger? : Cell → Option Int64
  | integer i => some i
  | _ => none

theorem eq_of_asInteger? {cell : Cell} {value : Int64} (h : cell.asInteger? = some value) :
    cell = .integer value := by
  cases cell with
  | integer _ =>
      cases h
      rfl
  | _ => cases h

def asItems? : Cell → Option (List Cell)
  | list _ items => some items
  | _ => none

/-! ## Nested data -/

mutual

/-- How deeply lists are nested in a cell. -/
def height : Cell → Nat
  | list _ items => heights items + 1
  | _ => 0

/-- The greatest height among some cells. -/
def heights : List Cell → Nat
  | [] => 0
  | cell :: rest => max (height cell) (heights rest)

end

theorem height_le_heights {cell : Cell} {cells : List Cell} (h : cell ∈ cells) :
    cell.height ≤ heights cells := by
  induction cells with
  | nil => cases h
  | cons first rest ih =>
      rw [heights]
      rcases List.mem_cons.1 h with rfl | hRest
      · exact Nat.le_max_left _ _
      · exact Nat.le_trans (ih hRest) (Nat.le_max_right _ _)

mutual

/-- The owners of all handles in a cell, in order; a handle without an owner has no entry. -/
def owners : Cell → List Nat
  | handle object => object.owner.toList
  | list _ items => ownersAll items
  | _ => []

/-- The owners of all handles in some cells. -/
def ownersAll : List Cell → List Nat
  | [] => []
  | cell :: rest => owners cell ++ ownersAll rest

end

mutual

/-- Equality as scripts see it: lists agree in tag and items, floats compare numerically and
handles by the identity of their objects. -/
def equals : Cell → Cell → Bool
  | boolean a, boolean b => a == b
  | integer a, integer b => a == b
  | float a, float b => a.equals b
  | rational a, rational b => a == b
  | text a, text b => a == b
  | list s xs, list t ys => s == t && equalsAll xs ys
  | reference a, reference b => a == b
  | handle a, handle b => a.id == b.id
  | error a, error b => a == b
  | null s, null t => s == t
  | stream a, stream b => a == b
  | _, _ => false

/-- Item by item equality of two lists of one length. -/
def equalsAll : List Cell → List Cell → Bool
  | [], [] => true
  | x :: xs, y :: ys => equals x y && equalsAll xs ys
  | _, _ => false

end

mutual

/-- The written form of a cell. -/
def render : Cell → String
  | boolean b => if b then "True" else "False"
  | integer i => Integer.render i
  | float x => x.render
  | rational q => q.render
  | text s => "\"" ++ s ++ "\""
  | list _ [] => "\x7b \x7d"
  | list _ (first :: rest) => "\x7b " ++ render first ++ renderRest rest ++ " \x7d"
  | reference name => name
  | handle object => object.render
  | error message => message
  | null _ => "Null"
  | stream .input => "Input"
  | stream .output => "Output"
  | stream .discard => "Null"

/-- The items behind the first, each after a comma. -/
def renderRest : List Cell → String
  | [] => ""
  | cell :: rest => ", " ++ render cell ++ renderRest rest

end

/-- How an operand is shown once it was looked up. -/
def display : Cell → String
  | reference name => name ++ " (undefined)"
  | cell => if cell.isValid Handle.valid then cell.render else "(undefined)"

end Cell
end CellMachine
