import CellMachine.Json.Number
import CellMachine.Json.Parser
import CellMachine.Signature.Parser

/-!
# Constants of program files

A constant is written as an object whose only key names its kind, such as `{"integer": 5}` or
`{"null": "TEXT"}`.  Reading one from JSON and turning it into a cell are separate steps, since
a whole file has to be well formed before any constant in it is looked at.
-/

namespace CellMachine

namespace Json

/-! ## Access -/

/-- The text of a string value. -/
def asText? : Json → Option String
  | string pieces => (text? pieces).map String.ofList
  | _ => none

def asNumber? : Json → Option Number
  | number text => text.value?
  | _ => none

/-- An integer below a bound; floats are refused, whole ones included. -/
def asNatural? (bound : Nat) (json : Json) : Option Nat :=
  match json.asNumber? with
  | some (.natural n) => if n < bound then some n else none
  | _ => none

/-- An integer of sixty-four bits with a sign. -/
def asInteger? (json : Json) : Option Int64 :=
  match json.asNumber? with
  | some (.natural n) => Integer.narrow? n
  | some (.negative n) => Integer.narrow? (-(n : Int))
  | _ => none

/-- A float; integers are rounded to the nearest one. -/
def asFloat? (json : Json) : Option Binary64 :=
  match json.asNumber? with
  | some (.natural n) => some (.ofInt n)
  | some (.negative n) => some (.ofInt (-(n : Int)))
  | some (.float x) => some x
  | none => none

/-- The members of an object under the texts of their keys. -/
def keyed? : List (List Piece × Json) → Option (List (String × Json))
  | [] => some []
  | (key, value) :: rest => do
    let key ← text? key
    return (String.ofList key, value) :: (← keyed? rest)

def asObject? : Json → Option (List (String × Json))
  | object members => keyed? members
  | _ => none

/-- The values under a key. -/
def valuesOf (members : List (String × Json)) (key : String) : List Json :=
  (members.filter fun member => member.1 == key).map Prod.snd

/-- The value under a key that has to be there once. -/
def required? (members : List (String × Json)) (key : String) : Option Json :=
  match valuesOf members key with
  | [value] => some value
  | _ => none

/-- Read the value under a key that may be missing but not repeated. -/
def optional? {α : Type} (members : List (String × Json)) (key : String) (missing : α)
    (read : Json → Option α) : Option α :=
  match valuesOf members key with
  | [] => some missing
  | [value] => read value
  | _ => none

end Json

/-- A constant as written. -/
inductive Constant where
  | boolean (value : Bool)
  | integer (value : Int64)
  | float (value : Binary64)
  | rational (num den : Int64)
  | text (value : String)
  | list (items : List Constant)
  /-- A null with the written type it stands for. -/
  | null (type : String)

namespace Constant

/-- Numerator and denominator, as an object with these keys or as an array of the two. -/
def rationalOfJson? : Json → Option Constant
  | .array [num, den] => do
    return rational (← num.asInteger?) (← den.asInteger?)
  | .array _ => none
  | json => do
    let members ← json.asObject?
    let num ← Json.required? members "num"
    let den ← Json.required? members "den"
    return rational (← num.asInteger?) (← den.asInteger?)

/-- The constant of a kind other than a list. -/
def scalarOfJson? (kind : String) (json : Json) : Option Constant :=
  match kind with
  | "boolean" =>
    match json with
    | .boolean b => some (boolean b)
    | _ => none
  | "integer" => json.asInteger?.map integer
  | "float" => json.asFloat?.map float
  | "rational" => rationalOfJson? json
  | "text" => json.asText?.map text
  | "null" => json.asText?.map null
  | _ => none

mutual

/-- Read a constant. -/
def ofJson? : Json → Option Constant
  | .object [(key, value)] =>
    match (Json.text? key).map String.ofList with
    | some "list" => listOfJson? value
    | some kind => scalarOfJson? kind value
    | none => none
  | _ => none

/-- Read the items of a list. -/
def listOfJson? : Json → Option Constant
  | .array items => (allOfJson? items).map list
  | _ => none

/-- Read some constants. -/
def allOfJson? : List Json → Option (List Constant)
  | [] => some []
  | item :: rest =>
    match ofJson? item with
    | none => none
    | some constant => (allOfJson? rest).map (constant :: ·)

end

mutual

/-- How deeply the brackets of a written constant are nested. -/
def nesting : Constant → Nat
  | list items => nestings items + 2
  | rational _ _ => 2
  | _ => 1

/-- The deepest nesting among some constants. -/
def nestings : List Constant → Nat
  | [] => 0
  | constant :: rest => max (nesting constant) (nestings rest)

end

mutual

/-- The cell of a constant, or the reason why there is none.  All items of a list are converted
before they are put together. -/
def toCell : Constant → Except String Cell
  | boolean b => .ok (.boolean b)
  | integer i => .ok (.integer i)
  | float x => .ok (.float x)
  | rational num den =>
    match Rational.make? num den with
    | some q => .ok (.rational q)
    | none => .error (Integer.render num ++ "/" ++ Integer.render den ++ " is not a rational")
  | text s => .ok (.text s)
  | list items =>
    match toCells items with
    | .error message => .error message
    | .ok cells =>
      match CellList.ofCells cells with
      | .ok l => .ok l.toCell
      | .error e => .error e.message
  | null type =>
    match CellType.read type.toList with
    | .ok type => .ok (.null type)
    | .error e => .error e.message

/-- The cells of some constants. -/
def toCells : List Constant → Except String (List Cell)
  | [] => .ok []
  | constant :: rest =>
    match toCell constant with
    | .error message => .error message
    | .ok cell =>
      match toCells rest with
      | .error message => .error message
      | .ok cells => .ok (cell :: cells)

end

end Constant

/-- The greatest nesting of brackets in a program file, parts that are skipped apart. -/
def maxNesting : Nat := 127

/-- Read the text of a single constant. -/
def Constant.parse? (text : String) : Option Constant := do
  let constant ← ofJson? (← Json.parse? text)
  if constant.nesting ≤ maxNesting then some constant else none

end CellMachine
