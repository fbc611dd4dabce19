/-!
# JSON values as written

A value keeps its numbers and strings as they are written, because what a number or an escape
denotes only matters where it is used: a number may be too large and a surrogate may stand
alone in a part of a document that nobody asks for.  Members of an object keep their order and
their repetitions.
-/

namespace CellMachine
namespace Json

/-- A piece of a string: a character, or a four-digit escape with its code. -/
inductive Piece where
  | char (c : Char)
  | escape (code : Nat)
  deriving DecidableEq

/-- The text of a string.  An escape with a high surrogate has to be followed by one with a low
surrogate, and the two denote one character together. -/
def text? : List Piece → Option (List Char)
  | [] => some []
  | .char c :: rest => (text? rest).map (c :: ·)
  | .escape high :: rest =>
    if 0xD800 ≤ high ∧ high < 0xDC00 then
      match rest with
      | .escape low :: rest =>
        if 0xDC00 ≤ low ∧ low < 0xE000 then
          let c := Char.ofNat (0x10000 + (high - 0xD800) * 0x400 + (low - 0xDC00))
          (text? rest).map (c :: ·)
        else none
      | _ => none
    else if 0xDC00 ≤ high ∧ high < 0xE000 then none
    else (text? rest).map (Char.ofNat high :: ·)

/-- A number in parts: sign, digits, digits behind the point, and the exponent with its sign. -/
structure NumberText where
  negative : Bool
  whole : List Char
  part : List Char
  exponent : Option (Bool × List Char)
  deriving DecidableEq

end Json

/-- A JSON value. -/
inductive Json where
  | null
  | boolean (value : Bool)
  | number (text : Json.NumberText)
  | string (pieces : List Json.Piece)
  | array (items : List Json)
  | object (members : List (List Json.Piece × Json))

end CellMachine
