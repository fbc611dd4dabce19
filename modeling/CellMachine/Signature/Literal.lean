import CellMachine.Cell.Sequence
import CellMachine.Text.Blank

/-!
# Literals

Constants as written in the default of a parameter or typed into the input stream: `True`,
`False`, `Null`, integers, fractions, floats, quoted text and the empty list.
-/

namespace CellMachine
namespace Literal

/-- Cut a text at the first occurrence of a character. -/
def cut? (mark : Char) : List Char → Option (List Char × List Char)
  | [] => none
  | c :: rest =>
    if c = mark then some ([], rest)
    else (cut? mark rest).map fun (front, back) => (c :: front, back)

/-- Read a number: an integer that fits a word, a fraction of two such integers, or a float.  A
text with a slash is a fraction or nothing. -/
def readNumber? (text : List Char) : Option Cell :=
  match Integer.read? text with
  | some i => some (.integer i)
  | none =>
    match cut? '/' text with
    | some (num, den) => do
      let n ← Integer.read? (Text.trim num)
      let d ← Integer.read? (Text.trim den)
      return .rational (← Rational.make? n d)
    | none => (Decimal.read? text).map .float

/-- Read a literal; blanks around it are skipped.  Quoted text ends at the last quote and has
no escapes. -/
def read? (text : List Char) : Option Cell :=
  let text := Text.trim text
  if text = "True".toList then some (.boolean true)
  else if text = "False".toList then some (.boolean false)
  else if text = "Null".toList then some (.null .undetermined)
  else if text = "\x7b\x7d".toList then some CellList.empty.toCell
  else
    match Text.between? ['"'] ['"'] text with
    | some inner => some (.text (String.ofList inner))
    | none => readNumber? text

end Literal
end CellMachine
