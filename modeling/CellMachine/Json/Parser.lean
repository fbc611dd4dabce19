import CellMachine.Json.Basic

/-!
# Reading JSON

A strict reader of the JSON grammar: one value with nothing but blanks around it, no comments,
no trailing commas, no control characters in strings.  The reader is given an allowance that
every value and every element uses up by one; the length of the text is enough of it, since each
of them has a character of its own.
-/

namespace CellMachine
namespace Json

/-- The four blanks of JSON. -/
def isBlank (c : Char) : Bool := c == ' ' || c == '\t' || c == '\n' || c == '\r'

def skipBlanks (s : List Char) : List Char := s.dropWhile isBlank

/-! ## Numbers -/

/-- The digits in front; there has to be one. -/
def digits1? (s : List Char) : Option (List Char × List Char) :=
  match s.takeWhile Char.isDigit with
  | [] => none
  | ds => some (ds, s.dropWhile Char.isDigit)

/-- Digits without a zero in front of others. -/
def whole? (s : List Char) : Option (List Char × List Char) :=
  match digits1? s with
  | some ('0' :: _ :: _, _) => none
  | other => other

/-- An optional point with digits behind it. -/
def part? : List Char → Option (List Char × List Char)
  | '.' :: rest => digits1? rest
  | s => some ([], s)

/-- The sign and the digits of an exponent. -/
def exponentDigits? : List Char → Option ((Bool × List Char) × List Char)
  | '-' :: rest => (digits1? rest).map fun (ds, rest) => ((true, ds), rest)
  | '+' :: rest => (digits1? rest).map fun (ds, rest) => ((false, ds), rest)
  | s => (digits1? s).map fun (ds, rest) => ((false, ds), rest)

/-- An optional exponent. -/
def exponent? : List Char → Option (Option (Bool × List Char) × List Char)
  | 'e' :: rest => (exponentDigits? rest).map fun (e, rest) => (some e, rest)
  | 'E' :: rest => (exponentDigits? rest).map fun (e, rest) => (some e, rest)
  | s => some (none, s)

def number? (s : List Char) : Option (NumberText × List Char) := do
  let (negative, s) := match s with
    | '-' :: rest => (true, rest)
    | s => (false, s)
  let (whole, s) ← whole? s
  let (part, s) ← part? s
  let (exponent, s) ← exponent? s
  return (⟨negative, whole, part, exponent⟩, s)

/-! ## Strings -/

def hexDigit? (c : Char) : Option Nat :=
  if c.isDigit then some (c.toNat - 48)
  else if 'a' ≤ c ∧ c ≤ 'f' then some (c.toNat - 87)
  else if 'A' ≤ c ∧ c ≤ 'F' then some (c.toNat - 55)
  else none

/-- The character of a one-letter escape. -/
def escape? : Char → Option Char
  | '"' => some '"'
  | '\\' => some '\\'
  | '/' => some '/'
  | 'b' => some '\x08'
  | 'f' => some '\x0c'
  | 'n' => some '\n'
  | 'r' => some '\r'
  | 't' => some '\t'
  | _ => none

/-- The pieces of a string behind its opening quote, and the text behind its closing quote. -/
def pieces? : List Char → Option (List Piece × List Char)
  | [] => none
  | '"' :: rest => some ([], rest)
  | '\\' :: 'u' :: a :: b :: c :: d :: rest => do
    let code := (((← hexDigit? a) * 16 + (← hexDigit? b)) * 16 + (← hexDigit? c)) * 16 +
      (← hexDigit? d)
    let (pieces, rest) ← pieces? rest
    return (.escape code :: pieces, rest)
  | '\\' :: e :: rest => do
    let c ← escape? e
    let (pieces, rest) ← pieces? rest
    return (.char c :: pieces, rest)
  | c :: rest =>
    if c = '\\' ∨ c.toNat < 0x20 then none
    else do
      let (pieces, rest) ← pieces? rest
      return (.char c :: pieces, rest)

/-! ## Values -/

mutual

/-- A value in front of a text, and the rest. -/
def value? : Nat → List Char → Option (Json × List Char)
  | 0, _ => none
  | fuel + 1, s =>
    match skipBlanks s with
    | 'n' :: 'u' :: 'l' :: 'l' :: rest => some (.null, rest)
    | 't' :: 'r' :: 'u' :: 'e' :: rest => some (.boolean true, rest)
    | 'f' :: 'a' :: 'l' :: 's' :: 'e' :: rest => some (.boolean false, rest)
    | '"' :: rest => (pieces? rest).map fun (pieces, rest) => (.string pieces, rest)
    | '[' :: rest =>
      match skipBlanks rest with
      | ']' :: rest => some (.array [], rest)
      | rest => elements? fuel [] rest
    | '\x7b' :: rest =>
      match skipBlanks rest with
      | '\x7d' :: rest => some (.object [], rest)
      | rest => members? fuel [] rest
    | s => (number? s).map fun (text, rest) => (.number text, rest)

/-- The elements of an array up to its end; those already read are given, the last first. -/
def elements? : Nat → List Json → List Char → Option (Json × List Char)
  | 0, _, _ => none
  | fuel + 1, done, s =>
    match value? fuel s with
    | none => none
    | some (item, rest) =>
      match skipBlanks rest with
      | ']' :: rest => some (.array (item :: done).reverse, rest)
      | ',' :: rest => elements? fuel (item :: done) rest
      | _ => none

/-- The members of an object up to its end; those already read are given, the last first. -/
def members? : Nat → List (List Piece × Json) → List Char → Option (Json × List Char)
  | 0, _, _ => none
  | fuel + 1, done, s =>
    match skipBlanks s with
    | '"' :: rest =>
      match pieces? rest with
      | none => none
      | some (key, rest) =>
        match skipBlanks rest with
        | ':' :: rest =>
          match value? fuel rest with
          | none => none
          | some (item, rest) =>
            match skipBlanks rest with
            | '\x7d' :: rest => some (.object ((key, item) :: done).reverse, rest)
            | ',' :: rest => members? fuel ((key, item) :: done) rest
            | _ => none
        | _ => none
    | _ => none

end

/-- Read a document: one value and nothing else. -/
def parse? (text : String) : Option Json :=
  let s := text.toList
  match value? (2 * s.length + 1) s with
  | some (value, rest) => if rest.all isBlank then some value else none
  | none => none

end Json
end CellMachine
