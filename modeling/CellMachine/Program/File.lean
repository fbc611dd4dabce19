import CellMachine.Instruction
import CellMachine.Program.Constant

/-!
# Program files

A program file has the instructions of the main program and the functions it defines.  Unknown
keys are ignored and known ones must not be repeated.  What stands under an unknown key of the
file or of a function only has to be JSON; inside an entry every number has to be in range,
every string has to be a text, and the nesting of brackets is limited.
-/

namespace CellMachine

namespace Json

mutual

/-- Whether every number of a value is in range and every string is a text. -/
def isSound : Json → Bool
  | number text => text.value?.isSome
  | string pieces => (text? pieces).isSome
  | array items => allSound items
  | object members => membersSound members
  | _ => true

def allSound : List Json → Bool
  | [] => true
  | item :: rest => isSound item && allSound rest

def membersSound : List (List Piece × Json) → Bool
  | [] => true
  | (key, value) :: rest => (text? key).isSome && isSound value && membersSound rest

end

mutual

/-- How deeply the brackets of a value are nested. -/
def nesting : Json → Nat
  | array items => nestings items + 1
  | object members => memberNestings members + 1
  | _ => 0

def nestings : List Json → Nat
  | [] => 0
  | item :: rest => max (nesting item) (nestings rest)

def memberNestings : List (List Piece × Json) → Nat
  | [] => 0
  | (_, value) :: rest => max (nesting value) (memberNestings rest)

end

/-- A name from a fixed choice, written as a string or as an object with the name as its only
key and nothing under it. -/
def choice? {α : Type} (named : String → Option α) : Json → Option α
  | object [(key, null)] => (text? key).bind fun name => named (String.ofList name)
  | object [(key, object [])] => (text? key).bind fun name => named (String.ofList name)
  | json => json.asText?.bind named

/-- Read the items of an array in order. -/
def itemsOf? {α : Type} (read : Json → Option α) : Json → Option (List α)
  | array items => items.mapM read
  | _ => none

end Json

/-! ## Entries -/

def UnaryOp.ofName? : String → Option UnaryOp
  | "negate" => some .negate
  | "not" => some .not
  | _ => none

def BinaryOp.ofName? : String → Option BinaryOp
  | "plus" => some .plus
  | "minus" => some .minus
  | "times" => some .times
  | "divide" => some .divide
  | "integer-divide" => some .integerDivide
  | "modulus" => some .modulus
  | "power" => some .power
  | "concat" => some .concat
  | "equal" => some .equal
  | "not-equal" => some .notEqual
  | "less" => some .less
  | "greater" => some .greater
  | "less-equal" => some .lessEqual
  | "greater-equal" => some .greaterEqual
  | "and" => some .and
  | "or" => some .or
  | "assign" => some .assign
  | "write" => some .write
  | "read" => some .read
  | "subscript" => some .subscript
  | _ => none

def PassMode.ofName? : String → Option PassMode
  | "auto" => some .automatic
  | "value" => some .value
  | "reference" => some .reference
  | _ => none

/-- What an entry says to do: push a constant that is still to be converted, or an instruction
that is complete. -/
inductive EntryOp where
  | push (constant : Constant)
  | plain (op : Op)

/-- One entry of an instruction list; without a line it has that of its position. -/
structure Entry where
  line : Option Nat
  op : EntryOp

namespace Entry

/-- The names of the instructions, in the order of their numbers. -/
def opNames : List String :=
  ["push", "push-ref", "push-list", "pop", "flush", "dump", "output", "clear", "unassign",
    "unary", "binary", "init-call", "bind", "call", "help", "jump", "jump-if", "quit"]

/-- The name of an instruction, written as a string or as its number. -/
def opName? (json : Json) : Option String :=
  match json.asText? with
  | some name => some name
  | none => (json.asNatural? opNames.length).bind fun n => opNames[n]?

/-- The bound of line numbers. -/
def lineBound : Nat := 0x100000000

/-- The bound of counts and jump targets. -/
def countBound : Nat := 0x10000000000000000

/-- Read what an entry says to do from its members. -/
def opOfMembers? (members : List (String × Json)) : Option EntryOp := do
  let required (key : String) := Json.required? members key
  match ← opName? (← required "op") with
  | "push" => return .push (← Constant.ofJson? (← required "value"))
  | "push-ref" => return .plain (.pushRef (← (← required "name").asText?))
  | "push-list" => return .plain (.pushList (← (← required "count").asNatural? countBound))
  | "pop" => return .plain .pop
  | "flush" => return .plain .flush
  | "dump" => return .plain .dump
  | "output" => return .plain .output
  | "clear" => return .plain .clear
  | "unassign" => return .plain .unassign
  | "unary" => return .plain (.unary (← Json.choice? UnaryOp.ofName? (← required "operator")))
  | "binary" => return .plain (.binary (← Json.choice? BinaryOp.ofName? (← required "operator")))
  | "init-call" => return .plain (.initCall (← (← required "function").asText?))
  | "bind" => do
    let param ← Json.optional? members "param" none fun
      | .null => some none
      | json => json.asText?.map some
    let mode ← Json.optional? members "mode" .automatic (Json.choice? PassMode.ofName?)
    return .plain (.bind param mode)
  | "call" => return .plain .call
  | "help" => return .plain (.help (← (← required "function").asText?))
  | "jump" => return .plain (.jump (← (← required "target").asNatural? countBound))
  | "jump-if" => return .plain (.jumpIf (← (← required "target").asNatural? countBound))
  | "quit" => return .plain .quit
  | _ => none

/-- Read an entry that stands inside the given number of brackets. -/
def ofJson? (depth : Nat) (json : Json) : Option Entry := do
  if json.isSound && json.nesting + depth ≤ maxNesting then
    let members ← json.asObject?
    let line ← Json.optional? members "line" none fun
      | .null => some none
      | json => (json.asNatural? lineBound).map some
    return ⟨line, ← opOfMembers? members⟩
  else none

end Entry

/-! ## Files -/

/-- A function definition as written. -/
structure FunctionFile where
  signature : String
  line : Nat
  body : List Entry

/-- A program file as written. -/
structure ProgramFile where
  functions : List FunctionFile
  main : List Entry

namespace FunctionFile

/-- The brackets around an entry of a function body. -/
def entryDepth : Nat := 4

/-- Read a function from its three parts; the line may be missing. -/
def ofParts? (signature : Json) (line : Option Json) (body : Json) : Option FunctionFile := do
  return {
    signature := ← signature.asText?
    line := ← match line with
      | some line => line.asNatural? Entry.lineBound
      | none => some 0
    body := ← Json.itemsOf? (Entry.ofJson? entryDepth) body }

/-- Read a function, written as an object or as an array of its three parts. -/
def ofJson? : Json → Option FunctionFile
  | .array [signature, line, body] => ofParts? signature (some line) body
  | .array _ => none
  | json => do
    let members ← json.asObject?
    let line ← Json.optional? members "line" none fun json => some (some json)
    ofParts? (← Json.required? members "signature") line (← Json.required? members "body")

end FunctionFile

namespace ProgramFile

/-- The brackets around an entry of the main program. -/
def entryDepth : Nat := 2

def entriesOf? : Json → Option (List Entry) := Json.itemsOf? (Entry.ofJson? entryDepth)

/-- Read a program file, written as an object or as an array of its two parts. -/
def ofJson? : Json → Option ProgramFile
  | .array [functions, main] => do
    return ⟨← Json.itemsOf? FunctionFile.ofJson? functions, ← entriesOf? main⟩
  | .array _ => none
  | json => do
    let members ← json.asObject?
    let functions ← Json.optional? members "functions" [] (Json.itemsOf? FunctionFile.ofJson?)
    return ⟨functions, ← entriesOf? (← Json.required? members "main")⟩

/-- Read the text of a program file. -/
def parse? (text : String) : Option ProgramFile := do
  ofJson? (← Json.parse? text)

end ProgramFile
end CellMachine
