import CellMachine.Signature.Basic
import CellMachine.Signature.Literal

/-!
# Reading signatures

An overload is described by one line such as

    Name[p->TYPE, q<->TYPE*, {r->TYPE = literal}] =: RETURN

where `->` passes by value and `<->` by reference, a star admits a null, and braces mark an
optional parameter with its default.  The parameter list ends at the LAST closing bracket behind
which a return type follows, so a bracket inside a text default does no harm.
-/

namespace CellMachine

/-- Why a description is no signature. -/
inductive SignatureError where
  | malformed (text : String)
  | malformedParameter (text : String)
  | unknownType (text : String)
  | invalidDefault (param text : String)
  | defaultTypeMismatch (param : String)
  | missingDefault (param : String)
  | defaultOnRequired (param : String)
  | duplicateParameter (param : String)
  | tooManyParams (count : Nat)
  deriving DecidableEq

def SignatureError.message : SignatureError → String
  | malformed text => "malformed signature: " ++ text
  | malformedParameter text => "malformed parameter: " ++ text
  | unknownType text => "unknown type: " ++ text
  | invalidDefault param text => "invalid default for parameter \"" ++ param ++ "\": " ++ text
  | defaultTypeMismatch param => "default for parameter \"" ++ param ++ "\" does not match its type"
  | missingDefault param => "optional parameter \"" ++ param ++ "\" needs a default"
  | defaultOnRequired param => "required parameter \"" ++ param ++ "\" cannot have a default"
  | duplicateParameter param => "parameter \"" ++ param ++ "\" declared twice"
  | tooManyParams count => "too many parameters: " ++ Integer.renderNat count

/-! ## Names and types -/

/-- Letters of the Latin alphabet and the underscore begin a name. -/
def isNameStart (c : Char) : Bool := c.isAlpha || c == '_'

def isNameChar (c : Char) : Bool := isNameStart c || c.isDigit

/-- A name in front of a text, and the rest. -/
def readName? (isMore : Char → Bool) : List Char → Option (List Char × List Char)
  | [] => none
  | c :: rest =>
    if isNameStart c then some (c :: rest.takeWhile isMore, rest.dropWhile isMore) else none

/-- Domain types are written in capitals, digits and underscores. -/
def isHandleName : List Char → Bool
  | [] => false
  | c :: rest => c.isUpper && rest.all fun d => d.isUpper || d.isDigit || d == '_'

/-- The type of a written type name other than a list type. -/
def CellType.ofName? (text : List Char) : Option CellType :=
  let name := String.ofList text
  match name with
  | "BOOLEAN" => some .boolean
  | "INTEGER" => some .integer
  | "FLOAT" => some .float
  | "RATIONAL" => some .rational
  | "NUMBER" => some .number
  | "TEXT" => some .text
  | "ANY" => some .any
  | "INPUT" => some .input
  | "OUTPUT" => some .output
  | "ERROR" => some .error
  | _ => if isHandleName text then some (.handle name) else none

/-- The written element type, if a text is a list type. -/
def elementText? (text : List Char) : Option (List Char) :=
  Text.between? "LIST(".toList [')'] (Text.trim text)

theorem length_of_elementText? {text inner : List Char} (h : elementText? text = some inner) :
    inner.length < text.length := by
  have h₁ := Text.length_of_between? h
  have h₂ := Text.length_trim_le text
  simp only [List.length_singleton] at h₁
  omega

/-- Read a type such as `INTEGER` or `LIST(LIST(NUMBER))`; blanks around each part are skipped. -/
def CellType.read (text : List Char) : Except SignatureError CellType :=
  match h : elementText? text with
  | some inner =>
    have := length_of_elementText? h
    (CellType.read inner).map .list
  | none =>
    match ofName? (Text.trim text) with
    | some type => .ok type
    | none => .error (.unknownType (String.ofList (Text.trim text)))
termination_by text.length

/-! ## The parameter list -/

/-- Where a scan stands: the bracket depth, which may be negative, and whether it is inside
quotes, where brackets do not count.  The depth is a word of 32 bits and wraps. -/
structure Nesting where
  depth : Int32
  quoted : Bool
  deriving DecidableEq

namespace Nesting

def start : Nesting := ⟨0, false⟩

def step (s : Nesting) (c : Char) : Nesting :=
  if c = '"' then ⟨s.depth, !s.quoted⟩
  else if s.quoted then s
  else if c = '(' ∨ c = '\x7b' then ⟨s.depth + 1, false⟩
  else if c = ')' ∨ c = '\x7d' then ⟨s.depth - 1, false⟩
  else s

/-- Where the scan stands behind a text. -/
def after (s : Nesting) (text : List Char) : Nesting := text.foldl step s

def isTop (s : Nesting) : Bool := s.depth == 0 && !s.quoted

end Nesting

/-- The pieces of a text between the commas outside of quotes and brackets. -/
def pieces (s : Nesting) : List Char → List (List Char)
  | [] => [[]]
  | c :: rest =>
    if c = ',' ∧ s.isTop then [] :: pieces s rest
    else
      match pieces (s.step c) rest with
      | piece :: more => (c :: piece) :: more
      | [] => [[c]]

/-- Split a parameter list.  Quotes and brackets have to be balanced, as far as the scan can tell, and
no piece may be blank, but a blank text has no parameters. -/
def splitParams (text : List Char) : Except SignatureError (List (List Char)) :=
  if !(Nesting.start.after text).isTop then .error (.malformed (String.ofList text))
  else if text.all Text.isBlank then .ok []
  else if (pieces .start text).any fun piece => piece.all Text.isBlank then
    .error (.malformed (String.ofList text))
  else .ok (pieces .start text)

/-! ## One parameter -/

/-- The parts of a written parameter. -/
structure ParamText where
  name : List Char
  byRef : Bool
  type : List Char
  nullable : Bool
  default : Option (List Char)

/-- The arrow between name and type: whether the parameter is by reference, and the rest. -/
def readArrow? : List Char → Option (Bool × List Char)
  | '<' :: '-' :: '>' :: rest => some (true, rest)
  | '-' :: '>' :: rest => some (false, rest)
  | _ => none

/-- The default behind a type: nothing, or an equals sign and a text of one line. -/
def readDefault? : List Char → Option (Option (List Char))
  | [] => some none
  | '=' :: rest =>
    let text := Text.trimStart rest
    if text = [] ∨ '\n' ∈ text then none else some (some text)
  | _ => none

/-- Take a parameter without its braces apart. -/
def ParamText.read? (text : List Char) : Option ParamText := do
  let (name, rest) ← readName? isNameChar text
  let (byRef, rest) ← readArrow? (Text.trimStart rest)
  let (type, rest) ← readName? (fun c => isNameChar c || c == '(' || c == ')') (Text.trimStart rest)
  let rest := Text.trimStart rest
  let (nullable, rest) := match rest with
    | '*' :: more => (true, Text.trimStart more)
    | _ => (false, rest)
  return ⟨name, byRef, type, nullable, ← readDefault? rest⟩

/-- Fit a literal to the parameter it is the default of: a null stands for the parameter's
type, an empty list takes its element type, and an integer becomes a float or a fraction where
the parameter wants one. -/
def Param.fit (p : Param) : Cell → Cell
  | .null _ => .null p.type
  | .list element items =>
    match p.type with
    | .list wanted => (((CellList.mk element items).adopt wanted).getD ⟨element, items⟩).toCell
    | _ => .list element items
  | .integer i =>
    match p.type with
    | .float => .float (.ofInteger i)
    | .rational => .rational (.ofInteger i)
    | _ => .integer i
  | other => other

/-- Whether a fitted default may stand: the parameter accepts it, or it is a null. -/
def Param.admits (p : Param) (cell : Cell) : Bool :=
  p.accepts cell || (match cell with | .null _ => true | _ => false)

/-- Read the default of a parameter. -/
def Param.readDefault (p : Param) (text : List Char) : Except SignatureError Cell :=
  match Literal.read? text with
  | none => .error (.invalidDefault p.name (String.ofList text))
  | some literal =>
    if p.admits (p.fit literal) then .ok (p.fit literal) else .error (.defaultTypeMismatch p.name)

/-- Read one parameter; exactly the ones in braces have a default. -/
def Param.read (text : List Char) : Except SignatureError Param := do
  let trimmed := Text.trim text
  let (body, optional) := match Text.between? ['\x7b'] ['\x7d'] trimmed with
    | some inner => (Text.trim inner, true)
    | none => (trimmed, false)
  match ParamText.read? body with
  | none => .error (.malformedParameter (String.ofList trimmed))
  | some parts =>
    let name := String.ofList parts.name
    let type ← CellType.read parts.type
    let param : Param := ⟨name, type, none, parts.byRef, parts.nullable⟩
    match parts.default, optional with
    | some default, true => return { param with default := some (← param.readDefault default) }
    | none, true => .error (.missingDefault name)
    | some _, false => .error (.defaultOnRequired name)
    | none, false => return param

/-! ## The whole line -/

/-- What follows the parameter list: `=:`, a return type without blanks, and nothing else. -/
def readReturn? (text : List Char) : Option (List Char) :=
  match Text.trimStart text with
  | '=' :: ':' :: rest =>
    let rest := Text.trimStart rest
    let type := rest.takeWhile fun c => !Text.isBlank c
    if type ≠ [] ∧ (rest.dropWhile fun c => !Text.isBlank c).all Text.isBlank then some type
    else none
  | _ => none

/-- The text up to the last closing bracket on the same line that a return type follows, and
that return type. -/
def readBody? : List Char → Option (List Char × List Char)
  | [] => none
  | c :: rest =>
    match (if c = '\n' then none else readBody? rest) with
    | some (inner, type) => some (c :: inner, type)
    | none => if c = ']' then (readReturn? rest).map fun type => ([], type) else none

/-- Name, parameter list and return type of a description. -/
def readHeader? (text : List Char) : Option (List Char × List Char × List Char) := do
  let (name, rest) ← readName? isNameChar (Text.trimStart text)
  match Text.trimStart rest with
  | '[' :: rest => do
    let (inner, type) ← readBody? rest
    return (name, inner, type)
  | _ => none

/-- Read parameters in order, refusing a name that was declared before. -/
def readParams (seen : List Param) : List (List Char) → Except SignatureError (List Param)
  | [] => .ok seen
  | text :: rest => do
    let param ← Param.read text
    if seen.any fun p => p.name == param.name then .error (.duplicateParameter param.name)
    else readParams (seen ++ [param]) rest

/-- Read a description.  The return type is checked first, then the parameters from left to
right, then their number. -/
def Signature.parse (description : String) : Except SignatureError Signature :=
  match readHeader? description.toList with
  | none => .error (.malformed description)
  | some (name, inner, type) => do
    let returns ← CellType.read type
    let params ← readParams [] (← splitParams inner)
    if maxParams < params.length then .error (.tooManyParams params.length)
    else return ⟨String.ofList name, params, returns, .plain⟩

end CellMachine
