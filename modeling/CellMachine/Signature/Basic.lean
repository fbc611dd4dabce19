import CellMachine.Cell.Sequence

/-!
# Signatures

One overload of a function has a name, parameters, a return type and two flags.  A parameter
accepts a cell directly, or element by element when the overload is listable.  Two signatures
are ambiguous when some positional call could match both.
-/

namespace CellMachine

/-- The greatest number of parameters of one signature. -/
def maxParams : Nat := 1000

/-- One formal parameter; it is optional exactly when it has a default. -/
structure Param where
  name : String
  type : CellType
  default : Option Cell
  /-- Rebinding by the callee is written back to the caller's variable. -/
  byRef : Bool
  /-- A null of the parameter's type is accepted too. -/
  nullable : Bool

namespace Param

/-- A required parameter passed by value. -/
def byValue (name : String) (type : CellType) : Param :=
  ⟨name, type, none, false, false⟩

/-- A required parameter passed by reference. -/
def byReference (name : String) (type : CellType) : Param :=
  ⟨name, type, none, true, false⟩

def isRequired (p : Param) : Bool := p.default.isNone

/-- Whether a cell matches the parameter directly. -/
def accepts (p : Param) (cell : Cell) : Bool :=
  match p.nullable, cell with
  | true, .null placeholder => p.type.accepts placeholder
  | _, cell => p.type.accepts cell.type

end Param

/-- Whether values of a list type match the given type at some level of nesting. -/
def CellType.acceptsElements (wanted : CellType) : CellType → Bool
  | .list element =>
    element == .undetermined || wanted.accepts element || wanted.acceptsElements element
  | _ => false

namespace Param

/-- Whether a cell matches the parameter directly or element by element. -/
def acceptsBroadcast (p : Param) (cell : Cell) : Bool :=
  p.accepts cell || p.type.acceptsElements cell.type

/-- Whether a cell has to be taken apart before the parameter accepts it. -/
def spreads (p : Param) (cell : Cell) : Bool :=
  !p.byRef && !p.accepts cell && p.acceptsBroadcast cell

end Param

/-- What the machine does around every call of an overload. -/
structure Flags where
  /-- Apply element by element to lists that a parameter does not accept directly. -/
  listable : Bool
  /-- All handles among the arguments must have the same owner. -/
  matchOwner : Bool
  deriving DecidableEq

def Flags.plain : Flags := ⟨false, false⟩

/-- One overload's name, parameters, return type and flags. -/
structure Signature where
  name : String
  params : List Param
  returns : CellType
  flags : Flags

namespace Signature

def arity (s : Signature) : Nat := s.params.length

def requiredCount (s : Signature) : Nat := (s.params.filter Param.isRequired).length

/-- The position of the parameter of a given name. -/
def position? (s : Signature) (name : String) : Option Nat :=
  s.params.findIdx? fun p => p.name == name

/-- Whether some positional call could match both signatures.  The smallest argument count that
both accept is looked at: the overloads cannot be told apart if every position up to it could
take the same value. -/
def isAmbiguousWith (s t : Signature) : Bool :=
  let count := max s.requiredCount t.requiredCount
  count ≤ min s.arity t.arity &&
    ((s.params.take count).zip (t.params.take count)).all fun (p, q) => p.type.overlaps q.type

end Signature

/-! ## Written form -/

def Param.render (p : Param) : String :=
  let head := p.name ++ (if p.byRef then "<->" else "->") ++ p.type.render ++
    (if p.nullable then "*" else "")
  match p.default with
  | some default => "\x7b" ++ head ++ " = " ++ default.render ++ "\x7d"
  | none => head

/-- The written form `Name[p->TYPE, q<->TYPE*] =: RETURN`; an optional parameter stands in
braces with its default. -/
def Signature.render (s : Signature) : String :=
  s.name ++ "[" ++ ", ".intercalate (s.params.map Param.render) ++ "] =: " ++ s.returns.render

end CellMachine
