/-!
# Type tags

A type tag describes a cell, the elements of a list or a parameter.  Three tags never describe
a single cell: `undetermined` is the element tag of a list that has not seen an element, `any`
is the wildcard of parameters, and `number` covers lists of mixed numeric types.
-/

namespace CellMachine

/-- Tag of a cell, a list element or a parameter. -/
inductive CellType where
  | undetermined
  | any
  | number
  | boolean
  | integer
  | float
  | rational
  | text
  | list (element : CellType)
  | reference
  /-- A domain object, by the name of its domain type. -/
  | handle (name : String)
  | error
  | null
  | input
  | output
  deriving DecidableEq, Inhabited

namespace CellType

/-- The numeric tags, `number` included. -/
def isNumeric : CellType → Bool
  | integer | float | rational | number => true
  | _ => false

/-- Whether a parameter of this type accepts a value of the other type. -/
def accepts : CellType → CellType → Bool
  | any, _ => true
  | number, actual => actual.isNumeric
  | list wanted, list given => given == undetermined || wanted.accepts given
  | wanted, given => wanted == given

/-- Whether some value could be accepted by both types. -/
def overlaps : CellType → CellType → Bool
  | list a, list b => a.overlaps b
  | a, b => a.accepts b || b.accepts a

/-- The common element tag of two tags, `none` if they cannot share a list. -/
def unify : CellType → CellType → Option CellType
  | list a, list b => (a.unify b).map list
  | a, b =>
    if a = b then some a
    else if a = undetermined then some b
    else if b = undetermined then some a
    else if a.isNumeric && b.isNumeric then some number
    else none

/-- The written form of a type. -/
def render : CellType → String
  | undetermined => "UNDETERMINED"
  | any => "ANY"
  | number => "NUMBER"
  | boolean => "BOOLEAN"
  | integer => "INTEGER"
  | float => "FLOAT"
  | rational => "RATIONAL"
  | text => "TEXT"
  | list element => "LIST(" ++ element.render ++ ")"
  | reference => "REFERENCE"
  | handle name => name
  | error => "ERROR"
  | null => "NULL"
  | input => "INPUT"
  | output => "OUTPUT"

/-- A tag unifies with itself to itself, lists of equal element tags included. -/
theorem unify_self (t : CellType) : t.unify t = some t := by
  induction t with
  | list element ih => simp [unify, ih]
  | _ => simp [unify]

end CellType
end CellMachine
