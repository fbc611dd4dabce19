import CellMachine.Cell.Sequence

/-!
# Variable tables

Each level of call nesting has one table.  The names `INPUT`, `OUTPUT` and `NULL` denote the
ambient streams at every level; they are never stored in a table and can neither be redefined
nor removed.  A variable keeps its type: only related numeric types replace one another, and an
empty list takes over the element tag of the list it replaces.
-/

namespace CellMachine

/-- The stream behind a protected name. -/
def protectedValue? (name : String) : Option Cell :=
  if name = "INPUT" then some (.stream .input)
  else if name = "OUTPUT" then some (.stream .output)
  else if name = "NULL" then some (.stream .discard)
  else none

def isProtected (name : String) : Bool := (protectedValue? name).isSome

/-- Why a table refuses an operation. -/
inductive ScopeError where
  | readOnly (name : String)
  | typeChange (name : String) (existing attempted : CellType)
  | undefined (name : String)
  deriving DecidableEq

def ScopeError.message : ScopeError → String
  | readOnly name => "variable \"" ++ name ++ "\" is read-only"
  | typeChange name existing attempted =>
    "variable \"" ++ name ++ "\" is bound to " ++ existing.render ++ ", cannot rebind to " ++
      attempted.render
  | undefined name => "variable \"" ++ name ++ "\" is undefined"

/-- What is stored when a new value replaces an old one, `none` if their types do not agree. -/
def Cell.replacing? (old new : Cell) : Option Cell :=
  match old, new with
  | .list s _, .list t items =>
    if s = t then some new
    else ((CellList.mk t items).adopt s).map CellList.toCell
  | _, _ =>
    if old.type = new.type || (old.type.isNumeric && new.type.isNumeric) then some new else none

/-- The variables of one level, each name at most once. -/
structure Scope where
  bindings : List (String × Cell)

namespace Scope

def empty : Scope := ⟨[]⟩

/-- The stored value of a name; protected names are not stored. -/
def get? (s : Scope) (name : String) : Option Cell := s.bindings.lookup name

/-- The value of a name, protected names included. -/
def lookup (s : Scope) (name : String) : Option Cell :=
  match protectedValue? name with
  | some cell => some cell
  | none => s.get? name

def isDefined (s : Scope) (name : String) : Bool := (s.lookup name).isSome

/-- Store a value under a name, in place of an older one. -/
def store (name : String) (cell : Cell) : List (String × Cell) → List (String × Cell)
  | [] => [(name, cell)]
  | (key, old) :: rest =>
    if key = name then (key, cell) :: rest else (key, old) :: store name cell rest

/-- Bind a name; the table is unchanged if that is refused. -/
def define (s : Scope) (name : String) (cell : Cell) : Except ScopeError Scope :=
  if isProtected name then .error (.readOnly name)
  else
    match s.get? name with
    | none => .ok ⟨store name cell s.bindings⟩
    | some old =>
      match old.replacing? cell with
      | some cell => .ok ⟨store name cell s.bindings⟩
      | none => .error (.typeChange name old.type cell.type)

/-- Remove a binding and hand out its value. -/
def remove (s : Scope) (name : String) : Except ScopeError (Cell × Scope) :=
  if isProtected name then .error (.readOnly name)
  else
    match s.get? name with
    | none => .error (.undefined name)
    | some cell => .ok (cell, ⟨s.bindings.filter fun binding => binding.1 != name⟩)

/-- How many variables are stored. -/
def size (s : Scope) : Nat := s.bindings.length

end Scope
end CellMachine
