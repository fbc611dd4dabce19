import CellMachine.Call.Native
import CellMachine.Signature.Basic

/-!
# Overloads and their registry

Every function name has its overloads in the order of their registration.  Registration only
appends; an overload that cannot be told apart from an earlier one of the same name is refused
and the earlier one is kept.
-/

namespace CellMachine

/-- What runs when an overload is invoked. -/
inductive Body where
  | native (resolve : Args → Native)
  /-- The compiled body of a user-defined function. -/
  | user (code : Code)

def Body.render : Body → String
  | native _ => "Native"
  | user code => "User(" ++ Integer.renderNat code.size ++ " instructions)"

/-- A signature with its body. -/
structure Overload where
  signature : Signature
  body : Body

/-- The overloads of every function name, the names in order of first registration. -/
structure Registry where
  entries : List (String × List Overload)

namespace Registry

def empty : Registry := ⟨[]⟩

/-- The overloads registered under a name. -/
def get? (r : Registry) (name : String) : Option (List Overload) := r.entries.lookup name

/-- The overloads registered under a name, none for an unknown one. -/
def overloads (r : Registry) (name : String) : List Overload := (r.get? name).getD []

/-- Append an overload to the entries of a name. -/
def append (name : String) (overload : Overload) :
    List (String × List Overload) → List (String × List Overload)
  | [] => [(name, [overload])]
  | (key, overloads) :: rest =>
    if key = name then (key, overloads ++ [overload]) :: rest
    else (key, overloads) :: append name overload rest

/-- Whether an overload can be told apart from all earlier ones of its name. -/
def admits (r : Registry) (overload : Overload) : Bool :=
  !(r.overloads overload.signature.name).any fun earlier =>
    earlier.signature.isAmbiguousWith overload.signature

/-- Register an overload under the name of its signature. -/
def register (r : Registry) (overload : Overload) : Except Diagnostic Registry :=
  if r.admits overload then .ok ⟨append overload.signature.name overload r.entries⟩
  else .error (.ambiguousOverload overload.signature.name)

/-- How many names are registered. -/
def size (r : Registry) : Nat := r.entries.length

/-- The registered names in order of their code points. -/
def names (r : Registry) : List String :=
  (r.entries.map Prod.fst).mergeSort fun a b => a ≤ b

end Registry
end CellMachine
