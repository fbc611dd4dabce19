/-!
# Diagnostics

The numbered catalog of recoverable failures.  Each has a stable code; the line written to the
error stream is its message behind a fixed label.
-/

namespace CellMachine

/-- One catalog entry with its arguments. -/
inductive Diagnostic where
  | undefinedFunction (function : String)
  | noMatchingOverload (function : String)
  | unknownParameter (function param : String)
  | parameterBoundTwice (function param : String)
  | missingParameter (function param : String)
  | ownerMismatch (function : String)
  | listLengthMismatch (function : String)
  | mixedListTypes
  | typeChange (name : String)
  | readOnlyAssign (name : String)
  | undefinedListElement (name : String)
  | unassignNonReference
  | unassignUndefined (name : String)
  | readOnlyRemove (name : String)
  | undefinedByReference
  | ambiguousOverload (function : String)
  | undefinedByValue
  | helpNotFound (function : String)
  deriving DecidableEq

namespace Diagnostic

/-- The stable catalog number. -/
def code : Diagnostic → Nat
  | undefinedFunction _ => 25
  | noMatchingOverload _ => 26
  | unknownParameter _ _ => 27
  | parameterBoundTwice _ _ => 28
  | missingParameter _ _ => 29
  | ownerMismatch _ => 30
  | listLengthMismatch _ => 31
  | mixedListTypes => 35
  | typeChange _ => 42
  | readOnlyAssign _ => 46
  | undefinedListElement _ => 49
  | unassignNonReference => 53
  | unassignUndefined _ => 54
  | readOnlyRemove _ => 55
  | undefinedByReference => 59
  | ambiguousOverload _ => 60
  | undefinedByValue => 61
  | helpNotFound _ => 62

def message : Diagnostic → String
  | undefinedFunction f => "Function " ++ f ++ "[] undefined"
  | noMatchingOverload f => "No matching parameter specification found for " ++ f ++ "[]"
  | unknownParameter f p => "Parameter \"" ++ p ++ "\" is not defined for " ++ f ++ "[]"
  | parameterBoundTwice f p => "Parameter \"" ++ p ++ "\" of " ++ f ++ "[] bound more than once"
  | missingParameter f p => "Required parameter \"" ++ p ++ "\" missing in " ++ f ++ "[]"
  | ownerMismatch f => "Arguments to " ++ f ++ "[] belong to different owning objects"
  | listLengthMismatch f => "Mismatched list lengths in listable call to " ++ f ++ "[]"
  | mixedListTypes => "Cannot create a list of mixed types"
  | typeChange x => "Cannot change the type of variable \"" ++ x ++ "\""
  | readOnlyAssign x => "Cannot assign to read-only variable \"" ++ x ++ "\""
  | undefinedListElement x => "Cannot insert undefined reference \"" ++ x ++ "\" into a list"
  | unassignNonReference => "UnAssign[] called on a non-reference value"
  | unassignUndefined x => "UnAssign[] called on undefined reference \"" ++ x ++ "\""
  | readOnlyRemove x => "Cannot remove read-only variable \"" ++ x ++ "\""
  | undefinedByReference => "Cannot pass an undefined reference by reference to a function"
  | ambiguousOverload f => "New " ++ f ++ "[] parameters ambiguous with existing function"
  | undefinedByValue => "Cannot pass an undefined reference to a function"
  | helpNotFound f => "Function " ++ f ++ "[] not found"

/-- The line written to the error stream, without its line end. -/
def render (d : Diagnostic) : String := "GCL: " ++ d.message

end Diagnostic
end CellMachine
