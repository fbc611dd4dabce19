import CellMachine.Core.Number

/-!
# Core comparison and logic

Numbers compare by value across their kinds and texts by code points.  Equality looks into
lists item by item, whatever their element tags; cells of other kinds are equal as cells.
-/

namespace CellMachine
namespace Core

/-- The order of two numbers or two texts; nothing else is comparable. -/
def compare? (a b : Cell) : Option Ordering :=
  match a, b with
  | .text s, .text t => some (if s < t then .lt else if s = t then .eq else .gt)
  | _, _ =>
    match operands? a b with
    | some (.integers a b) => some (compare a.toInt b.toInt)
    | some (.rationals a b) => some (a.compare b)
    | some (.floats a b) => a.compare? b
    | none => none

mutual

/-- Equality of values. -/
def valuesEqual : Cell → Cell → Bool
  | .list _ xs, .list _ ys => allValuesEqual xs ys
  | a, b =>
    match Num.ofCell? a, Num.ofCell? b with
    | some _, some _ => compare? a b == some .eq
    | _, _ => a.equals b

/-- Item by item equality of two lists of one length. -/
def allValuesEqual : List Cell → List Cell → Bool
  | [], [] => true
  | x :: xs, y :: ys => valuesEqual x y && allValuesEqual xs ys
  | _, _ => false

end

def equal (a b : Cell) : Cell := .boolean (valuesEqual a b)

def notEqual (a b : Cell) : Cell := .boolean (!valuesEqual a b)

/-- Whether two cells are comparable and their order passes a test. -/
def ordered (test : Ordering → Bool) (a b : Cell) : Cell := .boolean ((compare? a b).any test)

def less : Cell → Cell → Cell := ordered Ordering.isLT

def greater : Cell → Cell → Cell := ordered Ordering.isGT

def lessEqual : Cell → Cell → Cell := ordered Ordering.isLE

def greaterEqual : Cell → Cell → Cell := ordered Ordering.isGE

/-- A connective on two booleans. -/
def logical (connective : Bool → Bool → Bool) (a b : Cell) : Cell :=
  match a.asBoolean?, b.asBoolean? with
  | some a, some b => .boolean (connective a b)
  | _, _ => .error "Error: Boolean operands expected"

def conjunction : Cell → Cell → Cell := logical (· && ·)

def disjunction : Cell → Cell → Cell := logical (· || ·)

def negation (a : Cell) : Cell :=
  match a.asBoolean? with
  | some a => .boolean !a
  | none => .error "Error: Boolean operand expected"

end Core
end CellMachine
