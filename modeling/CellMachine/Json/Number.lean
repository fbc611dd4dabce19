import CellMachine.Json.Basic
import CellMachine.Number.Decimal

/-!
# What JSON numbers denote

A number without point and exponent is an integer if it fits sixty-four bits.  All others are
floats: as many leading digits as fit sixty-four bits are taken, and the result is scaled by a
power of ten in floating-point arithmetic.  That rounds more than once, so it is NOT always the
float nearest to the written number.
-/

namespace CellMachine
namespace Json

/-- The value of a number. -/
inductive Number where
  | natural (n : Nat)
  /-- Minus a positive number. -/
  | negative (n : Nat)
  | float (x : Binary64)
  deriving DecidableEq

/-- The bound of sixty-four bits. -/
def wordBound : Nat := 0x10000000000000000

/-- The digits that fit sixty-four bits behind `acc`: their value, and the digits left over. -/
def fitting (acc : Nat) : List Char → Nat × List Char
  | [] => (acc, [])
  | c :: rest =>
    let next := acc * 10 + (c.toNat - 48)
    if next < wordBound then fitting next rest else (acc, c :: rest)

/-- The float nearest to a power of ten. -/
def powerOfTen (n : Nat) : Binary64 := .ofMagnitude false (Decimal.nearest ⟨1, n⟩)

/-- The greatest exponent of a finite power of ten. -/
def maxPower : Nat := 308

/-- Scale a float by a power of ten, `none` if it overflows.  An exponent below the least is
taken in several steps, of which there are at most as many as allowed. -/
def scale? : Nat → Binary64 → Int → Option Binary64
  | steps, x, exponent =>
    if exponent.natAbs ≤ maxPower then
      if 0 ≤ exponent then
        let y := x.mul (powerOfTen exponent.natAbs)
        if y.isInfinite then none else some y
      else some (x.div (powerOfTen exponent.natAbs))
    else if x.isZero then some x
    else if 0 ≤ exponent then none
    else
      match steps with
      | 0 => some x
      | steps + 1 => scale? steps (x.div (powerOfTen maxPower)) (exponent + maxPower)

/-- The written exponent; `none` if its digits do not fit thirty-one bits. -/
def exponentOf (e : Bool × List Char) : Option Int :=
  let n : Nat := e.2.foldl (fun acc c => acc * 10 + (c.toNat - 48)) 0
  if n < 0x80000000 then some (if e.1 then -(n : Int) else n) else none

/-- The magnitude of a number with a point, an exponent or too many digits. -/
def magnitude? (t : NumberText) : Option Binary64 :=
  let (front, dropped) := fitting 0 t.whole
  let (significand, ignored) := fitting front t.part
  let shift : Int := (dropped.length : Int) - ((t.part.length : Int) - ignored.length)
  let x := Binary64.ofInt significand
  match t.exponent with
  | none => scale? 4 x shift
  | some e =>
    match exponentOf e with
    | some exponent => scale? 4 x (shift + exponent)
    | none => if significand ≠ 0 ∧ !e.1 then none else some ⟨0⟩

/-- The value of a number; `none` if it is beyond the floats.  Minus zero is a float. -/
def NumberText.value? (t : NumberText) : Option Number :=
  let (n, dropped) := fitting 0 t.whole
  if dropped.isEmpty && t.part.isEmpty && t.exponent.isNone then
    if !t.negative then some (.natural n)
    else if n ≠ 0 ∧ n ≤ 0x8000000000000000 then some (.negative n)
    else some (.float (Binary64.ofInt n).neg)
  else (magnitude? t).map fun x => .float (if t.negative then x.neg else x)

end Json
end CellMachine
