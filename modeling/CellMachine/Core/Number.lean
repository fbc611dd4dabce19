import CellMachine.Call.Args

/-!
# Core arithmetic

Operands are promoted from integers over fractions to floats, to the wider of the two.  Integer
and fraction results are exact or an overflow error; dividing by zero is an error of its own.
-/

namespace CellMachine
namespace Core

/-- A numeric operand. -/
inductive Num where
  | integer (value : Int64)
  | rational (value : Rational)
  | float (value : Binary64)

/-- Two numeric operands of one kind. -/
inductive NumPair where
  | integers (a b : Int64)
  | rationals (a b : Rational)
  | floats (a b : Binary64)

namespace Num

def ofCell? : Cell → Option Num
  | .integer i => some (integer i)
  | .rational q => some (rational q)
  | .float x => some (float x)
  | _ => none

def toBinary64 : Num → Binary64
  | integer i => .ofInteger i
  | rational q => q.toBinary64
  | float x => x

/-- Both operands as the wider of their two kinds. -/
def promote : Num → Num → NumPair
  | integer a, integer b => .integers a b
  | integer a, rational b => .rationals (.ofInteger a) b
  | rational a, integer b => .rationals a (.ofInteger b)
  | rational a, rational b => .rationals a b
  | a, b => .floats a.toBinary64 b.toBinary64

end Num

/-- Two cells as numeric operands of one kind. -/
def operands? (a b : Cell) : Option NumPair := do
  return (← Num.ofCell? a).promote (← Num.ofCell? b)

def divisionByZero : Cell := .error "Error: Division by zero"

def overflow : Cell := .error "Error: Integer overflow"

def numericExpected : Cell := .error "Error: Numeric operands expected"

/-- An integer result, or the overflow error. -/
def integerOr (result : Option Int64) : Cell := (result.map Cell.integer).getD overflow

/-- A fraction as the result, or the overflow error. -/
def rationalOr (result : Option Rational) : Cell := (result.map Cell.rational).getD overflow

/-- Arithmetic that is defined on all operands. -/
def arithmetic (onIntegers : Int → Int → Int) (onRationals : Rational → Rational → Option Rational)
    (onFloats : Binary64 → Binary64 → Binary64) (a b : Cell) : Cell :=
  match operands? a b with
  | some (.integers a b) => integerOr (Integer.narrow? (onIntegers a.toInt b.toInt))
  | some (.rationals a b) => rationalOr (onRationals a b)
  | some (.floats a b) => .float (onFloats a b)
  | none => numericExpected

/-- The sum; two texts are joined. -/
def plus (a b : Cell) : Cell :=
  match a, b with
  | .text s, .text t => .text (s ++ t)
  | _, _ => arithmetic (· + ·) Rational.add? Binary64.add a b

def minus (a b : Cell) : Cell := arithmetic (· - ·) Rational.sub? Binary64.sub a b

def times (a b : Cell) : Cell := arithmetic (· * ·) Rational.mul? Binary64.mul a b

/-- The quotient; that of two integers is a fraction. -/
def divide (a b : Cell) : Cell :=
  match operands? a b with
  | some (.integers a b) => if b.toInt = 0 then divisionByZero else rationalOr (Rational.make? a b)
  | some (.rationals a b) => if b.isZero then divisionByZero else rationalOr (a.div? b)
  | some (.floats a b) => if b.isZero then divisionByZero else .float (a.div b)
  | none => numericExpected

/-- A natural power of an integer, if it fits a word.  Exponents of thirty-two bits are taken;
beyond the sixty-third power only the bases of magnitude at most one stay small. -/
def integerPower? (base : Int64) (exponent : Nat) : Option Int64 :=
  if 0x100000000 ≤ exponent then none
  else if base.toInt.natAbs ≤ 1 then
    Integer.narrow? (Int.pow base.toInt (if exponent = 0 then 0 else 2 - exponent % 2))
  else if 63 < exponent then none
  else Integer.narrow? (Int.pow base.toInt exponent)

/-- The power.  Integers to a natural power stay integers, to a negative one they become
fractions, and fractions to a whole power stay fractions; the rest are floats. -/
def power (a b : Cell) : Cell :=
  match operands? a b with
  | some (.integers a b) =>
    if b.toInt < 0 then
      if a.toInt = 0 then divisionByZero else rationalOr ((Rational.ofInteger a).pow? b)
    else integerOr (integerPower? a b.toInt.toNat)
  | some (.rationals a b) =>
    if b.isInteger then
      if a.isZero && decide (b.num.toInt < 0) then divisionByZero else rationalOr (a.pow? b.num)
    else .float (a.toBinary64.pow b.toBinary64)
  | some (.floats a b) => .float (a.pow b)
  | none => numericExpected

/-- Integer arithmetic with a divisor. -/
def integerDivision (operation : Int → Int → Int) (a b : Cell) : Cell :=
  match a.asInteger?, b.asInteger? with
  | some a, some b =>
    if b.toInt = 0 then divisionByZero
    else if a = Int64.minValue ∧ b.toInt = -1 then overflow
    else integerOr (Integer.narrow? (operation a.toInt b.toInt))
  | _, _ => .error "Error: Integer operands expected"

/-- The quotient rounded toward zero. -/
def integerDivide : Cell → Cell → Cell := integerDivision Int.tdiv

/-- The remainder of the quotient rounded toward zero; it has the sign of the dividend. -/
def modulus : Cell → Cell → Cell := integerDivision Int.tmod

def negate (a : Cell) : Cell :=
  match Num.ofCell? a with
  | some (.integer i) => integerOr (Integer.narrow? (-i.toInt))
  | some (.rational q) => rationalOr q.neg?
  | some (.float x) => .float x.neg
  | none => .error "Error: Numeric operand expected"

end Core
end CellMachine
