import CellMachine.Number.Rational

/-!
# Binary floating-point numbers

A float cell holds the sixty-four bits of an IEEE 754 binary64 number, so that two cells are
the same value exactly when their bits agree; the numeric comparison is a separate operation.
The module also rounds an exact quotient of natural numbers to the nearest binary64 number,
which is how decimal texts and integers become floats.
-/

namespace CellMachine

/-- The bits of a binary64 number: one sign bit, eleven exponent bits, fifty-two fraction bits. -/
structure Binary64 where
  bits : UInt64
  deriving DecidableEq

namespace Binary64

def ofFloat (x : Float) : Binary64 := ⟨x.toBits⟩

def toFloat (x : Binary64) : Float := Float.ofBits x.bits

/-! ## Parts -/

/-- The sign bit. -/
def signBit : Nat := 0x8000000000000000

/-- The bit in front of the fraction that a normal significand has. -/
def leadingBit : Nat := 0x10000000000000

def isNegative (x : Binary64) : Bool := signBit ≤ x.bits.toNat

def exponentField (x : Binary64) : Nat := x.bits.toNat / leadingBit % 2048

def fraction (x : Binary64) : Nat := x.bits.toNat % leadingBit

def isNaN (x : Binary64) : Bool := x.exponentField == 2047 && x.fraction != 0

def isInfinite (x : Binary64) : Bool := x.exponentField == 2047 && x.fraction == 0

/-- The integer `m` of the magnitude `m · 2 ^ q` of a finite number. -/
def significand (x : Binary64) : Nat :=
  if x.exponentField = 0 then x.fraction else leadingBit + x.fraction

/-- The exponent `q` of the magnitude `m · 2 ^ q` of a finite number. -/
def scale (x : Binary64) : Int :=
  if x.exponentField = 0 then -1074 else x.exponentField - 1075

/-- The number with the given sign and the given bits below the sign. -/
def ofMagnitude (negative : Bool) (magnitude : Nat) : Binary64 :=
  ⟨UInt64.ofNat (if negative then signBit + magnitude else magnitude)⟩

/-- The bits of infinity below the sign; every finite magnitude has smaller bits. -/
def infinityBits : Nat := 2047 * leadingBit

def infinity (negative : Bool) : Binary64 := ofMagnitude negative infinityBits

def nan : Binary64 := ⟨0x7ff8000000000000⟩

/-! ## Rounding a quotient -/

/-- The quotient `n / d` to the nearest natural number, a half to the even neighbour. -/
def roundHalfEven (n d : Nat) : Nat :=
  let q := n / d
  let r := n % d
  if 2 * r < d then q else if d < 2 * r then q + 1 else q + q % 2

/-- The quotient `n / d` divided by `b ^ e`, as a pair. -/
def shift (b : Nat) (e : Int) (n d : Nat) : Nat × Nat :=
  if 0 ≤ e then (n, d * Nat.pow b e.toNat) else (n * Nat.pow b (-e).toNat, d)

/-- Whether `b ^ e ≤ n / d`. -/
def reaches (b : Nat) (e : Int) (n d : Nat) : Bool :=
  let (n', d') := shift b e n d
  d' ≤ n'

/-- The largest `e` with `2 ^ e ≤ n / d`, for positive `n` and `d`. -/
def floorLog2 (n d : Nat) : Int :=
  let e : Int := n.log2 - d.log2
  if reaches 2 e n d then e else e - 1

/-- The magnitude bits of the binary64 number nearest to `n / d`, a half to the even one; beyond
the finite range that is infinity.  Consecutive magnitudes have consecutive bits, so a
significand that rounds up to the next power of two needs no further step. -/
def nearest (n d : Nat) : Nat :=
  if n = 0 then 0
  else
    let q : Int := max (floorLog2 n d - 52) (-1074)
    let (n', d') := shift 2 q n d
    min ((q + 1074).toNat * leadingBit + roundHalfEven n' d') infinityBits

/-- The nearest number to an integer. -/
def ofInt (z : Int) : Binary64 := ofMagnitude (z < 0) (nearest z.natAbs 1)

def ofInteger (i : Int64) : Binary64 := ofInt i.toInt

/-! ## Arithmetic and order -/

def add (x y : Binary64) : Binary64 := ofFloat (x.toFloat + y.toFloat)

def sub (x y : Binary64) : Binary64 := ofFloat (x.toFloat - y.toFloat)

def mul (x y : Binary64) : Binary64 := ofFloat (x.toFloat * y.toFloat)

def div (x y : Binary64) : Binary64 := ofFloat (x.toFloat / y.toFloat)

def pow (x y : Binary64) : Binary64 := ofFloat (x.toFloat.pow y.toFloat)

/-- The number with the other sign. -/
def neg (x : Binary64) : Binary64 := ⟨x.bits ^^^ 0x8000000000000000⟩

/-- Numeric equality: the two zeros are equal and a NaN equals nothing. -/
def equals (x y : Binary64) : Bool := x.toFloat == y.toFloat

def isZero (x : Binary64) : Bool := x.equals ⟨0⟩

/-- The numeric order; a NaN is not comparable. -/
def compare? (x y : Binary64) : Option Ordering :=
  if x.toFloat < y.toFloat then some .lt
  else if y.toFloat < x.toFloat then some .gt
  else if x.equals y then some .eq
  else none

end Binary64

/-- The nearest floats of numerator and denominator, divided. -/
def Rational.toBinary64 (q : Rational) : Binary64 :=
  (Binary64.ofInteger q.num).div (Binary64.ofInteger q.den)

end CellMachine
