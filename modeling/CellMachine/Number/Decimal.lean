import CellMachine.Number.Binary64

/-!
# Decimal texts of floats

Reading rounds the exact value of the text once, to the nearest binary64 number.  Writing takes
the fewest digits that read back, and of those the nearest to the number.
-/

namespace CellMachine

open Integer

/-- The number `digits · 10 ^ exponent`. -/
structure Decimal where
  digits : Nat
  exponent : Int
  deriving DecidableEq

namespace Decimal

/-! ## Reading -/

/-- The magnitude bits nearest to a decimal.  A decimal far outside the finite range is decided
by its length alone, so that no huge power is computed. -/
def nearest (x : Decimal) : Nat :=
  let size : Int := x.exponent + (Nat.toDigits 10 x.digits).length
  if x.digits = 0 ∨ size < -400 then 0
  else if 400 < size then Binary64.infinityBits
  else
    let (n, d) := Binary64.shift 10 (-x.exponent) x.digits 1
    Binary64.nearest n d

/-- An exponent mark with its optional sign and digits, or nothing at all. -/
def readExponent? : List Char → Option Int
  | [] => some 0
  | c :: rest =>
    if c = 'e' ∨ c = 'E' then
      match rest with
      | '-' :: ds => (natural? ds).map fun n => -(n : Int)
      | '+' :: ds => (natural? ds).map fun n => (n : Int)
      | ds => (natural? ds).map fun n => (n : Int)
    else none

/-- Digits with an optional point, at least one digit in all, and an optional exponent. -/
def readUnsigned? (text : List Char) : Option Decimal := do
  let whole := text.takeWhile Char.isDigit
  let rest := text.dropWhile Char.isDigit
  let (part, rest) := match rest with
    | '.' :: more => (more.takeWhile Char.isDigit, more.dropWhile Char.isDigit)
    | _ => ([], rest)
  let digits ← natural? (whole ++ part)
  let exponent ← readExponent? rest
  return ⟨digits, exponent - part.length⟩

/-- A magnitude: a decimal, or one of the words for infinity and NaN in any case. -/
def readMagnitude? (negative : Bool) (text : List Char) : Option Binary64 :=
  let word := String.ofList (text.map Char.toLower)
  if word = "inf" ∨ word = "infinity" then some (Binary64.infinity negative)
  else if word = "nan" then some Binary64.nan
  else (readUnsigned? text).map fun x => Binary64.ofMagnitude negative x.nearest

/-- Read an optional sign and a magnitude, nothing else. -/
def read? : List Char → Option Binary64
  | '-' :: rest => readMagnitude? true rest
  | '+' :: rest => readMagnitude? false rest
  | text => readMagnitude? false text

/-! ## Fewest digits -/

/-- The largest `e` with `10 ^ e ≤ n / d`, searched upwards from `e`. -/
def climbLog10 (n d : Nat) : Nat → Int → Int
  | 0, e => e
  | steps + 1, e => if Binary64.reaches 10 (e + 1) n d then climbLog10 n d steps (e + 1) else e

/-- The largest `e` with `10 ^ e ≤ n / d`: the binary logarithm gives it up to one. -/
def floorLog10 (n d : Nat) : Int :=
  climbLog10 n d 4 ((Binary64.floorLog2 n d * 30103).fdiv 100000 - 1)

/-- The reals that round to `m · 2 ^ q`, in units of `2 ^ (q - 2)`: half a step up, and half a
step down, which is half as long below a power of two.  The ends belong to it iff `m` is even. -/
structure Interval where
  lower : Nat
  middle : Nat
  upper : Nat
  closed : Bool

def Interval.of (m : Nat) (q : Int) : Interval where
  lower := 4 * m - (if m = Binary64.leadingBit ∧ -1074 < q then 1 else 2)
  middle := 4 * m
  upper := 4 * m + 2
  closed := m % 2 == 0

/-- Whether the grid point `x` lies in the interval, where one unit is `un / ud` grid steps. -/
def Interval.contains (i : Interval) (un ud x : Nat) : Bool :=
  if i.closed then i.lower * un ≤ x * ud && x * ud ≤ i.upper * un
  else i.lower * un < x * ud && x * ud < i.upper * un

/-- The better of the two neighbours of the middle on a grid, if one lies in the interval; when
both do, the nearer, and the upper one of two equally near. -/
def Interval.pick? (i : Interval) (un ud : Nat) : Option Nat :=
  let below := i.middle * un / ud
  let above := below + 1
  match i.contains un ud below, i.contains un ud above with
  | true, true => some (if 2 * (i.middle * un % ud) < ud then below else above)
  | true, false => some below
  | false, true => some above
  | false, false => none

/-- Move trailing zeros of the digits into the exponent. -/
def strip : Nat → Decimal → Decimal
  | 0, x => x
  | fuel + 1, x =>
    if x.digits ≠ 0 ∧ x.digits % 10 = 0 then strip fuel ⟨x.digits / 10, x.exponent + 1⟩ else x

/-- The shortest decimal that reads back as `m · 2 ^ q`, the nearest of those. -/
def shortest (m : Nat) (q : Int) : Decimal :=
  let interval := Interval.of m q
  let (n, d) := Binary64.shift 2 (-q) m 1
  let top := floorLog10 n d
  let attempt (count : Nat) : Option Decimal :=
    let p : Int := top - count
    let (un, ud) := Binary64.shift 2 (2 - q) 1 1
    let (un, ud) := Binary64.shift 10 p un ud
    (interval.pick? un ud).map fun x => strip 20 ⟨x, p⟩
  ((List.range 17).findSome? attempt).getD ⟨m, 0⟩

/-! ## Writing -/

/-- Digits with a point behind the first `whole` of them, padded with zeros. -/
def positional (digits : List Char) (exponent : Int) : List Char :=
  let length : Int := digits.length
  let whole : Int := length + exponent
  if 0 ≤ exponent then digits ++ List.replicate exponent.toNat '0' ++ ['.', '0']
  else if 0 < whole then digits.take whole.toNat ++ '.' :: digits.drop whole.toNat
  else '0' :: '.' :: List.replicate (-whole).toNat '0' ++ digits

/-- One digit, the others behind a point, and the exponent of the first digit. -/
def scientific (digits : List Char) (exponent : Int) : List Char :=
  let lead : Int := exponent + digits.length - 1
  let mantissa := match digits with
    | first :: second :: rest => first :: '.' :: second :: rest
    | short => short
  mantissa ++ 'e' :: (renderInt lead).toList

/-- Magnitudes from `10⁻⁴` up to but excluding `10¹⁶` are written positionally, always with a
digit behind the point; the others scientifically. -/
def render (x : Decimal) : String :=
  let digits := Nat.toDigits 10 x.digits
  let lead : Int := x.exponent + digits.length - 1
  String.ofList (if -4 ≤ lead ∧ lead < 16 then positional digits x.exponent
    else scientific digits x.exponent)

end Decimal

/-- The shortest text that reads back as the same number. -/
def Binary64.render (x : Binary64) : String :=
  if x.isNaN then "NaN"
  else
    let sign := if x.isNegative then "-" else ""
    if x.isInfinite then sign ++ "inf"
    else if x.significand = 0 then sign ++ "0.0"
    else sign ++ (Decimal.shortest x.significand x.scale).render

end CellMachine
