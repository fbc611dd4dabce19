import CellMachine.Number.Integer

/-!
# Rational numbers in lowest terms

A rational cell holds a reduced fraction of two words with a positive denominator; the type
carries that invariant.  Arithmetic is exact or refused: every intermediate product and sum has
to fit a word, so an operation may be refused although its reduced result would fit.
-/

namespace CellMachine

open Integer

/-- A fraction in lowest terms with a positive denominator. -/
structure Rational where
  num : Int64
  den : Int64
  den_pos : 0 < den.toInt
  coprime : num.toInt.natAbs.gcd den.toInt.natAbs = 1
  deriving DecidableEq

namespace Rational

/-- A pair of words as a fraction, if it is already in lowest terms. -/
def ofLowest? (num den : Int64) : Option Rational :=
  if h : 0 < den.toInt ∧ num.toInt.natAbs.gcd den.toInt.natAbs = 1 then
    some ⟨num, den, h.1, h.2⟩
  else none

/-- The fraction `num / den` for a positive `den`, divided by the greatest common divisor. -/
def reduce? (num den : Int) : Option Rational := do
  let g : Int := num.natAbs.gcd den.natAbs
  ofLowest? (← narrow? (num / g)) (← narrow? (den / g))

/-- The fraction `num / den`.  It is refused when `den` is zero, or when `den` is negative and
one of the two signs cannot be changed within a word. -/
def make? (num den : Int64) : Option Rational :=
  if den.toInt = 0 then none
  else if den.toInt < 0 then do
    let n ← narrow? (-num.toInt)
    let d ← narrow? (-den.toInt)
    reduce? n.toInt d.toInt
  else reduce? num.toInt den.toInt

/-- A fraction in lowest terms is not changed by being put in lowest terms. -/
theorem make?_num_den (q : Rational) : make? q.num q.den = some q := by
  have hPos := q.den_pos
  have hReduced : reduce? q.num.toInt q.den.toInt = some q := by
    unfold reduce?
    simp only [q.coprime, Int.natCast_one, Int.ediv_one, narrow?_toInt]
    exact dif_pos ⟨q.den_pos, q.coprime⟩
  unfold make?
  rw [if_neg (by omega), if_neg (by omega), hReduced]

/-- A whole number as a fraction over one. -/
def ofInteger (n : Int64) : Rational where
  num := n
  den := 1
  den_pos := by decide
  coprime := by simp

def one : Rational := ofInteger 1

def isZero (q : Rational) : Bool := q.num.toInt == 0

def isInteger (q : Rational) : Bool := q.den.toInt == 1

/-- Sums are taken over the least common denominator, which has to fit, as do both numerators
over it and their sum. -/
def addWith? (combine : Int → Int → Int) (p q : Rational) : Option Rational := do
  let m ← narrow? (p.den.toInt / (p.den.toInt.natAbs.gcd q.den.toInt.natAbs : Nat) * q.den.toInt)
  let x ← narrow? (m.toInt / p.den.toInt * p.num.toInt)
  let y ← narrow? (m.toInt / q.den.toInt * q.num.toInt)
  let s ← narrow? (combine x.toInt y.toInt)
  reduce? s.toInt m.toInt

def add? : Rational → Rational → Option Rational :=
  addWith? (· + ·)

def sub? : Rational → Rational → Option Rational :=
  addWith? (· - ·)

/-- Products cancel the common divisors crosswise before multiplying. -/
def mul? (p q : Rational) : Option Rational := do
  let g : Int := p.num.toInt.natAbs.gcd q.den.toInt.natAbs
  let h : Int := p.den.toInt.natAbs.gcd q.num.toInt.natAbs
  let n ← narrow? (p.num.toInt / g * (q.num.toInt / h))
  let d ← narrow? (p.den.toInt / h * (q.den.toInt / g))
  reduce? n.toInt d.toInt

/-- The unreduced quotient: equal denominators or equal numerators cancel as they are, other
pairs crosswise. -/
def quotient? (p q : Rational) : Option (Int64 × Int64) :=
  if p.den = q.den then some (p.num, q.num)
  else if p.num = q.num then some (q.den, p.den)
  else do
    let g : Int := p.num.toInt.natAbs.gcd q.num.toInt.natAbs
    let h : Int := p.den.toInt.natAbs.gcd q.den.toInt.natAbs
    let n ← narrow? (p.num.toInt / g * (q.den.toInt / h))
    let d ← narrow? (p.den.toInt / h * (q.num.toInt / g))
    return (n, d)

/-- Quotients; `none` for a zero divisor.  The sign goes to the numerator after reduction. -/
def div? (p q : Rational) : Option Rational := do
  if q.isZero then none
  else
    let (n, d) ← quotient? p q
    let g : Int := n.toInt.natAbs.gcd d.toInt.natAbs
    let sign : Int := if d.toInt < 0 then -1 else 1
    ofLowest? (← narrow? (n.toInt / g * sign)) (← narrow? (d.toInt / g * sign))

def neg? (q : Rational) : Option Rational := do
  ofLowest? (← narrow? (-q.num.toInt)) q.den

/-- Raise to a natural power by repeated squaring; no square is taken that the exponent does
not need. -/
def powNat? (base : Rational) (exponent : Nat) : Option Rational :=
  if exponent = 0 then some one
  else if exponent = 1 then some base
  else do
    let square ← mul? base base
    let half ← powNat? square (exponent / 2)
    if exponent % 2 = 1 then mul? half base else return half
termination_by exponent
decreasing_by omega

/-- Raise to an integer power; a negative exponent inverts the base first. -/
def pow? (base : Rational) (exponent : Int64) : Option Rational :=
  if exponent.toInt < 0 then do
    powNat? (← div? one base) exponent.toInt.natAbs
  else powNat? base exponent.toInt.natAbs

/-- The order of the denoted numbers, by cross multiplication. -/
def compare (p q : Rational) : Ordering :=
  Ord.compare (p.num.toInt * q.den.toInt) (q.num.toInt * p.den.toInt)

/-- `n/d`, or `n` alone when the denominator is one. -/
def render (q : Rational) : String :=
  if q.isInteger then Integer.render q.num
  else Integer.render q.num ++ "/" ++ Integer.render q.den

end Rational
end CellMachine
