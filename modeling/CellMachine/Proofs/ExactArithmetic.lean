import CellMachine.Core.Number
import CellMachine.Proofs.Powers

/-!
# Exact arithmetic on cells

Integers and fractions denote rational numbers, and arithmetic on them in any mix gives the exact
result or an error.  The error for a division by zero is given for that and nothing else; for sums,
differences and products of two integers the overflow error is given exactly if the result is no word
(`arithmetic_is_exact`).

Powers are complete beyond that: the overflow error is given only if no cell of the type holds the
result, with one exception.  Exponents of more than thirty-two bits are refused for an integer base
before the base is looked at, so the powers of `0`, `1` and `-1` with such an exponent are NOT given,
although the same powers of fractions are (`power_complete_iff`, `power_of_one_refused`).
-/

namespace CellMachine

open Integer

/-! ## Numbers in cells -/

namespace Cell

/-- The cell is the number as an integer. -/
def IsInteger (cell : Cell) (x : ℚ) : Prop := ∃ i : Int64, cell = .integer i ∧ (i.toInt : ℚ) = x

/-- The cell is the number as a fraction in lowest terms. -/
def IsFraction (cell : Cell) (x : ℚ) : Prop := ∃ q : Rational, cell = .rational q ∧ q.Is x

/-- The cell is the number, as an integer or as a fraction. -/
def Denotes (cell : Cell) (x : ℚ) : Prop := cell.IsInteger x ∨ cell.IsFraction x

theorem IsFraction.not_isInteger {cell : Cell} {x y : ℚ} (h : cell.IsFraction x) :
    ¬cell.IsInteger y := by
  obtain ⟨q, rfl, -⟩ := h
  rintro ⟨i, hCell, -⟩
  cases hCell

theorem denotes_integer (i : Int64) : (Cell.integer i).Denotes i.toInt := Or.inl ⟨i, rfl, rfl⟩

theorem denotes_rational (q : Rational) : (Cell.rational q).Denotes q.value :=
  Or.inr ⟨q, rfl, q.is_value⟩

end Cell

namespace Core

variable {a b : Cell} {x y : ℚ}

/-- The cell is the number, or says that it could not be given. -/
def ExactOrOverflow (result : Cell) (x : ℚ) : Prop := result.Denotes x ∨ result = overflow

theorem overflow_ne_divisionByZero : overflow ≠ divisionByZero := by
  unfold overflow divisionByZero
  simp

theorem ExactOrOverflow.ne_divisionByZero {result : Cell} (h : ExactOrOverflow result x) :
    result ≠ divisionByZero := by
  rintro rfl
  rcases h with (⟨i, hCell, -⟩ | ⟨q, hCell, -⟩) | hOverflow
  · cases hCell
  · cases hCell
  · exact overflow_ne_divisionByZero hOverflow.symm

/-- A partial operation that answers with the number only, or not at all, is exact. -/
theorem exactOrOverflow_getD {α : Type} {make : α → Cell} {answer : Option α}
    (h : ∀ v, answer = some v → (make v).Denotes x) :
    ExactOrOverflow ((answer.map make).getD overflow) x := by
  cases answer with
  | none => exact Or.inr rfl
  | some v => exact Or.inl (h v rfl)

theorem integerOr_eq_overflow_iff {z : Int} : integerOr (narrow? z) = overflow ↔ ¬IsWord z := by
  rw [← narrow?_eq_none_iff]
  cases narrow? z with
  | none => exact iff_of_true rfl rfl
  | some i => exact iff_of_false (fun h => by cases h) (fun h => by cases h)

/-- Two integers stay integers; all other pairs are taken as fractions. -/
theorem operands?_cases (ha : a.Denotes x) (hb : b.Denotes y) :
    (∃ i k : Int64, a = .integer i ∧ b = .integer k ∧ (i.toInt : ℚ) = x ∧ (k.toInt : ℚ) = y) ∨
      ∃ p q : Rational, operands? a b = some (.rationals p q) ∧ p.value = x ∧ q.value = y := by
  rcases ha with ⟨i, rfl, rfl⟩ | ⟨p, rfl, hp⟩
  · rcases hb with ⟨k, rfl, rfl⟩ | ⟨q, rfl, hq⟩
    · exact Or.inl ⟨i, k, rfl, rfl, rfl, rfl⟩
    · exact Or.inr ⟨.ofInteger i, q, rfl, Rational.value_ofInteger i, Rational.is_iff.1 hq⟩
  · rcases hb with ⟨k, rfl, rfl⟩ | ⟨q, rfl, hq⟩
    · exact Or.inr ⟨p, .ofInteger k, rfl, Rational.is_iff.1 hp, Rational.value_ofInteger k⟩
    · exact Or.inr ⟨p, q, rfl, Rational.is_iff.1 hp, Rational.is_iff.1 hq⟩

/-! ## Arithmetic -/

/-- Arithmetic is exact if it is on integers and on fractions. -/
theorem arithmetic_exact {onIntegers : Int → Int → Int}
    {onRationals : Rational → Rational → Option Rational}
    {operation : ℚ → ℚ → ℚ} (onFloats : Binary64 → Binary64 → Binary64)
    (hIntegers : ∀ i k : Int, ((onIntegers i k : Int) : ℚ) = operation i k)
    (hRationals : ∀ p q r, onRationals p q = some r → r.Is (operation p.value q.value))
    (ha : a.Denotes x) (hb : b.Denotes y) :
    ExactOrOverflow (arithmetic onIntegers onRationals onFloats a b) (operation x y) := by
  rcases operands?_cases ha hb with ⟨i, k, rfl, rfl, rfl, rfl⟩ | ⟨p, q, hPair, rfl, rfl⟩
  · refine exactOrOverflow_getD fun j hj => Or.inl ⟨j, rfl, ?_⟩
    rw [narrow?_eq_some_iff.1 hj, hIntegers]
  · unfold arithmetic
    rw [hPair]
    exact exactOrOverflow_getD fun r hr => Or.inr ⟨r, rfl, hRationals p q r hr⟩

theorem plus_exact (ha : a.Denotes x) (hb : b.Denotes y) : ExactOrOverflow (plus a b) (x + y) := by
  have hArithmetic : plus a b = arithmetic (· + ·) Rational.add? Binary64.add a b := by
    rcases ha with ⟨i, rfl, -⟩ | ⟨q, rfl, -⟩ <;> rfl
  rw [hArithmetic]
  exact arithmetic_exact _ (fun i k => Int.cast_add i k)
    (fun _ _ _ h => (Rational.add?_eq_some_iff.1 h).2) ha hb

theorem minus_exact (ha : a.Denotes x) (hb : b.Denotes y) : ExactOrOverflow (minus a b) (x - y) :=
  arithmetic_exact _ (fun i k => Int.cast_sub i k)
    (fun _ _ _ h => (Rational.sub?_eq_some_iff.1 h).2) ha hb

theorem times_exact (ha : a.Denotes x) (hb : b.Denotes y) : ExactOrOverflow (times a b) (x * y) :=
  arithmetic_exact _ (fun i k => Int.cast_mul i k)
    (fun _ _ _ h => Rational.mul?_eq_some_iff.1 h) ha hb

theorem negate_exact (ha : a.Denotes x) : ExactOrOverflow (negate a) (-x) := by
  rcases ha with ⟨i, rfl, rfl⟩ | ⟨q, rfl, hq⟩
  · refine exactOrOverflow_getD fun k hk => Or.inl ⟨k, rfl, ?_⟩
    rw [narrow?_eq_some_iff.1 hk, Int.cast_neg]
  · rw [← Rational.is_iff.1 hq]
    exact exactOrOverflow_getD fun r hr => Or.inr ⟨r, rfl, Rational.neg?_eq_some_iff_is.1 hr⟩

/-- A quotient by zero is an error of its own, and other quotients are exact. -/
theorem divide_exact (ha : a.Denotes x) (hb : b.Denotes y) :
    (y = 0 → divide a b = divisionByZero) ∧ (y ≠ 0 → ExactOrOverflow (divide a b) (x / y)) := by
  rcases operands?_cases ha hb with ⟨i, k, rfl, rfl, rfl, rfl⟩ | ⟨p, q, hPair, rfl, rfl⟩
  · have hDivide : divide (.integer i) (.integer k) =
        if k.toInt = 0 then divisionByZero else rationalOr (Rational.make? i k) := rfl
    rw [hDivide, Int.cast_eq_zero]
    constructor
    · intro hZero
      rw [if_pos hZero]
    · intro hZero
      rw [if_neg (by exact_mod_cast hZero)]
      exact exactOrOverflow_getD fun r hr => Or.inr ⟨r, rfl, Rational.is_of_make? hr⟩
  · have hDivide : divide a b = if q.isZero then divisionByZero else rationalOr (p.div? q) := by
      unfold divide
      rw [hPair]
    rw [hDivide]
    constructor
    · intro hZero
      rw [if_pos (Rational.isZero_iff.2 hZero)]
    · intro hZero
      rw [if_neg fun h => hZero (Rational.isZero_iff.1 h)]
      refine exactOrOverflow_getD fun r hr => Or.inr ⟨r, rfl, ?_⟩
      exact (Rational.div?_eq_some_iff_is.1 hr).2.2

/-- Exact arithmetic.  The operations on fractions give the result in lowest terms or nothing, and
it is said when they give nothing; two words make the fraction that they denote unless the
denominator is zero or a sign cannot be changed.  So sums, differences, products, quotients and
negations of integers and fractions in any mix are exact or an error, which is that of a division by
zero exactly if the divisor is zero, and for two integers that of an overflow exactly if the sum, the
difference or the product is no word. -/
theorem arithmetic_is_exact :
    (∀ p q r : Rational,
      (p.add? q = some r ↔
        (∀ z ∈ p.sumSteps (· + ·) q, IsWord z) ∧ r.Is (p.value + q.value)) ∧
      (p.sub? q = some r ↔
        (∀ z ∈ p.sumSteps (· - ·) q, IsWord z) ∧ r.Is (p.value - q.value)) ∧
      (p.mul? q = some r ↔ r.Is (p.value * q.value)) ∧
      (p.div? q = some r ↔
        q.value ≠ 0 ∧ p.quotient? q ≠ none ∧ r.Is (p.value / q.value)) ∧
      (p.neg? = some r ↔ r.Is (-p.value)) ∧
      ∀ exponent : Int64, p.pow? exponent = some r ↔
        ¬(p.value = 0 ∧ exponent.toInt < 0) ∧ r.Is (p.value ^ exponent.toInt)) ∧
    (∀ num den : Int64,
      (Rational.make? num den = none ↔
        den.toInt = 0 ∨ (den.toInt < 0 ∧ (num.toInt = -2 ^ 63 ∨ den.toInt = -2 ^ 63))) ∧
      ∀ r, Rational.make? num den = some r → r.Is (num.toInt / den.toInt)) ∧
    (∀ (a b : Cell) (x y : ℚ), a.Denotes x → b.Denotes y →
      ExactOrOverflow (plus a b) (x + y) ∧ ExactOrOverflow (minus a b) (x - y) ∧
      ExactOrOverflow (times a b) (x * y) ∧ ExactOrOverflow (negate a) (-x) ∧
      (divide a b = divisionByZero ↔ y = 0) ∧
      (y ≠ 0 → ExactOrOverflow (divide a b) (x / y))) ∧
    ∀ i k : Int64,
      (plus (.integer i) (.integer k) = overflow ↔ ¬IsWord (i.toInt + k.toInt)) ∧
      (minus (.integer i) (.integer k) = overflow ↔ ¬IsWord (i.toInt - k.toInt)) ∧
      (times (.integer i) (.integer k) = overflow ↔ ¬IsWord (i.toInt * k.toInt)) := by
  refine ⟨fun p q r => ?_, fun num den => ?_, fun a b x y ha hb => ?_, fun i k => ?_⟩
  · exact ⟨Rational.add?_eq_some_iff, Rational.sub?_eq_some_iff, Rational.mul?_eq_some_iff,
      Rational.div?_eq_some_iff_is, Rational.neg?_eq_some_iff_is, Rational.pow?_eq_some_iff⟩
  · exact ⟨Rational.make?_eq_none_iff, fun r => Rational.is_of_make?⟩
  · obtain ⟨hZero, hQuotient⟩ := divide_exact ha hb
    refine ⟨plus_exact ha hb, minus_exact ha hb, times_exact ha hb, negate_exact ha,
      ⟨fun hDivide => ?_, hZero⟩, hQuotient⟩
    by_contra hNonzero
    exact (hQuotient hNonzero).ne_divisionByZero hDivide
  · exact ⟨integerOr_eq_overflow_iff, integerOr_eq_overflow_iff, integerOr_eq_overflow_iff⟩

/-- The fraction `-3 / 5`. -/
def minusThreeFifths : Rational := ⟨-3, 5, by decide, by decide⟩

theorem arithmetic_is_exact_mixed :
    (Cell.integer 7).Denotes 7 ∧ (Cell.rational minusThreeFifths).Denotes (-3 / 5) ∧
      (plus (.integer 7) (.rational minusThreeFifths)).Denotes (7 + -3 / 5) ∧
      (divide (.integer 7) (.rational minusThreeFifths)).Denotes (7 / (-3 / 5)) ∧
      divide (.rational minusThreeFifths) (.integer 0) = divisionByZero := by
  have hSeven : (Cell.integer 7).Denotes 7 := Cell.denotes_integer 7
  have hFraction : (Cell.rational minusThreeFifths).Denotes (-3 / 5) :=
    Cell.denotes_rational minusThreeFifths
  obtain ⟨-, -, hCells, -⟩ := arithmetic_is_exact
  obtain ⟨hPlus, -, -, -, -, hDivide⟩ := hCells _ _ _ _ hSeven hFraction
  obtain ⟨-, -, -, -, hZero, -⟩ := hCells _ _ _ _ hFraction (Cell.denotes_integer 0)
  refine ⟨hSeven, hFraction, hPlus.resolve_right ?_,
    (hDivide (by norm_num)).resolve_right ?_, hZero.2 rfl⟩
  · intro hOverflow
    cases hOverflow
  · intro hOverflow
    cases hOverflow

/-! ## Powers -/

/-- The cell is the number in the form asked for, or says that there is no such cell. -/
def Settles (form : Cell → ℚ → Prop) (x : ℚ) (result : Cell) : Prop :=
  form result x ∨ (result = overflow ∧ ¬∃ cell, form cell x)

/-- A power that is refused only for a reason: the error for a division by zero says that it is a
negative power of zero, and that for an overflow that no cell of the form is the power. -/
def PowerComplete (form : Cell → ℚ → Prop) (base : ℚ) (exponent : Int) (result : Cell) : Prop :=
  (result = divisionByZero ↔ base = 0 ∧ exponent < 0) ∧
    (¬(base = 0 ∧ exponent < 0) → Settles form (base ^ exponent) result)

/-- The form of a power: two integers stay an integer if the exponent is natural, and all else is a
fraction. -/
def powerForm : Cell → Cell → Cell → ℚ → Prop
  | .integer _, .integer exponent =>
    if exponent.toInt < 0 then Cell.IsFraction else Cell.IsInteger
  | _, _ => Cell.IsFraction

variable {form : Cell → ℚ → Prop} {base : ℚ} {exponent : Int} {result : Cell}

/-- A partial operation that answers exactly if there is an answer settles the question. -/
theorem settles_getD {α : Type} {make : α → Cell} {isValue : α → ℚ → Prop} {answer : Option α}
    (h : ∀ v, answer = some v ↔ isValue v x) :
    Settles (fun cell x => ∃ v, cell = make v ∧ isValue v x) x ((answer.map make).getD overflow) := by
  cases answer with
  | none =>
      refine Or.inr ⟨rfl, ?_⟩
      rintro ⟨cell, v, -, hv⟩
      cases (h v).2 hv
  | some v => exact Or.inl ⟨v, rfl, (h v).1 rfl⟩

theorem Settles.given (h : Settles form x result) {cell : Cell} (hCell : form cell x) :
    form result x :=
  h.resolve_right fun hNone => hNone.2 ⟨cell, hCell⟩

theorem powerComplete_of_settles (hForm : ∀ cell x, form cell x → Cell.Denotes cell x)
    (hDefined : ¬(base = 0 ∧ exponent < 0)) (h : Settles form (base ^ exponent) result) :
    PowerComplete form base exponent result := by
  have hExact : ExactOrOverflow result (base ^ exponent) := by
    rcases h with hResult | ⟨hOverflow, -⟩
    · exact Or.inl (hForm _ _ hResult)
    · exact Or.inr hOverflow
  exact ⟨iff_of_false hExact.ne_divisionByZero hDefined, fun _ => h⟩

/-- Powers of fractions are complete, however it is tested for a negative power of zero. -/
theorem powerComplete_of_pow? {p : Rational} {e : Int64}
    (hUndefined : p.value = 0 ∧ e.toInt < 0 → result = divisionByZero)
    (hDefined : ¬(p.value = 0 ∧ e.toInt < 0) → result = rationalOr (p.pow? e)) :
    PowerComplete Cell.IsFraction p.value e.toInt result := by
  by_cases h : p.value = 0 ∧ e.toInt < 0
  · exact ⟨iff_of_true (hUndefined h) h, fun hNot => absurd h hNot⟩
  · refine powerComplete_of_settles (fun _ _ => Or.inr) h ?_
    rw [hDefined h]
    refine settles_getD fun r => ?_
    rw [Rational.pow?_eq_some_iff, iff_true_intro h, true_and]

/-- Powers of `0`, `1` and `-1` depend on whether the exponent is zero and whether it is odd. -/
theorem pow_eq_pow_of_natAbs_le_one {z : Int} (h : z.natAbs ≤ 1) (n : Nat) :
    z ^ (if n = 0 then 0 else 2 - n % 2) = z ^ n := by
  by_cases hn : n = 0
  · rw [if_pos hn, hn]
  · rw [if_neg hn]
    obtain rfl | rfl | rfl : z = 0 ∨ z = 1 ∨ z = -1 := by omega
    · rw [zero_pow hn, zero_pow (by omega)]
    · rw [one_pow, one_pow]
    · -- The exponent that is taken in its place has the same parity.
      rw [neg_one_pow_eq_pow_mod_two, neg_one_pow_eq_pow_mod_two n]
      rw [show (2 - n % 2) % 2 = n % 2 from by omega]

/-- A natural power of an integer is given exactly if it is a word and the exponent has thirty-two
bits. -/
theorem integerPower?_eq_some_iff {base i : Int64} {exponent : Nat} :
    integerPower? base exponent = some i ↔
      exponent < 2 ^ 32 ∧ i.toInt = base.toInt ^ exponent := by
  unfold integerPower?
  by_cases hLong : 0x100000000 ≤ exponent
  · rw [if_pos hLong]
    exact iff_of_false (by simp) (by omega)
  · have hShort : exponent < 2 ^ 32 := by omega
    rw [if_neg hLong, iff_true_intro hShort, true_and]
    by_cases hSmall : base.toInt.natAbs ≤ 1
    · rw [if_pos hSmall, narrow?_eq_some_iff]
      exact iff_of_eq (congrArg _ (pow_eq_pow_of_natAbs_le_one hSmall exponent))
    · rw [if_neg hSmall]
      by_cases hGreat : 63 < exponent
      · rw [if_pos hGreat]
        refine iff_of_false (by simp) fun h => ?_
        exact hSmall ((isWord_pow_iff_of_long hGreat).1 (isWord_iff.2 ⟨i, h⟩))
      · rw [if_neg hGreat]
        exact narrow?_eq_some_iff

theorem exists_isInteger_iff {z : Int} : (∃ cell : Cell, cell.IsInteger z) ↔ IsWord z := by
  rw [isWord_iff]
  constructor
  · rintro ⟨cell, i, -, hi⟩
    exact ⟨i, Int.cast_inj.1 hi⟩
  · rintro ⟨i, rfl⟩
    exact ⟨.integer i, i, rfl, rfl⟩

/-- Natural powers of integers are complete up to the exponents of thirty-two bits.  Greater
exponents are refused for every base. -/
theorem powerComplete_integers_iff {a b : Int64} (hNatural : 0 ≤ b.toInt) :
    (PowerComplete Cell.IsInteger a.toInt b.toInt (power (.integer a) (.integer b)) ↔
      ¬(a.toInt.natAbs ≤ 1 ∧ 2 ^ 32 ≤ b.toInt)) ∧
    (2 ^ 32 ≤ b.toInt → power (.integer a) (.integer b) = overflow) := by
  obtain ⟨n, hn⟩ : ∃ n : Nat, b.toInt = n := ⟨b.toInt.toNat, by omega⟩
  have hPower : power (.integer a) (.integer b) = integerOr (integerPower? a n) := by
    have hBranches : power (.integer a) (.integer b) =
        if b.toInt < 0 then
          if a.toInt = 0 then divisionByZero else rationalOr ((Rational.ofInteger a).pow? b)
        else integerOr (integerPower? a b.toInt.toNat) := rfl
    rw [hBranches, if_neg (by omega), hn, Int.toNat_natCast]
  have hDefined : ¬((a.toInt : ℚ) = 0 ∧ b.toInt < 0) := by omega
  have hCast : (a.toInt : ℚ) ^ b.toInt = ((a.toInt ^ n : Int) : ℚ) := by
    rw [hn, zpow_natCast, Int.cast_pow]
  by_cases hLong : 2 ^ 32 ≤ b.toInt
  · -- Whatever the base, the answer is the overflow error: right unless the power is a word.
    have hOverflow : power (.integer a) (.integer b) = overflow := by
      have hNone : integerPower? a n = none := by
        rw [Option.eq_none_iff_forall_ne_some]
        intro i hi
        have hShort := (integerPower?_eq_some_iff.1 hi).1
        omega
      rw [hPower, hNone]
      rfl
    refine ⟨?_, fun _ => hOverflow⟩
    rw [hOverflow, iff_true_intro hLong, and_true, ← @isWord_pow_iff_of_long _ n (by omega),
      ← exists_isInteger_iff, ← hCast]
    constructor
    · rintro ⟨-, hSettles⟩
      rcases hSettles hDefined with ⟨i, hCell, -⟩ | ⟨-, hNone⟩
      · cases hCell
      · exact hNone
    · intro hNone
      exact powerComplete_of_settles (fun _ _ => Or.inl) hDefined (Or.inr ⟨rfl, hNone⟩)
  · refine ⟨iff_of_true ?_ fun h => hLong h.2, fun h => absurd h hLong⟩
    refine powerComplete_of_settles (fun _ _ => Or.inl) hDefined ?_
    rw [hPower, hCast]
    refine settles_getD fun i => ?_
    rw [integerPower?_eq_some_iff, Int.cast_inj, iff_true_intro (show n < 2 ^ 32 from by omega),
      true_and]

/-- Negative powers of integers are complete. -/
theorem powerComplete_integers_of_neg {a b : Int64} (hNegative : b.toInt < 0) :
    PowerComplete Cell.IsFraction a.toInt b.toInt (power (.integer a) (.integer b)) := by
  have hPower : power (.integer a) (.integer b) =
      if a.toInt = 0 then divisionByZero else rationalOr ((Rational.ofInteger a).pow? b) :=
    if_pos hNegative
  rw [hPower, ← Rational.value_ofInteger]
  refine powerComplete_of_pow? (fun h => ?_) (fun h => ?_)
  · rw [Rational.value_ofInteger, Int.cast_eq_zero] at h
    exact if_pos h.1
  · rw [Rational.value_ofInteger, Int.cast_eq_zero] at h
    exact if_neg fun hZero => h ⟨hZero, hNegative⟩

/-- Whole powers are complete if the base or the exponent is a fraction. -/
theorem powerComplete_fractions {n : Int} (ha : a.Denotes x) (hb : b.Denotes n)
    (hFraction : ¬(a.IsInteger x ∧ b.IsInteger n)) :
    PowerComplete Cell.IsFraction x n (power a b) := by
  rcases operands?_cases ha hb with ⟨i, k, rfl, rfl, hx, hn⟩ | ⟨p, q, hPair, rfl, hq⟩
  · exact absurd ⟨⟨i, rfl, hx⟩, ⟨k, rfl, hn⟩⟩ hFraction
  · obtain ⟨hNum, hDen⟩ := Rational.is_iff.2 hq
    rw [Rat.num_intCast] at hNum
    rw [Rat.den_intCast] at hDen
    have hInteger : q.isInteger = true := by
      rw [Rational.isInteger, hDen]
      rfl
    have hPower : power a b =
        if p.isZero && decide (q.num.toInt < 0) then divisionByZero
        else rationalOr (p.pow? q.num) := by
      unfold power
      rw [hPair]
      exact if_pos hInteger
    have hTest : (p.isZero && decide (q.num.toInt < 0)) = true ↔ p.value = 0 ∧ q.num.toInt < 0 := by
      rw [Bool.and_eq_true, Rational.isZero_iff, decide_eq_true_iff]
    rw [hPower, ← hNum]
    exact powerComplete_of_pow? (fun h => if_pos (hTest.2 h)) (fun h => if_neg (mt hTest.1 h))

theorem powerForm_of_not_integers (ha : a.Denotes x) (hb : b.Denotes y)
    (h : ¬(a.IsInteger x ∧ b.IsInteger y)) : powerForm a b = Cell.IsFraction := by
  rcases ha with hInteger | ⟨p, rfl, -⟩
  · obtain ⟨q, rfl, -⟩ := hb.resolve_left fun hb => h ⟨hInteger, hb⟩
    cases a <;> rfl
  · rfl

/-- Completeness of powers with a whole exponent.  They are complete, except those of the integers
`0`, `1` and `-1` with an integer of more than thirty-two bits for the exponent.  All integers are
refused with such an exponent; for all others it is right to say that the power overflows. -/
theorem power_complete_iff {a b : Cell} {x : ℚ} {n : Int} (ha : a.Denotes x) (hb : b.Denotes n) :
    (PowerComplete (powerForm a b) x n (power a b) ↔
      ¬(a.IsInteger x ∧ b.IsInteger n ∧ 2 ^ 32 ≤ n ∧ (x = 0 ∨ x = 1 ∨ x = -1))) ∧
    (a.IsInteger x → b.IsInteger n → 2 ^ 32 ≤ n → power a b = overflow) := by
  by_cases hIntegers : a.IsInteger x ∧ b.IsInteger n
  · obtain ⟨⟨i, rfl, rfl⟩, ⟨k, rfl, hk⟩⟩ := hIntegers
    obtain rfl : k.toInt = n := Int.cast_inj.1 hk
    have hUnit : ((i.toInt : ℚ) = 0 ∨ (i.toInt : ℚ) = 1 ∨ (i.toInt : ℚ) = -1) ↔
        i.toInt.natAbs ≤ 1 := by
      norm_cast
      omega
    by_cases hNegative : k.toInt < 0
    · refine ⟨iff_of_true ?_ (by omega), by omega⟩
      rw [powerForm, if_pos hNegative]
      exact powerComplete_integers_of_neg hNegative
    · obtain ⟨hComplete, hOverflow⟩ := @powerComplete_integers_iff i k (by omega)
      refine ⟨?_, fun _ _ => hOverflow⟩
      rw [powerForm, if_neg hNegative, hComplete, hUnit]
      refine not_congr ⟨?_, fun ⟨_, _, hLong, hSmall⟩ => ⟨hSmall, hLong⟩⟩
      rintro ⟨hSmall, hLong⟩
      exact ⟨⟨i, rfl, rfl⟩, ⟨k, rfl, rfl⟩, hLong, hSmall⟩
  · refine ⟨iff_of_true ?_ fun h => hIntegers ⟨h.1, h.2.1⟩, fun h h' => absurd ⟨h, h'⟩ hIntegers⟩
    rw [powerForm_of_not_integers ha hb hIntegers]
    exact powerComplete_fractions ha hb hIntegers

/-- The least word is given as a power, and a negative power of a fraction is. -/
theorem power_complete_least :
    (power (.integer (-2)) (.integer 63)).IsInteger (-2 ^ 63) ∧
      (Cell.rational minusThreeFifths).IsFraction (-3 / 5) ∧ (Cell.integer (-3)).Denotes (-3) ∧
      (power (.rational minusThreeFifths) (.integer (-3))).IsFraction (-125 / 27) := by
  have hFraction : (Cell.rational minusThreeFifths).IsFraction (-3 / 5) :=
    ⟨minusThreeFifths, rfl, minusThreeFifths.is_value⟩
  have hExponent : (Cell.integer (-3)).Denotes (-3) := Cell.denotes_integer (-3)
  have hLeast : PowerComplete Cell.IsInteger (-2) 63 (power (.integer (-2)) (.integer 63)) :=
    (power_complete_iff (Cell.denotes_integer (-2)) (Cell.denotes_integer 63)).1.2 fun h =>
      absurd h.2.2.1 (by decide)
  have hCube : PowerComplete Cell.IsFraction (-3 / 5) (-3)
      (power (.rational minusThreeFifths) (.integer (-3))) :=
    (power_complete_iff (Or.inr hFraction) hExponent).1.2 fun h => hFraction.not_isInteger h.1
  have hLeastValue : (-2 : ℚ) ^ (63 : Int) = -2 ^ 63 := by norm_num
  have hCubeValue : (-3 / 5 : ℚ) ^ (-3 : Int) = -125 / 27 := by norm_num
  have hLeastCell : (Cell.integer Int64.minValue).IsInteger (-2 ^ 63) := by
    refine ⟨Int64.minValue, rfl, ?_⟩
    rw [show Int64.minValue.toInt = -2 ^ 63 from by decide]
    norm_num
  have hCubeCell : (Cell.rational ⟨-125, 27, by decide, by decide⟩).IsFraction (-125 / 27) :=
    ⟨_, rfl, Rational.is_value _⟩
  rw [← hLeastValue] at hLeastCell ⊢
  rw [← hCubeValue] at hCubeCell ⊢
  exact ⟨(hLeast.2 (by norm_num)).given hLeastCell, hFraction, hExponent,
    (hCube.2 (by norm_num)).given hCubeCell⟩

/-- A power of the integer one is refused as an overflow, and the same power of the fraction one is
given. -/
theorem power_of_one_refused :
    ¬PowerComplete Cell.IsInteger 1 (2 ^ 32) (power (.integer 1) (.integer 0x100000000)) ∧
      power (.integer 1) (.integer 0x100000000) = overflow ∧
      power (.rational .one) (.integer 0x100000000) = .rational .one := by
  have hOverflow : power (.integer 1) (.integer 0x100000000) = overflow :=
    (powerComplete_integers_iff (by decide)).2 (by decide)
  have hOne : Rational.one.Is 1 := Rational.is_iff.2 Rational.value_one
  have hDefined : ¬((1 : ℚ) = 0 ∧ (2 ^ 32 : Int) < 0) := by simp
  have hFractions : PowerComplete Cell.IsFraction 1 (2 ^ 32)
      (power (.rational .one) (.integer 0x100000000)) :=
    powerComplete_fractions (Or.inr ⟨_, rfl, hOne⟩) (Cell.denotes_integer 0x100000000)
      fun h => Cell.IsFraction.not_isInteger ⟨_, rfl, hOne⟩ h.1
  refine ⟨fun hComplete => ?_, hOverflow, ?_⟩
  · exact (powerComplete_integers_iff (by decide)).1.1 hComplete (by decide)
  · have hSettles := hFractions.2 hDefined
    rw [one_zpow] at hSettles
    obtain ⟨r, hCell, hr⟩ := hSettles.given ⟨_, rfl, hOne⟩
    rw [hCell, hr.unique hOne]

end Core
end CellMachine
