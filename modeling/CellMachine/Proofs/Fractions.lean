import CellMachine.Number.Rational
import Mathlib.Data.Int.CharZero
import Mathlib.Data.Rat.Lemmas
import Mathlib.Algebra.Order.Ring.Int
import Mathlib.Tactic.Ring

/-!
# Fractions in lowest terms

A fraction that is stored is in lowest terms with a positive denominator.  What the operations on
fractions form is in lowest terms before that is looked at: dividing by the greatest common divisor
and moving the sign to the numerator is enough.  So an operation is refused only because a word
cannot hold a number on the way, and never because a result that it formed was not in lowest terms
(`reduce?_eq_some_iff`, `div?_eq_some_iff`, `neg?_eq_some_iff`).

It does NOT follow that a sum or a product is given whenever its reduced value fits; the
intermediate results have to fit as well.
-/

namespace CellMachine
namespace Rational

open Integer

/-- The fraction denotes `num / den`. -/
def Denotes (q : Rational) (num den : Int) : Prop := q.num.toInt * den = num * q.den.toInt

/-! ## Lowest terms -/

/-- Two words in lowest terms are found if they are words at all. -/
theorem ofLowest?_narrow?_eq_some_iff {a b : Int} (hPos : 0 < b)
    (hCoprime : a.natAbs.gcd b.natAbs = 1) {q : Rational} :
    ((do ofLowest? (← narrow? a) (← narrow? b)) : Option Rational) = some q ↔
      q.num.toInt = a ∧ q.den.toInt = b := by
  constructor
  · intro h
    simp only [Option.bind_eq_bind, Option.bind_eq_some_iff] at h
    obtain ⟨num, hNum, den, hDen, hLowest⟩ := h
    unfold ofLowest? at hLowest
    split at hLowest
    · cases hLowest
      exact ⟨narrow?_eq_some_iff.1 hNum, narrow?_eq_some_iff.1 hDen⟩
    · cases hLowest
  · rintro ⟨rfl, rfl⟩
    have hLowest : ofLowest? q.num q.den = some q := by
      unfold ofLowest?
      rw [dif_pos ⟨hPos, hCoprime⟩]
    rw [narrow?_toInt, narrow?_toInt]
    exact hLowest

/-- Of all pairs that denote one number, only one is in lowest terms. -/
theorem denotes_iff_of_lowest {a b num den : Int} (hPos : 0 < b)
    (hCoprime : a.natAbs.gcd b.natAbs = 1) (hDen : den ≠ 0) (hSame : a * den = num * b)
    (q : Rational) : (q.num.toInt = a ∧ q.den.toInt = b) ↔ q.Denotes num den := by
  constructor
  · rintro ⟨rfl, rfl⟩
    exact hSame
  · intro h
    have hq : (q.den.toInt : ℚ) ≠ 0 := Int.cast_ne_zero.2 q.den_pos.ne'
    have hb : (b : ℚ) ≠ 0 := Int.cast_ne_zero.2 hPos.ne'
    have hd : (den : ℚ) ≠ 0 := Int.cast_ne_zero.2 hDen
    refine Rat.div_int_inj q.den_pos hPos q.coprime hCoprime ?_
    have hLeft : (q.num.toInt : ℚ) / q.den.toInt = (num : ℚ) / den := by
      rw [div_eq_div_iff hq hd]
      exact_mod_cast h
    have hRight : (a : ℚ) / b = (num : ℚ) / den := by
      rw [div_eq_div_iff hb hd]
      exact_mod_cast hSame
    rw [hLeft, hRight]

/-- Divided by the greatest common divisor and with the sign moved to the numerator, a pair is in
lowest terms and denotes the same number. -/
theorem lowest_of_ne_zero (num : Int) {den : Int} (h : den ≠ 0) {g sign : Int}
    (hg : g = (num.natAbs.gcd den.natAbs : Nat)) (hSign : sign = if den < 0 then -1 else 1) :
    0 < den / g * sign ∧ (num / g * sign).natAbs.gcd (den / g * sign).natAbs = 1 ∧
      num / g * sign * den = num * (den / g * sign) := by
  have hGcd : 0 < num.natAbs.gcd den.natAbs := Nat.gcd_pos_of_pos_right _ (Int.natAbs_pos.2 h)
  have hgPos : 0 < g := by omega
  obtain ⟨n, hn⟩ : g ∣ num := hg ▸ Int.gcd_dvd_left num den
  obtain ⟨d, hd⟩ : g ∣ den := hg ▸ Int.gcd_dvd_right num den
  have hnDiv : num / g = n := Int.ediv_eq_of_eq_mul_right hgPos.ne' hn
  have hdDiv : den / g = d := Int.ediv_eq_of_eq_mul_right hgPos.ne' hd
  have hCoprime : n.natAbs.gcd d.natAbs = 1 := by
    have hQuotients : (num / g).gcd (den / g) = 1 := hg ▸ Int.gcd_ediv_gcd_ediv_gcd hGcd
    rw [hnDiv, hdDiv] at hQuotients
    exact hQuotients
  have hUnit : sign.natAbs = 1 := by
    rw [hSign]
    split <;> rfl
  rw [hnDiv, hdDiv]
  refine ⟨?_, ?_, ?_⟩
  · rw [hSign]
    split
    · rename_i hNegative
      rw [hd] at hNegative
      have hdNegative : d < 0 := (pos_iff_neg_of_mul_neg hNegative).1 hgPos
      omega
    · have hPositive : 0 < g * d := by omega
      have hdPositive : 0 < d := (pos_iff_pos_of_mul_pos hPositive).1 hgPos
      omega
  · rw [Int.natAbs_mul, Int.natAbs_mul, hUnit, Nat.mul_one, Nat.mul_one]
    exact hCoprime
  · rw [hn, hd]
    ring

/-! ## Operations -/

theorem reduce?_eq_some_iff {num den : Int} (h : 0 < den) {q : Rational} :
    reduce? num den = some q ↔ q.Denotes num den := by
  obtain ⟨hPos, hCoprime, hSame⟩ := lowest_of_ne_zero num h.ne' rfl rfl
  rw [if_neg (by omega), mul_one] at hPos
  rw [if_neg (by omega), mul_one, mul_one] at hCoprime hSame
  rw [← denotes_iff_of_lowest hPos hCoprime h.ne' hSame,
    ← ofLowest?_narrow?_eq_some_iff hPos hCoprime]
  rfl

theorem neg?_eq_some_iff {p q : Rational} :
    neg? p = some q ↔ q.Denotes (-p.num.toInt) p.den.toInt := by
  have hCoprime : (-p.num.toInt).natAbs.gcd p.den.toInt.natAbs = 1 := by
    rw [Int.natAbs_neg]
    exact p.coprime
  rw [← denotes_iff_of_lowest p.den_pos hCoprime p.den_pos.ne' rfl,
    ← ofLowest?_narrow?_eq_some_iff p.den_pos hCoprime, narrow?_toInt]
  rfl

/-- The unreduced quotient by a number other than zero has a denominator. -/
theorem quotient?_den_ne_zero {p q : Rational} (h : q.isZero = false) {num den : Int64}
    (hQuotient : quotient? p q = some (num, den)) : den.toInt ≠ 0 := by
  have hNum : q.num.toInt ≠ 0 := by simpa [isZero] using h
  have hDen := p.den_pos.ne'
  unfold quotient? at hQuotient
  split at hQuotient
  · cases hQuotient
    exact hNum
  · split at hQuotient
    · cases hQuotient
      exact hDen
    · simp only [Option.bind_eq_bind, Option.bind_eq_some_iff] at hQuotient
      obtain ⟨n, -, d, hd, hPair⟩ := hQuotient
      cases hPair
      rw [narrow?_eq_some_iff.1 hd]
      -- A divisor of a number other than zero goes into it at least once.
      have hQuot {a : Int} {g : Nat} (ha : a ≠ 0) (hg : (g : Int) ∣ a) : a / g ≠ 0 := by
        obtain ⟨c, rfl⟩ := hg
        have hgNe : (g : Int) ≠ 0 := left_ne_zero_of_mul ha
        rw [Int.mul_ediv_cancel_left c hgNe]
        exact right_ne_zero_of_mul ha
      exact mul_ne_zero (hQuot hDen (Int.gcd_dvd_left _ _)) (hQuot hNum (Int.gcd_dvd_right _ _))

theorem div?_eq_some_iff {p q : Rational} (h : q.isZero = false) {num den : Int64}
    (hQuotient : quotient? p q = some (num, den)) {r : Rational} :
    div? p q = some r ↔ r.Denotes num.toInt den.toInt := by
  have hDen := quotient?_den_ne_zero h hQuotient
  obtain ⟨hPos, hCoprime, hSame⟩ := lowest_of_ne_zero num.toInt hDen rfl rfl
  rw [← denotes_iff_of_lowest hPos hCoprime hDen hSame,
    ← ofLowest?_narrow?_eq_some_iff hPos hCoprime]
  unfold div?
  rw [h, hQuotient]
  rfl

end Rational
end CellMachine
