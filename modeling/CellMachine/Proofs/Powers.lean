import CellMachine.Proofs.FractionValues

/-!
# Powers of fractions

A power is formed by repeated squaring.  No square is taken that the exponent does not need, so
every number on the way is a power of the same base with an exponent that is no greater, and a word
if the result consists of words.  Main statement: a power of a fraction is given exactly if it is a
fraction, and it is exact (`pow?_eq_some_iff`); the only power that is NOT there at all is a negative
one of zero.
-/

namespace CellMachine

namespace Integer

theorem isWord_pow_of_natAbs_le_one {z : Int} (h : z.natAbs ≤ 1) (n : Nat) : IsWord (z ^ n) := by
  have hPow : (z ^ n).natAbs ≤ 1 := by
    rw [Int.natAbs_pow]
    exact (Nat.pow_le_pow_left h n).trans_eq (one_pow n)
  unfold IsWord
  omega

/-- Lower powers of an integer are words if a higher one is.  A higher power of the other sign may
be the least word, but then it is at least twice as great. -/
theorem IsWord.pow_of_le {z : Int} {k n : Nat} (h : IsWord (z ^ n)) (hk : k ≤ n) :
    IsWord (z ^ k) := by
  rcases hk.eq_or_lt with rfl | hk
  · exact h
  · by_cases hSmall : z.natAbs ≤ 1
    · exact isWord_pow_of_natAbs_le_one hSmall k
    · have hGrowth : (z ^ k).natAbs * 2 ≤ (z ^ n).natAbs := by
        rw [Int.natAbs_pow, Int.natAbs_pow]
        calc z.natAbs ^ k * 2 ≤ z.natAbs ^ k * z.natAbs := Nat.mul_le_mul_left _ (by omega)
          _ = z.natAbs ^ (k + 1) := (pow_succ _ _).symm
          _ ≤ z.natAbs ^ n := Nat.pow_le_pow_right (by omega) hk
      unfold IsWord at h ⊢
      omega

/-- Beyond the sixty-third power only three integers have words for powers. -/
theorem isWord_pow_iff_of_long {z : Int} {n : Nat} (hLong : 63 < n) :
    IsWord (z ^ n) ↔ z.natAbs ≤ 1 := by
  constructor
  · intro h
    by_contra hGreat
    have hWord : IsWord (z ^ 64) := h.pow_of_le hLong
    have hGrowth : 2 ^ 64 ≤ (z ^ 64).natAbs := by
      rw [Int.natAbs_pow]
      exact Nat.pow_le_pow_left (by omega) 64
    unfold IsWord at hWord
    omega
  · intro h
    exact isWord_pow_of_natAbs_le_one h n

end Integer

namespace Rational

open Integer

variable {base r : Rational}

/-- Lower powers of a number are fractions if a higher one is. -/
theorem exists_is_pow_of_le {x : ℚ} {k n : Nat} (h : ∃ r : Rational, r.Is (x ^ n)) (hk : k ≤ n) :
    ∃ r : Rational, r.Is (x ^ k) := by
  rw [exists_is_iff, Rat.num_pow, Rat.den_pow, Nat.cast_pow] at h ⊢
  exact ⟨h.1.pow_of_le hk, h.2.pow_of_le hk⟩

/-- Repeated squaring gives a natural power exactly if it is a fraction. -/
theorem powNat?_eq_some_iff (exponent : Nat) :
    powNat? base exponent = some r ↔ r.Is (base.value ^ exponent) := by
  induction exponent using Nat.strongRecOn generalizing base r with
  | ind n ih =>
      rw [powNat?]
      by_cases hZero : n = 0
      · rw [if_pos hZero, hZero, pow_zero, some_eq_some_iff_is, value_one]
      · rw [if_neg hZero]
        by_cases hOne : n = 1
        · rw [if_pos hOne, hOne, pow_one, some_eq_some_iff_is]
        · rw [if_neg hOne]
          -- The square of the base, to half the exponent.
          have hHalf {square half : Rational} (hSquare : square.Is (base.value ^ 2)) :
              powNat? square (n / 2) = some half ↔ half.Is (base.value ^ (2 * (n / 2))) := by
            rw [ih (n / 2) (by omega), is_iff.1 hSquare, pow_mul]
          have hLast {half : Rational} (hIs : half.Is (base.value ^ (2 * (n / 2)))) :
              (if n % 2 = 1 then mul? half base else some half) = some r ↔
                r.Is (base.value ^ n) := by
            have hValue := is_iff.1 hIs
            by_cases hOdd : n % 2 = 1
            · rw [if_pos hOdd, mul?_eq_some_iff, hValue, ← pow_succ]
              rw [show 2 * (n / 2) + 1 = n from by omega]
            · rw [if_neg hOdd, some_eq_some_iff_is, hValue]
              rw [show 2 * (n / 2) = n from by omega]
          simp only [Option.bind_eq_bind, Option.bind_eq_some_iff, mul?_eq_some_iff, ← sq]
          constructor
          · rintro ⟨square, hSquare, half, hPow, hResult⟩
            exact (hLast ((hHalf hSquare).1 hPow)).1 hResult
          · intro hResult
            obtain ⟨square, hSquare⟩ :=
              exists_is_pow_of_le (k := 2) ⟨r, hResult⟩ (by omega)
            obtain ⟨half, hIs⟩ :=
              exists_is_pow_of_le (k := 2 * (n / 2)) ⟨r, hResult⟩ (by omega)
            exact ⟨square, hSquare, half, (hHalf hSquare).2 hIs, (hLast hIs).2 hResult⟩

/-- A power is given exactly if it is a fraction, and it is exact. -/
theorem pow?_eq_some_iff (exponent : Int64) :
    pow? base exponent = some r ↔
      ¬(base.value = 0 ∧ exponent.toInt < 0) ∧ r.Is (base.value ^ exponent.toInt) := by
  unfold pow?
  by_cases hNegative : exponent.toInt < 0
  · obtain ⟨n, hn⟩ : ∃ n : Nat, exponent.toInt = -(n : Int) := ⟨exponent.toInt.natAbs, by omega⟩
    have hAbs : exponent.toInt.natAbs = n := by omega
    rw [if_pos hNegative, hAbs, hn, zpow_neg, zpow_natCast, ← inv_pow]
    simp only [Option.bind_eq_bind, Option.bind_eq_some_iff, div?_one_eq_some_iff,
      powNat?_eq_some_iff]
    constructor
    · rintro ⟨inverse, ⟨hBase, hInverse⟩, hPow⟩
      rw [is_iff.1 hInverse] at hPow
      exact ⟨fun h => hBase h.1, hPow⟩
    · rintro ⟨hBase, hPow⟩
      obtain ⟨inverse, hInverse⟩ :=
        exists_is_pow_of_le (k := 1) ⟨r, hPow⟩ (by omega)
      rw [pow_one] at hInverse
      refine ⟨inverse, ⟨fun h => hBase ⟨h, by omega⟩, hInverse⟩, ?_⟩
      rw [is_iff.1 hInverse]
      exact hPow
  · obtain ⟨n, hn⟩ : ∃ n : Nat, exponent.toInt = n := ⟨exponent.toInt.natAbs, by omega⟩
    have hAbs : exponent.toInt.natAbs = n := by omega
    rw [if_neg hNegative, hAbs, hn, zpow_natCast, powNat?_eq_some_iff]
    exact ⟨fun h => ⟨by omega, h⟩, fun h => h.2⟩

end Rational
end CellMachine
