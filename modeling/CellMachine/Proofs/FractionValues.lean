import CellMachine.Proofs.Fractions
import Mathlib.Tactic.FieldSimp
import Mathlib.Tactic.Linarith

/-!
# The values of fractions

A fraction denotes a rational number, and its two words are the numerator and the denominator of that
number in lowest terms (`Is`).  Every operation on fractions that gives a result gives the exact one.
A product or a negation is given whenever its two parts are words; a sum or a difference only if the
common denominator, both numerators over it and their sum are words too, and a quotient only if the
numerator and the denominator are words before the sign is moved.

So a sum, a difference or a quotient that could be represented may NOT be given.
-/

namespace CellMachine

namespace Integer

/-- A divisor of a word is a word. -/
theorem IsWord.of_mul {c z : Int} (hc : 0 < c) (h : IsWord (c * z)) : IsWord z := by
  obtain ⟨hLow, hHigh⟩ := h
  constructor
  · by_contra hBelow
    nlinarith
  · by_contra hAbove
    nlinarith

end Integer

namespace Rational

open Integer

/-- The number that the fraction denotes. -/
def value (q : Rational) : ℚ := q.num.toInt / q.den.toInt

/-- The words of the fraction are the numerator and the denominator of the number. -/
def Is (q : Rational) (x : ℚ) : Prop := q.num.toInt = x.num ∧ q.den.toInt = x.den

variable {p q r : Rational} {x : ℚ}

theorem den_ne_zero (q : Rational) : (q.den.toInt : ℚ) ≠ 0 := Int.cast_ne_zero.2 q.den_pos.ne'

theorem is_value (q : Rational) : q.Is q.value :=
  ⟨(Rat.num_div_eq_of_coprime q.den_pos q.coprime).symm,
    (Rat.den_div_eq_of_coprime q.den_pos q.coprime).symm⟩

theorem is_iff : q.Is x ↔ q.value = x := by
  constructor
  · rintro ⟨hNum, hDen⟩
    rw [value, hNum, hDen]
    exact_mod_cast Rat.num_div_den x
  · rintro rfl
    exact q.is_value

/-- Only one fraction is a given number. -/
theorem Is.unique (hq : q.Is x) (hr : r.Is x) : q = r := by
  obtain ⟨num, den, hPos, hCoprime⟩ := q
  obtain ⟨num', den', hPos', hCoprime'⟩ := r
  obtain rfl : num = num' := Int64.toInt_inj.1 (hq.1.trans hr.1.symm)
  obtain rfl : den = den' := Int64.toInt_inj.1 (hq.2.trans hr.2.symm)
  rfl

theorem some_eq_some_iff_is : some q = some r ↔ r.Is q.value := by
  constructor
  · intro h
    cases h
    exact q.is_value
  · intro h
    rw [h.unique q.is_value]

/-- A number is a fraction if its numerator and its denominator are words. -/
theorem exists_is_iff : (∃ q : Rational, q.Is x) ↔ IsWord x.num ∧ IsWord x.den := by
  constructor
  · rintro ⟨q, hNum, hDen⟩
    rw [← hNum, ← hDen]
    exact ⟨isWord_toInt _, isWord_toInt _⟩
  · rintro ⟨hNum, hDen⟩
    obtain ⟨num, hNum⟩ := isWord_iff.1 hNum
    obtain ⟨den, hDen⟩ := isWord_iff.1 hDen
    refine ⟨⟨num, den, ?_, ?_⟩, hNum, hDen⟩
    · rw [hDen]
      exact_mod_cast x.pos
    · rw [hNum, hDen]
      exact x.reduced

theorem denotes_iff {num den : Int} (h : den ≠ 0) : q.Denotes num den ↔ q.Is (num / den) := by
  rw [is_iff, value, div_eq_div_iff q.den_ne_zero (Int.cast_ne_zero.2 h)]
  unfold Denotes
  exact_mod_cast Iff.rfl

theorem value_ofInteger (i : Int64) : (ofInteger i).value = i.toInt := by
  have hOne : (1 : Int64).toInt = 1 := by decide
  simp [value, ofInteger, hOne]

theorem value_one : one.value = 1 := by
  rw [one, value_ofInteger]
  rfl

theorem value_eq_zero_iff : q.value = 0 ↔ q.num.toInt = 0 := by
  simp [value, q.den_pos.ne']

theorem isZero_iff : q.isZero = true ↔ q.value = 0 := by
  rw [value_eq_zero_iff, isZero, beq_iff_eq]

/-! ## Fractions from two words -/

/-- Two words with a positive denominator are a fraction: reducing makes them no greater. -/
theorem exists_reduce? {num den : Int} (hNum : IsWord num) (hDen : IsWord den) (hPos : 0 < den) :
    ∃ q, reduce? num den = some q := by
  obtain ⟨c, hn, hd⟩ := Rat.exists_eq_mul_div_num_and_eq_mul_div_den num hPos.ne'
  have hc : 0 < c := by
    have hDenPos : (0 : Int) < ((num : ℚ) / den).den := by exact_mod_cast Rat.den_pos _
    rw [hd] at hPos
    exact (pos_iff_pos_of_mul_pos hPos).2 hDenPos
  -- Both words are multiples of the parts in lowest terms, by the same positive factor.
  rw [hn] at hNum
  rw [hd] at hDen
  obtain ⟨q, hq⟩ := exists_is_iff.2 ⟨hNum.of_mul hc, hDen.of_mul hc⟩
  exact ⟨q, (reduce?_eq_some_iff hPos).2 ((denotes_iff hPos.ne').2 hq)⟩

/-- A numerator and a positive denominator are narrowed to words and reduced. -/
theorem narrow?_reduce?_eq_some_iff {num den : Int} (hPos : 0 < den) :
    ((do reduce? (← narrow? num).toInt (← narrow? den).toInt) : Option Rational) = some q ↔
      IsWord num ∧ IsWord den ∧ q.Is (num / den) := by
  rw [← denotes_iff hPos.ne', ← reduce?_eq_some_iff hPos]
  simp only [Option.bind_eq_bind, Option.bind_eq_some_iff, narrow?_eq_some_iff]
  constructor
  · rintro ⟨n, rfl, d, rfl, hReduce⟩
    exact ⟨isWord_toInt n, isWord_toInt d, hReduce⟩
  · rintro ⟨hNum, hDen, hReduce⟩
    obtain ⟨n, rfl⟩ := isWord_iff.1 hNum
    obtain ⟨d, rfl⟩ := isWord_iff.1 hDen
    exact ⟨n, rfl, d, rfl, hReduce⟩

theorem narrow?_reduce?_eq_none_iff {num den : Int} (hPos : 0 < den) :
    ((do reduce? (← narrow? num).toInt (← narrow? den).toInt) : Option Rational) = none ↔
      ¬(IsWord num ∧ IsWord den) := by
  rw [Option.eq_none_iff_forall_ne_some]
  constructor
  · rintro h ⟨hNum, hDen⟩
    obtain ⟨q, hq⟩ := exists_reduce? hNum hDen hPos
    have hIs := (denotes_iff hPos.ne').1 ((reduce?_eq_some_iff hPos).1 hq)
    exact h q ((narrow?_reduce?_eq_some_iff hPos).2 ⟨hNum, hDen, hIs⟩)
  · intro h q hq
    obtain ⟨hNum, hDen, -⟩ := (narrow?_reduce?_eq_some_iff hPos).1 hq
    exact h ⟨hNum, hDen⟩

theorem is_of_make? {num den : Int64} (h : make? num den = some q) :
    q.Is (num.toInt / den.toInt) := by
  unfold make? at h
  by_cases hZero : den.toInt = 0
  · rw [if_pos hZero] at h
    cases h
  · rw [if_neg hZero] at h
    by_cases hNegative : den.toInt < 0
    · rw [if_pos hNegative] at h
      have hIs := ((narrow?_reduce?_eq_some_iff (by omega)).1 h).2.2
      push_cast at hIs
      rwa [neg_div_neg_eq] at hIs
    · rw [if_neg hNegative] at h
      exact (denotes_iff hZero).1 ((reduce?_eq_some_iff (by omega)).1 h)

/-- A fraction is refused if there is none, or if one of its signs cannot be changed. -/
theorem make?_eq_none_iff {num den : Int64} :
    make? num den = none ↔
      den.toInt = 0 ∨ (den.toInt < 0 ∧ (num.toInt = -2 ^ 63 ∨ den.toInt = -2 ^ 63)) := by
  have hNum := isWord_toInt num
  have hDen := isWord_toInt den
  unfold make?
  by_cases hZero : den.toInt = 0
  · rw [if_pos hZero]
    exact iff_of_true rfl (Or.inl hZero)
  · rw [if_neg hZero]
    by_cases hNegative : den.toInt < 0
    · -- The signs are changed before anything is cancelled, and only the least word has no negative.
      have hNarrow := @narrow?_reduce?_eq_none_iff (-num.toInt) (-den.toInt) (by omega)
      rw [if_pos hNegative]
      refine hNarrow.trans ?_
      unfold IsWord at hNum hDen ⊢
      omega
    · obtain ⟨q, hq⟩ := exists_reduce? hNum hDen (by omega)
      rw [if_neg hNegative, hq]
      exact iff_of_false (by simp) (by omega)

/-! ## Sums and differences -/

/-- The least common denominator, as it is formed. -/
def commonDen (p q : Rational) : Int :=
  p.den.toInt / (p.den.toInt.natAbs.gcd q.den.toInt.natAbs : Nat) * q.den.toInt

/-- The numbers that have to be words on the way to a sum or a difference. -/
def sumSteps (combine : Int → Int → Int) (p q : Rational) : List Int :=
  let x := commonDen p q / p.den.toInt * p.num.toInt
  let y := commonDen p q / q.den.toInt * q.num.toInt
  [commonDen p q, x, y, combine x y]

theorem commonDen_eq_lcm (p q : Rational) : commonDen p q = (p.den.toInt.lcm q.den.toInt : Nat) := by
  obtain ⟨b, hb⟩ := Int.eq_ofNat_of_zero_le p.den_pos.le
  obtain ⟨d, hd⟩ := Int.eq_ofNat_of_zero_le q.den_pos.le
  unfold commonDen
  rw [hb, hd]
  simp only [Int.lcm, Int.natAbs_natCast]
  exact_mod_cast Nat.div_mul_right_comm (Nat.gcd_dvd_left b d) d

theorem commonDen_pos (p q : Rational) : 0 < commonDen p q := by
  rw [commonDen_eq_lcm]
  exact_mod_cast Int.lcm_pos p.den_pos.ne' q.den_pos.ne'

/-- A fraction over a multiple of its denominator. -/
theorem value_over {m : Int} (hm : m ≠ 0) (h : q.den.toInt ∣ m) :
    ((m / q.den.toInt * q.num.toInt : Int) : ℚ) / m = q.value := by
  obtain ⟨k, rfl⟩ := h
  have hk : (k : ℚ) ≠ 0 := Int.cast_ne_zero.2 (right_ne_zero_of_mul hm)
  have hDen := q.den_ne_zero
  rw [Int.mul_ediv_cancel_left k q.den_pos.ne', value]
  push_cast
  field_simp

/-- A sum or a difference is given exactly if all numbers on the way are words, and it is exact. -/
theorem addWith?_eq_some_iff {combine : Int → Int → Int} {operation : ℚ → ℚ → ℚ}
    (hCombine : ∀ x y m : Int,
      ((combine x y : Int) : ℚ) / m = operation ((x : ℚ) / m) ((y : ℚ) / m)) :
    addWith? combine p q = some r ↔
      (∀ z ∈ sumSteps combine p q, IsWord z) ∧ r.Is (operation p.value q.value) := by
  have hPos := commonDen_pos p q
  have hLeft : p.den.toInt ∣ commonDen p q := by
    rw [commonDen_eq_lcm]
    exact Int.dvd_lcm_left _ _
  have hRight : q.den.toInt ∣ commonDen p q := by
    rw [commonDen_eq_lcm]
    exact Int.dvd_lcm_right _ _
  rw [← value_over hPos.ne' hLeft, ← value_over hPos.ne' hRight, ← hCombine, ← denotes_iff hPos.ne',
    ← reduce?_eq_some_iff hPos]
  simp only [sumSteps, List.forall_mem_cons, List.not_mem_nil, false_implies, implies_true, and_true]
  unfold addWith?
  simp only [Option.bind_eq_bind, Option.bind_eq_some_iff, narrow?_eq_some_iff]
  constructor
  · rintro ⟨m, hm, x, hx, y, hy, s, hs, hReduce⟩
    have hm : m.toInt = commonDen p q := hm
    rw [hm] at hx hy hReduce
    rw [hx, hy] at hs
    rw [hs] at hReduce
    exact ⟨⟨isWord_iff.2 ⟨m, hm⟩, isWord_iff.2 ⟨x, hx⟩, isWord_iff.2 ⟨y, hy⟩, isWord_iff.2 ⟨s, hs⟩⟩,
      hReduce⟩
  · rintro ⟨⟨hm, hx, hy, hs⟩, hReduce⟩
    obtain ⟨m, hm⟩ := isWord_iff.1 hm
    obtain ⟨x, hx⟩ := isWord_iff.1 hx
    obtain ⟨y, hy⟩ := isWord_iff.1 hy
    obtain ⟨s, hs⟩ := isWord_iff.1 hs
    refine ⟨m, hm, x, by rw [hm, hx], y, by rw [hm, hy], s, by rw [hx, hy, hs], ?_⟩
    rw [hs, hm, hReduce]

theorem add?_eq_some_iff :
    add? p q = some r ↔ (∀ z ∈ sumSteps (· + ·) p q, IsWord z) ∧ r.Is (p.value + q.value) := by
  refine addWith?_eq_some_iff fun x y m => ?_
  push_cast
  exact add_div _ _ _

theorem sub?_eq_some_iff :
    sub? p q = some r ↔ (∀ z ∈ sumSteps (· - ·) p q, IsWord z) ∧ r.Is (p.value - q.value) := by
  refine addWith?_eq_some_iff fun x y m => ?_
  push_cast
  exact sub_div _ _ _

/-! ## Products, negations and quotients -/

theorem neg?_eq_some_iff_is : neg? p = some r ↔ r.Is (-p.value) := by
  rw [neg?_eq_some_iff, denotes_iff p.den_pos.ne', value]
  push_cast
  rw [neg_div]

/-- Two fractions of which the common divisors are cancelled crosswise: what is left is their
product, in lowest terms. -/
theorem crosswise {a b c d : Int} (hab : a.natAbs.gcd b.natAbs = 1) (hcd : c.natAbs.gcd d.natAbs = 1)
    (hb : 0 < b) (hd : 0 < d) {g h : Int} (hg : g = (a.natAbs.gcd d.natAbs : Nat))
    (hh : h = (b.natAbs.gcd c.natAbs : Nat)) :
    0 < b / h * (d / g) ∧ (a / g * (c / h)).natAbs.gcd (b / h * (d / g)).natAbs = 1 ∧
      ((a / g * (c / h) : Int) : ℚ) / (b / h * (d / g) : Int) = (a / b : ℚ) * (c / d) := by
  have hgGcd : 0 < a.natAbs.gcd d.natAbs := Nat.gcd_pos_of_pos_right _ (by omega)
  have hhGcd : 0 < b.natAbs.gcd c.natAbs := Nat.gcd_pos_of_pos_left _ (by omega)
  have hgPos : 0 < g := by omega
  have hhPos : 0 < h := by omega
  have had : (a / g).gcd (d / g) = 1 := hg ▸ Int.gcd_ediv_gcd_ediv_gcd hgGcd
  have hbc : (b / h).gcd (c / h) = 1 := hh ▸ Int.gcd_ediv_gcd_ediv_gcd hhGcd
  have hga : g ∣ a := hg ▸ Int.gcd_dvd_left a d
  have hgd : g ∣ d := hg ▸ Int.gcd_dvd_right a d
  have hhb : h ∣ b := hh ▸ Int.gcd_dvd_left b c
  have hhc : h ∣ c := hh ▸ Int.gcd_dvd_right b c
  clear hg hh hgGcd hhGcd
  obtain ⟨a', rfl⟩ := hga
  obtain ⟨d', rfl⟩ := hgd
  obtain ⟨b', rfl⟩ := hhb
  obtain ⟨c', rfl⟩ := hhc
  simp only [Int.mul_ediv_cancel_left _ hgPos.ne', Int.mul_ediv_cancel_left _ hhPos.ne'] at had hbc ⊢
  have hb' : 0 < b' := (pos_iff_pos_of_mul_pos hb).1 hhPos
  have hd' : 0 < d' := (pos_iff_pos_of_mul_pos hd).1 hgPos
  refine ⟨Int.mul_pos hb' hd', ?_, ?_⟩
  · simp only [Int.natAbs_mul] at hab hcd ⊢
    -- Each factor of the one product has nothing in common with each factor of the other.
    have hab' : Nat.Coprime a'.natAbs b'.natAbs :=
      (Nat.Coprime.coprime_mul_left hab).coprime_mul_left_right
    have hcd' : Nat.Coprime c'.natAbs d'.natAbs :=
      (Nat.Coprime.coprime_mul_left hcd).coprime_mul_left_right
    have hcb' : Nat.Coprime c'.natAbs b'.natAbs := Nat.Coprime.symm hbc
    exact Nat.Coprime.mul_left (hab'.mul_right had) (hcb'.mul_right hcd')
  · have hgCast : (g : ℚ) ≠ 0 := Int.cast_ne_zero.2 hgPos.ne'
    have hhCast : (h : ℚ) ≠ 0 := Int.cast_ne_zero.2 hhPos.ne'
    have hbCast : (b' : ℚ) ≠ 0 := Int.cast_ne_zero.2 hb'.ne'
    have hdCast : (d' : ℚ) ≠ 0 := Int.cast_ne_zero.2 hd'.ne'
    push_cast
    field_simp

/-- A product is given exactly if it is a fraction: nothing on the way is greater than its parts. -/
theorem mul?_eq_some_iff : mul? p q = some r ↔ r.Is (p.value * q.value) := by
  obtain ⟨hPos, hCoprime, hValue⟩ :=
    crosswise p.coprime q.coprime p.den_pos q.den_pos rfl rfl
  refine (narrow?_reduce?_eq_some_iff hPos).trans ?_
  rw [hValue]
  constructor
  · exact fun h => h.2.2
  · intro h
    -- Nothing is left to cancel, so the two products are the words of the result.
    have hIs := h
    rw [value, value, ← hValue, ← denotes_iff hPos.ne',
      ← denotes_iff_of_lowest hPos hCoprime hPos.ne' rfl] at hIs
    exact ⟨isWord_iff.2 ⟨r.num, hIs.1⟩, isWord_iff.2 ⟨r.den, hIs.2⟩, h⟩

/-- Dividing two numbers by their greatest common divisor is exact. -/
theorem cast_ediv_gcd (a : Int) {b : Int} (hb : b ≠ 0) :
    ((a.natAbs.gcd b.natAbs : Nat) : ℚ) ≠ 0 ∧
      ((a / (a.natAbs.gcd b.natAbs : Nat) : Int) : ℚ) = a / (a.natAbs.gcd b.natAbs : Nat) ∧
      ((b / (a.natAbs.gcd b.natAbs : Nat) : Int) : ℚ) = b / (a.natAbs.gcd b.natAbs : Nat) := by
  have hGcd : ((a.natAbs.gcd b.natAbs : Nat) : ℚ) ≠ 0 :=
    Nat.cast_ne_zero.2 (Nat.gcd_pos_of_pos_right _ (Int.natAbs_pos.2 hb)).ne'
  have hGcdInt : (((a.natAbs.gcd b.natAbs : Nat) : Int) : ℚ) ≠ 0 := by exact_mod_cast hGcd
  have hLeft : ((a.natAbs.gcd b.natAbs : Nat) : Int) ∣ a := Int.gcd_dvd_left a b
  have hRight : ((a.natAbs.gcd b.natAbs : Nat) : Int) ∣ b := Int.gcd_dvd_right a b
  refine ⟨hGcd, ?_, ?_⟩
  · rw [Int.cast_div hLeft hGcdInt, Int.cast_natCast]
  · rw [Int.cast_div hRight hGcdInt, Int.cast_natCast]

/-- The unreduced quotient denotes the quotient. -/
theorem value_of_quotient? (h : q.isZero = false) {num den : Int64}
    (hQuotient : quotient? p q = some (num, den)) :
    (num.toInt : ℚ) / den.toInt = p.value / q.value := by
  have hZero : q.value ≠ 0 := by
    intro hZero
    rw [isZero_iff.2 hZero] at h
    cases h
  have hNum : (q.num.toInt : ℚ) ≠ 0 := by
    intro hNum
    exact hZero (by rw [value, hNum, zero_div])
  have hpDen := p.den_ne_zero
  have hqDen := q.den_ne_zero
  unfold value
  -- Equal denominators and equal numerators cancel as a whole; else both pairs are cancelled.
  unfold quotient? at hQuotient
  split at hQuotient
  · rename_i hSame
    cases hQuotient
    rw [← hSame]
    field_simp
  · split at hQuotient
    · rename_i hSame
      cases hQuotient
      rw [hSame]
      field_simp
    · simp only [Option.bind_eq_bind, Option.bind_eq_some_iff, narrow?_eq_some_iff] at hQuotient
      obtain ⟨n, hn, d, hd, hPair⟩ := hQuotient
      cases hPair
      rw [hn, hd]
      obtain ⟨hNums, hpNum, hqNum⟩ := cast_ediv_gcd p.num.toInt (Int.cast_ne_zero.1 hNum)
      obtain ⟨hDens, hpDens, hqDens⟩ := cast_ediv_gcd p.den.toInt q.den_pos.ne'
      push_cast
      rw [hpNum, hqNum, hpDens, hqDens]
      field_simp

/-- A quotient is given exactly if the unreduced one is, and it is exact. -/
theorem div?_eq_some_iff_is :
    div? p q = some r ↔ q.value ≠ 0 ∧ quotient? p q ≠ none ∧ r.Is (p.value / q.value) := by
  by_cases hZero : q.isZero = true
  · have hNone : div? p q = none := by
      unfold div?
      rw [if_pos hZero]
    rw [hNone]
    exact iff_of_false (by simp) fun h => h.1 (isZero_iff.1 hZero)
  · have hValue : q.value ≠ 0 := fun h => hZero (isZero_iff.2 h)
    rw [Bool.not_eq_true] at hZero
    cases hQuotient : quotient? p q with
    | none =>
        have hNone : div? p q = none := by
          unfold div?
          rw [hZero, hQuotient]
          rfl
        rw [hNone]
        exact iff_of_false (by simp) fun h => h.2.1 rfl
    | some words =>
        obtain ⟨num, den⟩ := words
        rw [div?_eq_some_iff hZero hQuotient,
          denotes_iff (quotient?_den_ne_zero hZero hQuotient), value_of_quotient? hZero hQuotient]
        exact ⟨fun h => ⟨hValue, by simp, h⟩, fun h => h.2.2⟩

/-- An inverse is given exactly if it is a fraction. -/
theorem div?_one_eq_some_iff : div? one q = some r ↔ q.value ≠ 0 ∧ r.Is q.value⁻¹ := by
  have hOneNum : one.num.toInt = 1 := by decide
  have hOneDen : one.den.toInt = 1 := by decide
  have hQuotient : quotient? one q ≠ none := by
    unfold quotient?
    split
    · simp
    · split
      · simp
      · simp [hOneNum, hOneDen, narrow?_toInt]
  rw [div?_eq_some_iff_is, value_one, one_div]
  exact ⟨fun h => ⟨h.1, h.2.2⟩, fun h => ⟨h.1, hQuotient, h.2⟩⟩

end Rational
end CellMachine
