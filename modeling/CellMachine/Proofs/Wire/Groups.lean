import CellMachine.Proofs.Wire.UnsignedGroups
import Mathlib.Tactic.Linarith
import Mathlib.Tactic.Positivity

/-!
# Groups of seven bits, with a sign

The integer that a group denotes is defined here without the reader: the number of its digits, less
a power of two if bit six of the last byte is set.

Main statement: the reader of signed groups takes groups of at most ten bytes for their integer
modulo `2 ^ 64`, and refuses all longer ones.  That is the integer itself for up to nine bytes.  A
tenth byte has room for one bit only, and what its other bits say is NOT checked, although the
reader of unsigned groups does check it: of the groups of ten bytes that denote no word, none is
refused (`signed_exact_iff`, `signed_drops_bits`).
-/

namespace CellMachine
namespace Wire

/-! ## What a group denotes -/

/-- Bit six of the last byte of a group. -/
def isNegative (group : List UInt8) : Bool := group.getLast?.any fun last => 64 ≤ payload last

/-- The integer that a group denotes in two's complement. -/
def signedValue (group : List UInt8) : Int :=
  groupValue group - if isNegative group then 2 ^ (7 * group.length) else 0

theorem signedValue_singleton (b : UInt8) :
    signedValue [b] = if 64 ≤ payload b then (payload b : Int) - 128 else payload b := by
  simp only [signedValue, groupValue, isNegative, List.getLast?_singleton, Option.any_some,
    decide_eq_true_eq, List.length_singleton]
  split <;> simp

/-- The sign of a group is that of what follows its first byte. -/
theorem signedValue_cons (b : UInt8) {rest : List UInt8} (h : rest ≠ []) :
    signedValue (b :: rest) = payload b + 128 * signedValue rest := by
  have hSign : isNegative (b :: rest) = isNegative rest := by
    unfold isNegative
    rw [List.getLast?_cons, List.getLast?_eq_some_getLast h]
    rfl
  have hPow : (2 : Int) ^ (7 * (rest.length + 1)) = 128 * 2 ^ (7 * rest.length) := by
    rw [Nat.mul_add, pow_add]
    ring
  simp only [signedValue, hSign, groupValue, List.length_cons]
  split
  · rw [hPow]
    push_cast
    ring
  · push_cast
    ring

/-! ## Reading a signed group -/

/-- Whole multiples of the word size do not show in a word. -/
theorem ofInt_add_word (z k : Int) : Int64.ofInt (z + k * 2 ^ 64) = Int64.ofInt z := by
  apply Int64.toInt_inj.1
  rw [Int64.toInt_ofInt, Int64.toInt_ofInt]
  exact Int.add_mul_bmod_self_right z k (2 ^ 64)

/-- The last byte of a group: bit six of it is the sign of the integer, which is read from that bit
below the last position and falls out of the word at it. -/
theorem signed_last_value {z : Int} {shift : Nat} (acc : Nat) (hShift : shift ≤ 63)
    (hLast : (z / 128 = 0 ∧ z % 128 < 64) ∨ (z / 128 = -1 ∧ 64 ≤ z % 128)) :
    Int64.ofInt ((acc + (z % 128).toNat <<< shift : Nat) -
        if shift + 7 < 64 ∧ 64 ≤ (z % 128).toNat then ((1 <<< (shift + 7) : Nat) : Int) else 0) =
      Int64.ofInt (acc + z * 2 ^ shift) := by
  have hLow : ((z % 128).toNat : Int) = z % 128 := Int.toNat_of_nonneg (by omega)
  rw [Nat.shiftLeft_eq, Nat.shiftLeft_eq]
  push_cast
  rw [hLow]
  rcases hLast with ⟨hRest, hSign⟩ | ⟨hRest, hSign⟩
  · have hValue : z % 128 = z := by omega
    rw [if_neg (by omega), hValue, Int.sub_zero]
  · have hValue : z % 128 = z + 128 := by omega
    rw [hValue]
    by_cases hInner : shift + 7 < 64
    · rw [if_pos ⟨hInner, by omega⟩]
      congr 1
      rw [pow_add]
      ring
    · obtain ⟨extra, rfl⟩ : ∃ extra, shift = 57 + extra := ⟨shift - 57, by omega⟩
      rw [if_neg (by omega), Int.sub_zero, ← ofInt_add_word (acc + z * 2 ^ (57 + extra)) (2 ^ extra)]
      congr 1
      rw [pow_add]
      ring

/-- The last byte of a group in the reader: its bits above the word fall out. -/
theorem signedFrom_last {b : UInt8} (hLast : continues b = false) {shift : Nat} (hShift : shift ≤ 63)
    (acc : Nat) (rest : List UInt8) :
    signedFrom shift acc (b :: rest) =
      (.ok (Int64.ofInt (acc + signedValue [b] * 2 ^ shift)), rest) := by
  have hPayload := payload_lt b
  have hDigit : signedValue [b] % 128 = payload b := by
    rw [signedValue_singleton]
    split <;> omega
  have hEnd : (signedValue [b] / 128 = 0 ∧ signedValue [b] % 128 < 64) ∨
      (signedValue [b] / 128 = -1 ∧ 64 ≤ signedValue [b] % 128) := by
    rw [signedValue_singleton]
    split <;> omega
  have hValue := signed_last_value acc hShift hEnd
  rw [hDigit, Int.toNat_natCast] at hValue
  rw [← hValue, signedFrom, if_neg (by omega), hLast]
  rfl

/-- A group is read as its integer, as far as a word holds it, if its last byte still has a place in
the word. -/
theorem signedFrom_group {group : List UInt8} (hGroup : IsGroup group) {shift : Nat}
    (hShift : shift + 7 * (group.length - 1) ≤ 63) (acc : Nat) (rest : List UInt8) :
    signedFrom shift acc (group ++ rest) =
      (.ok (Int64.ofInt (acc + signedValue group * 2 ^ shift)), rest) := by
  induction group generalizing shift acc with
  | nil => exact absurd rfl hGroup.ne_nil
  | cons b behind ih =>
      rw [List.length_cons, Nat.add_sub_cancel] at hShift
      cases hNext : continues b with
      | false =>
          obtain rfl := (isGroup_cons_of_not_continues hNext).1 hGroup
          exact signedFrom_last hNext (by omega) acc rest
      | true =>
          have hBehind := (isGroup_cons_of_continues hNext).1 hGroup
          have hLength := List.length_pos_iff.2 hBehind.ne_nil
          rw [List.cons_append, signedFrom, if_neg (by omega), hNext]
          simp only [if_true]
          rw [ih hBehind (by omega), signedValue_cons b hBehind.ne_nil, Nat.shiftLeft_eq]
          congr 3
          push_cast
          rw [pow_add]
          ring

/-- A group whose last byte has no place in the word any more is refused. -/
theorem signedFrom_long {group : List UInt8} (hGroup : IsGroup group) {shift : Nat}
    (hShift : 63 < shift + 7 * (group.length - 1)) (acc : Nat) (rest : List UInt8) :
    ∃ left, signedFrom shift acc (group ++ rest) = (.error .signedOverflow, left) := by
  induction group generalizing shift acc with
  | nil => exact absurd rfl hGroup.ne_nil
  | cons b behind ih =>
      rw [List.cons_append, signedFrom]
      by_cases hOver : 63 < shift
      · exact ⟨_, if_pos hOver⟩
      · rw [List.length_cons, Nat.add_sub_cancel] at hShift
        rw [if_neg hOver]
        cases hNext : continues b with
        | false =>
            obtain rfl := (isGroup_cons_of_not_continues hNext).1 hGroup
            exact absurd hShift hOver
        | true =>
            have hBehind := (isGroup_cons_of_continues hNext).1 hGroup
            have hLength := List.length_pos_iff.2 hBehind.ne_nil
            exact ih hBehind (by omega) _

/-- Bytes in which no group ends are refused. -/
theorem signedFrom_continues {bytes : List UInt8} (h : ∀ b ∈ bytes, continues b = true)
    (shift acc : Nat) : ∃ e left, signedFrom shift acc bytes = (.error e, left) := by
  induction bytes generalizing shift acc with
  | nil => exact ⟨_, _, rfl⟩
  | cons b rest ih =>
      rw [List.forall_mem_cons] at h
      rw [signedFrom]
      by_cases hOver : 63 < shift
      · exact ⟨_, _, if_pos hOver⟩
      · rw [if_neg hOver, h.1]
        exact ih h.2 _ _

theorem signed_group {group : List UInt8} (hGroup : IsGroup group) (hLength : group.length ≤ 10)
    (rest : List UInt8) : signed (group ++ rest) = (.ok (Int64.ofInt (signedValue group)), rest) := by
  unfold signed
  rw [signedFrom_group hGroup (by omega)]
  simp

theorem signed_long {group : List UInt8} (hGroup : IsGroup group) (hLength : 10 < group.length)
    (rest : List UInt8) : ∃ left, signed (group ++ rest) = (.error .signedOverflow, left) :=
  signedFrom_long hGroup (by omega) 0 rest

/-- What is read is a group of at most ten bytes. -/
theorem exists_group_of_signed {bytes rest : List UInt8} {i : Int64}
    (h : signed bytes = (.ok i, rest)) :
    ∃ group, IsGroup group ∧ group.length ≤ 10 ∧ bytes = group ++ rest ∧
      i = Int64.ofInt (signedValue group) := by
  rcases exists_group_or_continues bytes with ⟨group, behind, hGroup, rfl⟩ | hAll
  · by_cases hLength : group.length ≤ 10
    · rw [signed_group hGroup hLength] at h
      cases h
      exact ⟨group, hGroup, hLength, rfl, rfl⟩
    · obtain ⟨left, hLong⟩ := signed_long hGroup (by omega) behind
      rw [hLong] at h
      cases h
  · obtain ⟨e, left, hError⟩ := signedFrom_continues hAll 0 0
    rw [signed, hError] at h
    cases h

/-! ## Groups that denote words -/

/-- The last byte of a group is its most significant digit, and the only one with a sign. -/
theorem signedValue_append_last (inner : List UInt8) (last : UInt8) :
    signedValue (inner ++ [last]) =
      groupValue inner + 2 ^ (7 * inner.length) * signedValue [last] := by
  induction inner with
  | nil => simp [groupValue]
  | cons b rest ih =>
      rw [List.cons_append, signedValue_cons b (by simp), ih, groupValue, List.length_cons,
        Nat.mul_add, pow_add]
      push_cast
      ring

/-- Nine bytes have sixty-three bits. -/
theorem isWord_of_length_le {group : List UInt8} (hGroup : IsGroup group)
    (hLength : group.length ≤ 9) : Integer.IsWord (signedValue group) := by
  rcases List.eq_nil_or_concat' group with rfl | ⟨inner, last, rfl⟩
  · exact absurd rfl hGroup.ne_nil
  · rw [List.length_append, List.length_singleton] at hLength
    have hPayload := payload_lt last
    have hDigit : -64 ≤ signedValue [last] ∧ signedValue [last] < 64 := by
      rw [signedValue_singleton]
      split <;> omega
    have hLow : (groupValue inner : Int) < 2 ^ (7 * inner.length) := by
      exact_mod_cast groupValue_lt inner
    have hPow : (2 : Int) ^ (7 * inner.length) ≤ 2 ^ 56 := by
      exact_mod_cast Nat.pow_le_pow_right (by omega : 0 < 2) (by omega : 7 * inner.length ≤ 56)
    have hPos : (0 : Int) < 2 ^ (7 * inner.length) := by positivity
    rw [signedValue_append_last]
    generalize (2 : Int) ^ (7 * inner.length) = unit at hLow hPow hPos
    unfold Integer.IsWord
    constructor <;> nlinarith

/-- The tenth byte of a group has a place for one bit only.  The others have to repeat it, or the
group denotes no word. -/
theorem isWord_of_length_eq {group : List UInt8} (hLength : group.length = 10) :
    Integer.IsWord (signedValue group) ↔
      ∀ last ∈ group.getLast?, payload last = 0 ∨ payload last = 127 := by
  rcases List.eq_nil_or_concat' group with rfl | ⟨inner, last, rfl⟩
  · cases hLength
  · have hInner : inner.length = 9 := by simpa using hLength
    have hPayload := payload_lt last
    have hLow : groupValue inner < 2 ^ 63 := by simpa [hInner] using groupValue_lt inner
    rw [signedValue_append_last, hInner, signedValue_singleton, List.getLast?_concat]
    unfold Integer.IsWord
    constructor
    · rintro hWord _ ⟨⟩
      split at hWord <;> omega
    · intro hLast
      have hLast := hLast last rfl
      split <;> omega

/-- The reader takes a group for the integer that it denotes.  Groups of more than ten bytes and
groups that denote no word are refused. -/
def ReadsExactly (group rest : List UInt8) : Prop :=
  (group.length ≤ 10 ∧ Integer.IsWord (signedValue group) →
    ∃ i : Int64, signed (group ++ rest) = (.ok i, rest) ∧ i.toInt = signedValue group) ∧
  (¬(group.length ≤ 10 ∧ Integer.IsWord (signedValue group)) →
    ∃ left, signed (group ++ rest) = (.error .signedOverflow, left))

/-- Bytes are read as an integer exactly if they start with a group of at most ten bytes.  The
integer is that of the group modulo `2 ^ 64`, so the group is read for what it denotes, or refused
if that is no word, unless it has a tenth byte with bits in it that fall out of the word. -/
theorem signed_exact_iff (bytes : List UInt8) :
    (∀ rest i, signed bytes = (.ok i, rest) ↔
      ∃ group, IsGroup group ∧ group.length ≤ 10 ∧ bytes = group ++ rest ∧
        i.toInt = (signedValue group).bmod (2 ^ 64)) ∧
    ∀ group rest, IsGroup group → bytes = group ++ rest →
      (ReadsExactly group rest ↔
        (group.length = 10 → ∀ last ∈ group.getLast?, payload last = 0 ∨ payload last = 127)) := by
  refine ⟨fun rest i => ⟨fun h => ?_, ?_⟩, fun group rest hGroup _ => ?_⟩
  · obtain ⟨group, hGroup, hLength, hBytes, rfl⟩ := exists_group_of_signed h
    exact ⟨group, hGroup, hLength, hBytes, Int64.toInt_ofInt⟩
  · rintro ⟨group, hGroup, hLength, rfl, hValue⟩
    have hWord : i = Int64.ofInt (signedValue group) := by
      apply Int64.toInt_inj.1
      exact hValue.trans Int64.toInt_ofInt.symm
    rw [signed_group hGroup hLength, hWord]
  · constructor
    · rintro ⟨-, hRefused⟩ hTen
      rw [← isWord_of_length_eq hTen]
      by_contra hWord
      obtain ⟨left, hError⟩ := hRefused fun h => hWord h.2
      rw [signed_group hGroup (by omega)] at hError
      cases hError
    · intro hTenth
      -- All groups that are not too long denote words then.
      have hWord (hLength : group.length ≤ 10) : Integer.IsWord (signedValue group) := by
        by_cases hTen : group.length = 10
        · exact (isWord_of_length_eq hTen).2 (hTenth hTen)
        · exact isWord_of_length_le hGroup (by omega)
      constructor
      · rintro ⟨hLength, hLow, hHigh⟩
        exact ⟨_, signed_group hGroup hLength rest, Int64.toInt_ofInt_of_le hLow hHigh⟩
      · intro hNot
        exact signed_long hGroup (by_contra fun h => hNot ⟨by omega, hWord (by omega)⟩) rest

/-- The least word takes all ten bytes, and the last of them repeats its sign. -/
def leastGroup : List UInt8 := [0x80, 0x80, 0x80, 0x80, 0x80, 0x80, 0x80, 0x80, 0x80, 0x7F]

theorem signed_exact_least :
    IsGroup leastGroup ∧ signedValue leastGroup = -2 ^ 63 ∧
      ∃ i : Int64, signed (leastGroup ++ [0x05]) = (.ok i, [0x05]) ∧ i.toInt = -2 ^ 63 := by
  have hGroup : IsGroup leastGroup := by decide
  have hValue : signedValue leastGroup = -2 ^ 63 := by decide
  have hTenth : ∀ last ∈ leastGroup.getLast?, payload last = 0 ∨ payload last = 127 := by
    rintro _ ⟨⟩
    exact Or.inr rfl
  have hExact := ((signed_exact_iff (leastGroup ++ [0x05])).2 leastGroup [0x05] hGroup rfl).2
    fun _ => hTenth
  obtain ⟨i, hRead, hInt⟩ := hExact.1 (by rw [hValue]; decide)
  exact ⟨hGroup, hValue, i, hRead, hInt.trans hValue⟩

/-- A group of ten bytes for `2 ^ 64`. -/
def droppedGroup : List UInt8 := [0x80, 0x80, 0x80, 0x80, 0x80, 0x80, 0x80, 0x80, 0x80, 0x02]

/-- The group denotes no word, but it is read, and as zero; read as an unsigned group it is
refused. -/
theorem signed_drops_bits :
    IsGroup droppedGroup ∧ signedValue droppedGroup = 2 ^ 64 ∧
      signed droppedGroup = (.ok 0, []) ∧ ¬ReadsExactly droppedGroup [] ∧
      unsigned droppedGroup = (.error .unsignedOverflow, []) := by
  refine ⟨by decide, by decide, by decide, fun h => ?_, by decide⟩
  obtain ⟨left, hError⟩ := h.2 (by decide)
  have hRead : signed (droppedGroup ++ []) = (.ok 0, []) := by decide
  rw [hRead] at hError
  cases hError

end Wire
end CellMachine
