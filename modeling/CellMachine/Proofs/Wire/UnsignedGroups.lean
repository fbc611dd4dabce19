import CellMachine.Wire.Reader
import Mathlib.Data.List.Basic
import Mathlib.Tactic.Ring

/-!
# Groups of seven bits, without a sign

An integer in the bytes is a group: every byte but the last is followed by another one, and each
carries seven bits, the least significant first.  The number that the digits of a group make up is
defined here without the reader.

Main statement: from any position the reader takes exactly the groups of at most ten bytes whose
number is below `2 ^ 64`, and takes them for that number; it lacks bytes exactly if all that are left
are followed by another one and no overflow has been met in them (`unsigned_exact`).  The digits are
summed up as a natural number, which never differs from what shifting and joining by or would leave
in a word of sixty-four bits.

A group need NOT be the shortest one for its number: digits of zero at its end are read as long as
there are no more than ten bytes.  Of eleven bytes even a zero is refused.
-/

namespace CellMachine
namespace Wire

/-! ## Groups -/

/-- A group of bytes: each of them says that another one follows, except the last. -/
def IsGroup : List UInt8 → Prop
  | [] => False
  | b :: rest => if continues b then IsGroup rest else rest = []

instance IsGroup.decidable : (group : List UInt8) → Decidable (IsGroup group)
  | [] => .isFalse id
  | b :: rest =>
    have := decidable rest
    inferInstanceAs (Decidable (if continues b then IsGroup rest else rest = []))

theorem IsGroup.ne_nil {group : List UInt8} (h : IsGroup group) : group ≠ [] := by
  rintro rfl
  exact h

theorem isGroup_cons_of_continues {b : UInt8} {rest : List UInt8} (h : continues b = true) :
    IsGroup (b :: rest) ↔ IsGroup rest := by
  rw [IsGroup, if_pos h]

theorem isGroup_cons_of_not_continues {b : UInt8} {rest : List UInt8} (h : continues b = false) :
    IsGroup (b :: rest) ↔ rest = [] := by
  rw [IsGroup, if_neg (by rw [h]; decide)]

theorem IsGroup.exists_last {group : List UInt8} (h : IsGroup group) :
    ∃ inner last, group = inner ++ [last] ∧ (∀ b ∈ inner, continues b = true) ∧
      continues last = false := by
  induction group with
  | nil => exact absurd rfl h.ne_nil
  | cons b rest ih =>
      cases hNext : continues b with
      | false =>
          obtain rfl := (isGroup_cons_of_not_continues hNext).1 h
          exact ⟨[], b, rfl, by simp, hNext⟩
      | true =>
          obtain ⟨inner, last, rfl, hInner, hLast⟩ := ih ((isGroup_cons_of_continues hNext).1 h)
          exact ⟨b :: inner, last, rfl, List.forall_mem_cons.2 ⟨hNext, hInner⟩, hLast⟩

/-- Bytes start with a group, or no group ends in them. -/
theorem exists_group_or_continues (bytes : List UInt8) :
    (∃ group rest, IsGroup group ∧ bytes = group ++ rest) ∨ ∀ b ∈ bytes, continues b = true := by
  induction bytes with
  | nil => exact Or.inr fun b hb => by cases hb
  | cons b rest ih =>
      cases hNext : continues b with
      | false =>
          exact Or.inl ⟨[b], rest, (isGroup_cons_of_not_continues hNext).2 rfl, rfl⟩
      | true =>
          rcases ih with ⟨group, behind, hGroup, rfl⟩ | hAll
          · exact Or.inl ⟨b :: group, behind, (isGroup_cons_of_continues hNext).2 hGroup, rfl⟩
          · exact Or.inr (List.forall_mem_cons.2 ⟨hNext, hAll⟩)

/-! ## The number of a group -/

/-- The number that the digits of a group make up. -/
def groupValue : List UInt8 → Nat
  | [] => 0
  | b :: rest => payload b + 128 * groupValue rest

theorem payload_lt (b : UInt8) : payload b < 128 := Nat.mod_lt _ (by decide)

/-- Each byte has room for a hundred and twenty-eight times as many numbers. -/
theorem pow_seven_succ (k : Nat) : 2 ^ (7 * (k + 1)) = 128 * 2 ^ (7 * k) := by
  rw [Nat.mul_add, pow_add]
  ring

theorem groupValue_lt (bytes : List UInt8) : groupValue bytes < 2 ^ (7 * bytes.length) := by
  induction bytes with
  | nil => decide
  | cons b rest ih =>
      have hPayload := payload_lt b
      rw [groupValue, List.length_cons, pow_seven_succ]
      omega

/-- The last byte of a group is its most significant digit. -/
theorem groupValue_concat (inner : List UInt8) (last : UInt8) :
    groupValue (inner ++ [last]) = groupValue inner + payload last * 2 ^ (7 * inner.length) := by
  induction inner with
  | nil => simp [groupValue]
  | cons b rest ih =>
      rw [List.cons_append, groupValue, ih, groupValue, List.length_cons, pow_seven_succ]
      ring

/-- No overflow has been met in some bytes: there are at most ten of them, and the number that they
make up has a place in a word. -/
def FitsWord (bytes : List UInt8) : Prop := bytes.length ≤ 10 ∧ groupValue bytes < 2 ^ 64

/-- Nine bytes have sixty-three bits. -/
theorem fitsWord_of_length_le {bytes : List UInt8} (h : bytes.length ≤ 9) : FitsWord bytes := by
  have hValue := groupValue_lt bytes
  have hPow : 2 ^ (7 * bytes.length) ≤ 2 ^ 63 := Nat.pow_le_pow_right (by omega) (by omega)
  exact ⟨by omega, by omega⟩

/-- The tenth byte has a place for one bit. -/
theorem fitsWord_tenth_iff {inner : List UInt8} (hInner : inner.length = 9) (tenth : UInt8) :
    FitsWord (inner ++ [tenth]) ↔ payload tenth ≤ 1 := by
  have hLow : groupValue inner < 2 ^ 63 := by simpa [hInner] using groupValue_lt inner
  rw [FitsWord, groupValue_concat, List.length_append, hInner, List.length_singleton]
  constructor
  · rintro ⟨-, hValue⟩
    omega
  · intro hBit
    constructor <;> omega

theorem FitsWord.last {inner : List UInt8} {last : UInt8} (h : FitsWord (inner ++ [last])) :
    inner.length ≤ 9 ∧ (7 * inner.length = 63 → payload last ≤ 1) := by
  have hLength := h.1
  rw [List.length_append, List.length_singleton] at hLength
  exact ⟨by omega, fun hNine => (fitsWord_tenth_iff (by omega) last).1 h⟩

/-! ## Reading -/

/-- A byte whose bits all have a place in the word. -/
theorem unsignedFrom_cons {shift : Nat} {b : UInt8} (hShift : shift ≤ 63)
    (hBit : shift = 63 → payload b ≤ 1) (acc : Nat) (rest : List UInt8) :
    unsignedFrom shift acc (b :: rest) =
      if continues b then unsignedFrom (shift + 7) (acc + payload b <<< shift) rest
      else (.ok (UInt64.ofNat (acc + payload b <<< shift)), rest) := by
  rw [unsignedFrom, if_neg (by omega)]

/-- Bytes that are followed by another one move the position on by seven bits each, and their number
is added at the place where they begin. -/
theorem unsignedFrom_inner {inner : List UInt8} (hInner : ∀ b ∈ inner, continues b = true)
    {shift : Nat} (hShift : shift + 7 * inner.length ≤ 63) (acc : Nat) (rest : List UInt8) :
    unsignedFrom shift acc (inner ++ rest) =
      unsignedFrom (shift + 7 * inner.length) (acc + groupValue inner * 2 ^ shift) rest := by
  induction inner generalizing shift acc with
  | nil => simp [groupValue]
  | cons b more ih =>
      rw [List.forall_mem_cons] at hInner
      rw [List.length_cons] at hShift
      have hPlace : shift + 7 + 7 * more.length = shift + 7 * (more.length + 1) := by omega
      have hValue : acc + payload b <<< shift + groupValue more * 2 ^ (shift + 7) =
          acc + groupValue (b :: more) * 2 ^ shift := by
        rw [groupValue, Nat.shiftLeft_eq, pow_add]
        ring
      rw [List.cons_append, unsignedFrom_cons (by omega) (by omega), hInner.1]
      simp only [if_true]
      rw [ih hInner.2 (by omega), hValue, hPlace, List.length_cons]

theorem unsigned_inner {inner : List UInt8} (hInner : ∀ b ∈ inner, continues b = true)
    (hLength : inner.length ≤ 9) (rest : List UInt8) :
    unsigned (inner ++ rest) = unsignedFrom (7 * inner.length) (groupValue inner) rest := by
  rw [unsigned, unsignedFrom_inner hInner (by omega)]
  simp

theorem unsigned_group {group : List UInt8} (hGroup : IsGroup group) (hFits : FitsWord group)
    (rest : List UInt8) :
    unsigned (group ++ rest) = (.ok (UInt64.ofNat (groupValue group)), rest) := by
  obtain ⟨inner, last, rfl, hInner, hLast⟩ := hGroup.exists_last
  obtain ⟨hLength, hBit⟩ := hFits.last
  rw [List.append_assoc, unsigned_inner hInner hLength, List.singleton_append,
    unsignedFrom_cons (by omega) hBit, hLast, groupValue_concat, Nat.shiftLeft_eq]
  rfl

theorem unsigned_continues {bytes : List UInt8} (hAll : ∀ b ∈ bytes, continues b = true)
    (hFits : FitsWord bytes) : unsigned bytes = (.error .noMoreBytes, []) := by
  rcases List.eq_nil_or_concat' bytes with rfl | ⟨inner, last, rfl⟩
  · rfl
  · obtain ⟨hLength, hBit⟩ := hFits.last
    have hInner (b : UInt8) (hb : b ∈ inner) : continues b = true := hAll b (by simp [hb])
    rw [unsigned_inner hInner hLength, unsignedFrom_cons (by omega) hBit, hAll last (by simp)]
    rfl

/-- Bytes that do not fit are refused at the tenth one or at the eleventh. -/
theorem unsigned_refused {bytes : List UInt8} (hInner : ∀ b ∈ bytes.dropLast, continues b = true)
    (hOver : ¬FitsWord bytes) (rest : List UInt8) :
    ∃ left, unsigned (bytes ++ rest) = (.error .unsignedOverflow, left) := by
  have hLength : 9 < bytes.length := by
    by_contra hShort
    exact hOver (fitsWord_of_length_le (by omega))
  obtain ⟨nine, tenth, more, rfl, hNine⟩ :
      ∃ nine tenth more, bytes = nine ++ tenth :: more ∧ nine.length = 9 := by
    refine ⟨bytes.take 9, bytes[9], bytes.drop 10, ?_, by simp; omega⟩
    simp
  rw [List.dropLast_append_of_ne_nil (by simp)] at hInner
  rw [List.append_assoc, unsigned_inner (fun b hb => hInner b (by simp [hb])) (by omega),
    List.cons_append, hNine]
  by_cases hBit : payload tenth ≤ 1
  · cases more with
    | nil => exact absurd ((fitsWord_tenth_iff hNine tenth).2 hBit) hOver
    | cons eleventh more =>
        rw [unsignedFrom_cons (by omega) (fun _ => hBit), hInner tenth (by simp)]
        exact ⟨more ++ rest, rfl⟩
  · rw [unsignedFrom, if_pos (by omega)]
    exact ⟨more ++ rest, rfl⟩

theorem unsigned_group_refused {group : List UInt8} (hGroup : IsGroup group)
    (hOver : ¬FitsWord group) (rest : List UInt8) :
    ∃ left, unsigned (group ++ rest) = (.error .unsignedOverflow, left) := by
  obtain ⟨inner, last, rfl, hInner, -⟩ := hGroup.exists_last
  refine unsigned_refused ?_ hOver rest
  rwa [List.dropLast_concat]

/-- The three ways in which reading an unsigned group ends. -/
theorem unsigned_cases (bytes : List UInt8) :
    (∃ group rest, bytes = group ++ rest ∧ IsGroup group ∧ FitsWord group ∧
      unsigned bytes = (.ok (UInt64.ofNat (groupValue group)), rest)) ∨
    ((∀ b ∈ bytes, continues b = true) ∧ FitsWord bytes ∧
      unsigned bytes = (.error .noMoreBytes, [])) ∨
    ∃ left, unsigned bytes = (.error .unsignedOverflow, left) := by
  rcases exists_group_or_continues bytes with ⟨group, rest, hGroup, rfl⟩ | hAll
  · by_cases hFits : FitsWord group
    · exact Or.inl ⟨group, rest, rfl, hGroup, hFits, unsigned_group hGroup hFits rest⟩
    · exact Or.inr (Or.inr (unsigned_group_refused hGroup hFits rest))
  · by_cases hFits : FitsWord bytes
    · exact Or.inr (Or.inl ⟨hAll, hFits, unsigned_continues hAll hFits⟩)
    · have hOver := unsigned_refused (fun b hb => hAll b (List.dropLast_subset _ hb)) hFits []
      rw [List.append_nil] at hOver
      exact Or.inr (Or.inr hOver)

theorem unsigned_eq_ok_iff (bytes rest : List UInt8) (n : UInt64) :
    unsigned bytes = (.ok n, rest) ↔
      ∃ group, bytes = group ++ rest ∧ IsGroup group ∧ FitsWord group ∧
        n.toNat = groupValue group := by
  constructor
  · intro hRead
    rcases unsigned_cases bytes with
      ⟨group, behind, hBytes, hGroup, hFits, hGroupRead⟩ | ⟨-, -, hEnd⟩ | ⟨left, hOver⟩
    · rw [hGroupRead] at hRead
      cases hRead
      refine ⟨group, hBytes, hGroup, hFits, ?_⟩
      rw [UInt64.toNat_ofNat']
      exact Nat.mod_eq_of_lt hFits.2
    · rw [hEnd] at hRead
      cases hRead
    · rw [hOver] at hRead
      cases hRead
  · rintro ⟨group, rfl, hGroup, hFits, hValue⟩
    rw [unsigned_group hGroup hFits, ← hValue, UInt64.ofNat_toNat]

theorem unsigned_isEnd_iff (bytes rest : List UInt8) (e : ReadError) :
    unsigned bytes = (.error e, rest) ∧ e.isEnd = true ↔
      e = .noMoreBytes ∧ rest = [] ∧ (∀ b ∈ bytes, continues b = true) ∧ FitsWord bytes := by
  constructor
  · rintro ⟨hRead, hKind⟩
    rcases unsigned_cases bytes with
      ⟨group, behind, -, -, -, hGroupRead⟩ | ⟨hAll, hFits, hEnd⟩ | ⟨left, hOver⟩
    · rw [hGroupRead] at hRead
      cases hRead
    · rw [hEnd] at hRead
      cases hRead
      exact ⟨rfl, rfl, hAll, hFits⟩
    · rw [hOver] at hRead
      cases hRead
      cases hKind
  · rintro ⟨rfl, rfl, hAll, hFits⟩
    exact ⟨unsigned_continues hAll hFits, rfl⟩

/-! ## The number in a word -/

/-- The reader with the number so far in a word: the bits of a byte are shifted to their place and
joined to it by or. -/
def unsignedWordFrom (shift : Nat) (acc : UInt64) : List UInt8 → Read UInt64
  | [] => (.error .noMoreBytes, [])
  | b :: rest =>
    if (shift = 63 ∧ 1 < payload b) ∨ 63 < shift then (.error .unsignedOverflow, rest)
    else
      let acc := acc ||| UInt64.ofNat (payload b) <<< UInt64.ofNat shift
      if continues b then unsignedWordFrom (shift + 7) acc rest else (.ok acc, rest)

/-- The bits of a byte meet none of those below its place. -/
theorem or_shiftLeft_payload {shift acc : Nat} (hShift : shift ≤ 63) (hAcc : acc < 2 ^ shift)
    (b : UInt8) :
    UInt64.ofNat acc ||| UInt64.ofNat (payload b) <<< UInt64.ofNat shift =
      UInt64.ofNat (acc + payload b <<< shift) := by
  rw [Nat.add_comm, Nat.shiftLeft_add_eq_or_of_lt hAcc, Nat.or_comm, UInt64.ofNat_or,
    UInt64.ofNat_shiftLeft _ _ (by omega)]

/-- The position is always above all bits that were read, so a word takes them as a sum does. -/
theorem unsignedWordFrom_eq {shift acc : Nat} (hAcc : acc < 2 ^ shift) (bytes : List UInt8) :
    unsignedWordFrom shift (UInt64.ofNat acc) bytes = unsignedFrom shift acc bytes := by
  induction bytes generalizing shift acc with
  | nil => rfl
  | cons b rest ih =>
      rw [unsignedWordFrom, unsignedFrom]
      split
      · rfl
      · rename_i hPlace
        have hNext : acc + payload b <<< shift < 2 ^ (shift + 7) := by
          calc acc + payload b <<< shift < 2 ^ shift + payload b * 2 ^ shift := by
                rw [Nat.shiftLeft_eq]
                omega
            _ = (payload b + 1) * 2 ^ shift := by ring
            _ ≤ 2 ^ 7 * 2 ^ shift := Nat.mul_le_mul_right _ (payload_lt b)
            _ = 2 ^ (shift + 7) := by rw [pow_add, Nat.mul_comm]
        simp only [or_shiftLeft_payload (by omega) hAcc b, ih hNext]

/-! ## Exactness -/

/-- From any position an unsigned group is read exactly: as the number of a group that stands there,
if it has at most ten bytes and its number is below `2 ^ 64`, and the position moves on by its
length.  Bytes are lacking exactly if all that are left are followed by another one and fit a word
so far.  All of this is the same with the number so far in a word. -/
theorem unsigned_exact (bytes : List UInt8) (start : Nat) :
    (∀ n rest, unsigned (bytes.drop start) = (.ok n, rest) ↔
      ∃ group, group <+: bytes.drop start ∧ IsGroup group ∧ FitsWord group ∧
        n.toNat = groupValue group ∧ rest = bytes.drop (start + group.length)) ∧
    (∀ e rest, unsigned (bytes.drop start) = (.error e, rest) ∧ e.isEnd = true ↔
      e = .noMoreBytes ∧ rest = [] ∧ (∀ b ∈ bytes.drop start, continues b = true) ∧
        FitsWord (bytes.drop start)) ∧
    unsigned (bytes.drop start) = unsignedWordFrom 0 0 (bytes.drop start) := by
  refine ⟨fun n rest => ?_, fun e rest => unsigned_isEnd_iff (bytes.drop start) rest e,
    (unsignedWordFrom_eq (by decide) (bytes.drop start)).symm⟩
  rw [unsigned_eq_ok_iff]
  constructor
  · rintro ⟨group, hBytes, hGroup, hFits, hValue⟩
    refine ⟨group, ⟨rest, hBytes.symm⟩, hGroup, hFits, hValue, ?_⟩
    rw [← List.drop_drop, hBytes, List.drop_left]
  · rintro ⟨group, ⟨behind, hBytes⟩, hGroup, hFits, hValue, rfl⟩
    refine ⟨group, ?_, hGroup, hFits, hValue⟩
    rw [← List.drop_drop, ← hBytes, List.drop_left]

/-- Ten bytes may stand for zero, eleven may not. -/
example : unsigned [0x80, 0x80, 0x80, 0x80, 0x80, 0x80, 0x80, 0x80, 0x80, 0x00] = (.ok 0, []) ∧
    unsigned [0x80, 0x80, 0x80, 0x80, 0x80, 0x80, 0x80, 0x80, 0x80, 0x80, 0x00] =
      (.error .unsignedOverflow, []) := by
  decide

end Wire
end CellMachine
