import CellMachine.Proofs.Wire.Groups
import CellMachine.Wire.Writer

/-!
# Reading back numbers and texts

For each primitive the reader undoes the writer, whatever bytes follow.  What is written for a number
is a group of seven bits that denotes it, so it is read as any group is.  An unsigned group for a
number beyond sixty-four bits is refused; a signed group is written for words only.

The readers also accept groups that are NOT the shortest, so nothing here says that a group that is
read is one that was written.
-/

namespace CellMachine
namespace Wire

/-! ## Bytes of a group -/

theorem payload_last {n : Nat} (h : n < 128) : payload (UInt8.ofNat n) = n := by
  unfold payload
  rw [UInt8.toNat_ofNat']
  omega

theorem continues_last {n : Nat} (h : n < 128) : continues (UInt8.ofNat n) = false := by
  unfold continues
  rw [UInt8.toNat_ofNat']
  simp
  omega

theorem payload_inner {n : Nat} (h : n < 128) : payload (UInt8.ofNat (n + 128)) = n := by
  unfold payload
  rw [UInt8.toNat_ofNat']
  omega

theorem continues_inner {n : Nat} (h : n < 128) : continues (UInt8.ofNat (n + 128)) = true := by
  unfold continues
  rw [UInt8.toNat_ofNat']
  simp
  omega

/-! ## Unsigned groups -/

theorem isGroup_putUnsigned (n : Nat) : IsGroup (putUnsigned n) := by
  induction n using putUnsigned.induct with
  | case1 n hLast =>
      rw [putUnsigned, if_pos hLast]
      exact (isGroup_cons_of_not_continues (continues_last hLast)).2 rfl
  | case2 n hInner ih =>
      rw [putUnsigned, if_neg hInner]
      exact (isGroup_cons_of_continues (continues_inner (Nat.mod_lt n (by omega)))).2 ih

theorem groupValue_putUnsigned (n : Nat) : groupValue (putUnsigned n) = n := by
  induction n using putUnsigned.induct with
  | case1 n hLast =>
      rw [putUnsigned, if_pos hLast]
      exact payload_last hLast
  | case2 n hInner ih =>
      rw [putUnsigned, if_neg hInner, groupValue, ih, payload_inner (Nat.mod_lt n (by omega))]
      omega

/-- As many bytes are written as the number needs. -/
theorem length_putUnsigned_le {n k : Nat} (h : n < 2 ^ (7 * (k + 1))) :
    (putUnsigned n).length ≤ k + 1 := by
  induction k generalizing n with
  | zero =>
      rw [putUnsigned, if_pos (by omega)]
      simp
  | succ k ih =>
      rw [pow_seven_succ] at h
      have hRest : (putUnsigned (n / 128)).length ≤ k + 1 := ih (by omega)
      rw [putUnsigned]
      split
      · simp
      · rw [List.length_cons]
        omega

theorem fitsWord_putUnsigned_iff (n : Nat) : FitsWord (putUnsigned n) ↔ n < 2 ^ 64 := by
  rw [FitsWord, groupValue_putUnsigned]
  constructor
  · exact And.right
  · intro hWord
    exact ⟨length_putUnsigned_le (k := 9) (by omega), hWord⟩

theorem unsigned_putUnsigned {n : Nat} (hFits : n < 2 ^ 64) (rest : List UInt8) :
    unsigned (putUnsigned n ++ rest) = (.ok (UInt64.ofNat n), rest) := by
  rw [unsigned_group (isGroup_putUnsigned n) ((fitsWord_putUnsigned_iff n).2 hFits),
    groupValue_putUnsigned]

theorem unsigned_overflow {n : Nat} (hBig : 2 ^ 64 ≤ n) (rest : List UInt8) :
    ∃ left, unsigned (putUnsigned n ++ rest) = (.error .unsignedOverflow, left) := by
  refine unsigned_group_refused (isGroup_putUnsigned n) ?_ rest
  rw [fitsWord_putUnsigned_iff]
  omega

/-! ## Signed groups -/

theorem isGroup_putSigned (z : Int) : IsGroup (putSigned z) := by
  induction z using putSigned.induct with
  | case1 z low above hLast =>
      rw [putSigned, if_pos hLast]
      exact (isGroup_cons_of_not_continues (continues_last (by omega))).2 rfl
  | case2 z low above hInner ih =>
      rw [putSigned, if_neg hInner]
      exact (isGroup_cons_of_continues (continues_inner (by omega))).2 ih

theorem signedValue_putSigned (z : Int) : signedValue (putSigned z) = z := by
  induction z using putSigned.induct with
  | case1 z low above hLast =>
      rw [putSigned, if_pos hLast, signedValue_singleton, payload_last (by omega)]
      split <;> omega
  | case2 z low above hInner ih =>
      rw [putSigned, if_neg hInner, signedValue_cons _ (isGroup_putSigned _).ne_nil, ih,
        payload_inner (by omega)]
      omega

/-- As many bytes are written as the integer and its sign need. -/
theorem length_putSigned_le {z : Int} {k : Nat} (hLow : -2 ^ (7 * k + 6) ≤ z)
    (hHigh : z < 2 ^ (7 * k + 6)) : (putSigned z).length ≤ k + 1 := by
  induction k generalizing z with
  | zero =>
      rw [putSigned, if_pos (by omega)]
      simp
  | succ k ih =>
      have hPow : (2 : Int) ^ (7 * (k + 1) + 6) = 2 ^ (7 * k + 6) * 128 := by ring
      have hRest : (putSigned (z / 128)).length ≤ k + 1 := ih (by omega) (by omega)
      rw [putSigned]
      split
      · simp
      · rw [List.length_cons]
        omega

theorem signed_putInteger (i : Int64) (rest : List UInt8) :
    signed (putInteger i ++ rest) = (.ok i, rest) := by
  have hLow := i.le_toInt
  have hHigh := i.toInt_lt
  have hLength : (putSigned i.toInt).length ≤ 10 :=
    length_putSigned_le (k := 9) (by omega) (by omega)
  rw [putInteger, signed_group (isGroup_putSigned i.toInt) hLength, signedValue_putSigned,
    Int64.ofInt_toInt]

/-! ## Bytes, floats and texts -/

theorem split?_append (front rest : List UInt8) :
    split? front.length (front ++ rest) = some (front, rest) := by
  induction front with
  | nil => rfl
  | cons b front ih => simp [split?, ih]

theorem exactly_append {count : Nat} {front : List UInt8} (h : front.length = count)
    (rest : List UInt8) : exactly count (front ++ rest) = (.ok front, rest) := by
  subst h
  unfold exactly
  rw [split?_append]

theorem length_putLittleEndian (count n : Nat) : (putLittleEndian count n).length = count := by
  induction count generalizing n with
  | zero => rfl
  | succ count ih => simp [putLittleEndian, ih]

theorem littleEndian_putLittleEndian (count n : Nat) :
    littleEndian (putLittleEndian count n) = n % 256 ^ count := by
  induction count generalizing n with
  | zero => simp [putLittleEndian, littleEndian, Nat.mod_one]
  | succ count ih =>
      have hSplit : n % 256 ^ (count + 1) = n % 256 + 256 * (n / 256 % 256 ^ count) := by
        rw [pow_succ', Nat.mod_mul]
      rw [putLittleEndian, littleEndian, ih, UInt8.toNat_ofNat', hSplit]
      omega

theorem float_putFloat (x : Binary64) (rest : List UInt8) :
    float (putFloat x ++ rest) = (.ok x, rest) := by
  unfold float putFloat
  rw [exactly_append (length_putLittleEndian 8 _)]
  simp only
  rw [littleEndian_putLittleEndian, show 256 ^ 8 = 2 ^ 64 from rfl,
    Nat.mod_eq_of_lt x.bits.toNat_lt, UInt64.ofNat_toNat]

theorem boolean_putBoolean (b : Bool) (rest : List UInt8) :
    boolean (putBoolean b ++ rest) = (.ok b, rest) := by
  cases b <;> rfl

theorem decodeText?_toUTF8 (s : String) : decodeText? s.toUTF8.data.toList = some s := by
  unfold decodeText? String.fromUTF8?
  rw [Array.toArray_toList]
  exact dif_pos s.isValidUTF8

/-- A text is read back if its length is within the limit, and refused otherwise. -/
theorem string_putString (limit : Nat) (hLimit : limit < 2 ^ 64) (s : String) (rest : List UInt8) :
    (s.utf8ByteSize ≤ limit → string limit (putString s ++ rest) = (.ok s, rest)) ∧
    (limit < s.utf8ByteSize →
      ∃ e left, string limit (putString s ++ rest) = (.error e, left)) := by
  have hLength : s.toUTF8.data.toList.length = s.utf8ByteSize := rfl
  unfold string putString
  simp only [hLength, List.append_assoc]
  by_cases hWord : s.utf8ByteSize < 2 ^ 64
  · have hNat : (UInt64.ofNat s.utf8ByteSize).toNat = s.utf8ByteSize := by
      rw [UInt64.toNat_ofNat']
      exact Nat.mod_eq_of_lt hWord
    rw [unsigned_putUnsigned hWord]
    simp only [hNat]
    constructor
    · intro hShort
      rw [if_neg (by omega), exactly_append hLength]
      simp only [decodeText?_toUTF8]
    · intro hLong
      rw [if_pos hLong]
      exact ⟨_, _, rfl⟩
  · refine ⟨fun hShort => by omega, fun _ => ?_⟩
    obtain ⟨left, hOverflow⟩ :=
      unsigned_overflow (n := s.utf8ByteSize) (by omega) (s.toUTF8.data.toList ++ rest)
    rw [hOverflow]
    exact ⟨_, _, rfl⟩

end Wire
end CellMachine
