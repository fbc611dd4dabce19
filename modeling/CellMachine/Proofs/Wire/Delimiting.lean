import CellMachine.Proofs.Wire.Acceptance

/-!
# Where an encoded cell ends

The bytes of a cell say by themselves where they end.  Whatever the decoder accepts, it accepts with
any bytes behind it, and it consumes the same bytes then; and of the bytes that it consumed it
refuses every part, because they end too early and for no other reason.  So no check of a limit, a
tag, a text or an item can be mistaken by bytes that are cut off.

Main statement: bytes that decode to a cell are refused with the number of the trailing bytes if
something follows them, and as ended too early if something is missing (`decode_strict`).  Nothing is
said about bytes that do NOT decode: cut off, they may be refused for another reason.
-/

namespace CellMachine
namespace Wire

/-- The result of a reader as that of a decoder. -/
def Read.toDecoded {α : Type} (read : Read α) : Decoded α :=
  following read fun value rest => .ok (value, rest)

theorem following_eq_andThen {α β : Type} (read : Read α) (next : α → List UInt8 → Decoded β) :
    following read next = andThen read.toDecoded next := by
  obtain ⟨result, rest⟩ := read
  cases result <;> rfl

/-- The decoder takes these bytes for the value: it leaves whatever follows them, and the bytes end
too early if some of them are missing. -/
structure Delimited {α : Type} (decoder : List UInt8 → Decoded α) (front : List UInt8) (value : α) :
    Prop where
  accepts : ∀ more, decoder (front ++ more) = .ok (value, more)
  ends : ∀ part missing, front = part ++ missing → missing ≠ [] →
    ∃ cause, decoder part = .error (.read cause) ∧ cause.isEnd = true

/-- The decoder delimits everything that it accepts. -/
def Delimits {α : Type} (decoder : List UInt8 → Decoded α) : Prop :=
  ∀ bytes value rest, decoder bytes = .ok (value, rest) →
    ∃ front, bytes = front ++ rest ∧ Delimited decoder front value

namespace Delimits

variable {α β : Type}

theorem of_ok (value : α) : Delimits fun bytes => .ok (value, bytes) := by
  intro bytes _ rest h
  cases h
  refine ⟨[], rfl, fun more => rfl, fun part missing hParts hMissing => ?_⟩
  exact absurd (List.append_eq_nil_iff.1 hParts.symm).2 hMissing

theorem of_error (e : DecodeError) : Delimits fun _ => (.error e : Decoded α) := by
  intro bytes value rest h
  cases h

theorem congr {decoder other : List UInt8 → Decoded α} (h : Delimits decoder)
    (hSame : ∀ bytes, other bytes = decoder bytes) : Delimits other := by
  rw [funext hSame]
  exact h

theorem ite {decoder other : List UInt8 → Decoded α} {condition : Prop} [Decidable condition]
    (h : condition → Delimits decoder) (h' : ¬condition → Delimits other) :
    Delimits fun bytes => if condition then decoder bytes else other bytes := by
  by_cases hCondition : condition
  · exact (h hCondition).congr fun bytes => if_pos hCondition
  · exact (h' hCondition).congr fun bytes => if_neg hCondition

/-- Of two decoders in sequence, bytes that are cut off end in the first or in the second. -/
theorem andThen {first : List UInt8 → Decoded α} {second : α → List UInt8 → Decoded β}
    (h : Delimits first) (h' : ∀ value, Delimits (second value)) :
    Delimits fun bytes => Wire.andThen (first bytes) second := by
  intro bytes result left hDecoded
  dsimp only at hDecoded
  cases hFirst : first bytes with
  | error e =>
      rw [hFirst] at hDecoded
      cases hDecoded
  | ok pair =>
      obtain ⟨value, rest⟩ := pair
      rw [hFirst] at hDecoded
      obtain ⟨front, rfl, hFront⟩ := h bytes value rest hFirst
      obtain ⟨back, rfl, hBack⟩ := h' value rest result left hDecoded
      refine ⟨front ++ back, (List.append_assoc front back left).symm, fun more => ?_,
        fun part missing hParts hMissing => ?_⟩
      · rw [List.append_assoc, hFront.accepts]
        exact hBack.accepts more
      · -- The cut is inside the first part, or the first part is whole.
        rcases List.append_eq_append_iff.1 hParts with ⟨cut, rfl, hCut⟩ | ⟨cut, hCut, hBehind⟩
        · obtain ⟨cause, hEnd, hIsEnd⟩ := hBack.ends cut missing hCut hMissing
          refine ⟨cause, ?_, hIsEnd⟩
          rw [hFront.accepts]
          exact hEnd
        · by_cases hWhole : cut = []
          · subst hWhole
            obtain ⟨cause, hEnd, hIsEnd⟩ := hBack.ends [] missing hBehind.symm hMissing
            refine ⟨cause, ?_, hIsEnd⟩
            rw [List.append_nil] at hCut
            have hAccepts := hFront.accepts []
            rw [List.append_nil, hCut] at hAccepts
            rw [hAccepts]
            exact hEnd
          · obtain ⟨cause, hEnd, hIsEnd⟩ := hFront.ends part cut hCut hWhole
            exact ⟨cause, by rw [hEnd]; rfl, hIsEnd⟩

/-- A decoder that has to look at a first byte. -/
theorem of_cons {decoder : List UInt8 → Decoded α}
    (hNone : decoder [] = .error (.read .noMoreBytes))
    (h : ∀ b, Delimits fun rest => decoder (b :: rest)) : Delimits decoder := by
  intro bytes value rest hDecoded
  cases bytes with
  | nil =>
      rw [hNone] at hDecoded
      cases hDecoded
  | cons b behind =>
      obtain ⟨front, rfl, hFront⟩ := h b behind value rest hDecoded
      refine ⟨b :: front, rfl, hFront.accepts, fun part missing hParts hMissing => ?_⟩
      cases part with
      | nil => exact ⟨.noMoreBytes, hNone, rfl⟩
      | cons b' part =>
          obtain ⟨rfl, hBehind⟩ := List.cons.inj hParts
          exact hFront.ends part missing hBehind hMissing

/-- A decoder that goes on with what a reader gives. -/
theorem following {read : List UInt8 → Read α} {next : α → List UInt8 → Decoded β}
    (h : Delimits fun bytes => (read bytes).toDecoded) (h' : ∀ value, Delimits (next value)) :
    Delimits fun bytes => Wire.following (read bytes) next :=
  (h.andThen h').congr fun bytes => following_eq_andThen (read bytes) next

/-- What a reader gives, wrapped into something. -/
theorem wrap {read : List UInt8 → Read α} (h : Delimits fun bytes => (read bytes).toDecoded)
    (wrap : α → β) :
    Delimits fun bytes => Wire.following (read bytes) fun value rest => .ok (wrap value, rest) :=
  h.following fun value => of_ok (wrap value)

/-- A decoded value that is wrapped into something. -/
theorem map {decoder : List UInt8 → Decoded α} (h : Delimits decoder) (wrap : α → β) :
    Delimits fun bytes => Wire.andThen (decoder bytes) fun value rest => .ok (wrap value, rest) :=
  h.andThen fun value => of_ok (wrap value)

end Delimits

/-! ## Readers -/

theorem byte_delimits : Delimits fun bytes => (byte bytes).toDecoded :=
  .of_cons rfl fun b => .of_ok b

theorem boolean_delimits : Delimits fun bytes => (boolean bytes).toDecoded := by
  refine .of_cons rfl fun b => ?_
  by_cases hFalse : b = 0
  · subst hFalse
    exact .of_ok false
  · by_cases hTrue : b = 1
    · subst hTrue
      exact .of_ok true
    · refine (Delimits.of_error (.read (.invalidBoolean b))).congr fun rest => ?_
      simp only [boolean, byte, if_neg hFalse, if_neg hTrue]
      rfl

theorem split?_eq (count : Nat) (bytes : List UInt8) :
    split? count bytes =
      if count ≤ bytes.length then some (bytes.take count, bytes.drop count) else none := by
  induction count generalizing bytes with
  | zero => rfl
  | succ count ih =>
      cases bytes with
      | nil => rfl
      | cons b rest =>
          rw [split?, ih rest]
          by_cases hEnough : count ≤ rest.length
          · rw [if_pos hEnough, if_pos (by simpa using hEnough)]
            rfl
          · rw [if_neg hEnough, if_neg (by simpa using hEnough)]
            rfl

theorem exactly_delimits (count : Nat) : Delimits fun bytes => (exactly count bytes).toDecoded := by
  intro bytes value rest h
  have hSplit := split?_eq count bytes
  by_cases hEnough : count ≤ bytes.length
  · rw [if_pos hEnough] at hSplit
    simp only [exactly, hSplit] at h
    cases h
    have hLength : (bytes.take count).length = count := List.length_take_of_le hEnough
    refine ⟨bytes.take count, (List.take_append_drop count bytes).symm, fun more => ?_,
      fun part missing hParts hMissing => ⟨.notEnoughBytes, ?_, rfl⟩⟩
    · simp only [exactly_append hLength]
      rfl
    · have hShort : part.length < count := by
        have hSum := congrArg List.length hParts
        rw [hLength, List.length_append] at hSum
        have hPos := List.length_pos_iff.2 hMissing
        omega
      simp only [exactly, split?_eq, if_neg (Nat.not_le.2 hShort)]
      rfl
  · rw [if_neg hEnough] at hSplit
    simp only [exactly, hSplit] at h
    cases h

theorem float_delimits : Delimits fun bytes => (float bytes).toDecoded := by
  refine ((exactly_delimits 8).map fun front =>
    (⟨UInt64.ofNat (littleEndian front)⟩ : Binary64)).congr fun bytes => ?_
  unfold float
  rcases exactly 8 bytes with ⟨result, rest⟩
  cases result <;> rfl

/-- A group of bytes ends or goes on with the next byte; it cannot go on for ever, since with each
byte fewer bits are left. -/
theorem unsignedFrom_delimits (shift acc : Nat) :
    Delimits fun bytes => (unsignedFrom shift acc bytes).toDecoded := by
  induction hLeft : 64 - shift using Nat.strongRecOn generalizing shift acc with
  | ind left ih =>
      refine .of_cons rfl fun b => ?_
      by_cases hOver : (shift = 63 ∧ 1 < payload b) ∨ 63 < shift
      · refine (Delimits.of_error (.read .unsignedOverflow)).congr fun rest => ?_
        rw [unsignedFrom, if_pos hOver]
        rfl
      · cases hNext : continues b with
        | true =>
            refine (ih (64 - (shift + 7)) (by omega) (shift + 7) (acc + payload b <<< shift)
              rfl).congr fun rest => ?_
            simp only [unsignedFrom, if_neg hOver, hNext, if_true]
        | false =>
            refine (Delimits.of_ok (UInt64.ofNat (acc + payload b <<< shift))).congr fun rest => ?_
            simp only [unsignedFrom, if_neg hOver, hNext, Bool.false_eq_true, if_false]
            rfl

theorem signedFrom_delimits (shift acc : Nat) :
    Delimits fun bytes => (signedFrom shift acc bytes).toDecoded := by
  induction hLeft : 64 - shift using Nat.strongRecOn generalizing shift acc with
  | ind left ih =>
      refine .of_cons rfl fun b => ?_
      by_cases hOver : 63 < shift
      · refine (Delimits.of_error (.read .signedOverflow)).congr fun rest => ?_
        rw [signedFrom, if_pos hOver]
        rfl
      · cases hNext : continues b with
        | true =>
            refine (ih (64 - (shift + 7)) (by omega) (shift + 7) (acc + payload b <<< shift)
              rfl).congr fun rest => ?_
            simp only [signedFrom, if_neg hOver, hNext, if_true]
        | false =>
            refine (Delimits.of_ok (Int64.ofInt ((acc + payload b <<< shift : Nat) -
              if shift + 7 < 64 ∧ 64 ≤ payload b then ((1 <<< (shift + 7) : Nat) : Int)
              else 0))).congr fun rest => ?_
            simp only [signedFrom, if_neg hOver, hNext, Bool.false_eq_true, if_false]
            rfl

theorem unsigned_delimits : Delimits fun bytes => (unsigned bytes).toDecoded :=
  unsignedFrom_delimits 0 0

theorem signed_delimits : Delimits fun bytes => (signed bytes).toDecoded :=
  signedFrom_delimits 0 0

/-- The length of a text is checked when it has been read, and the text when all its bytes have. -/
theorem string_toDecoded (limit : Nat) (bytes : List UInt8) :
    (string limit bytes).toDecoded =
      following (unsigned bytes) fun length rest =>
        if limit < length.toNat then .error (.read (.stringTooLong length.toNat limit))
        else following (exactly length.toNat rest) fun front rest =>
          match decodeText? front with
          | some text => .ok (text, rest)
          | none => .error (.read .invalidText) := by
  unfold string
  rcases unsigned bytes with ⟨result, rest⟩
  cases result with
  | error e => rfl
  | ok length =>
      by_cases hLong : limit < length.toNat
      · simp only [if_pos hLong, Read.toDecoded, following]
      · simp only [if_neg hLong, Read.toDecoded, following]
        rcases exactly length.toNat rest with ⟨result, rest⟩
        cases result with
        | error e => rfl
        | ok front =>
            dsimp only
            cases decodeText? front <;> rfl

theorem string_delimits (limit : Nat) : Delimits fun bytes => (string limit bytes).toDecoded := by
  refine Delimits.congr (.following unsigned_delimits fun length => ?_) (string_toDecoded limit)
  refine .ite (fun _ => .of_error _) fun _ => .following (exactly_delimits length.toNat) fun front => ?_
  cases decodeText? front with
  | some text => exact .of_ok text
  | none => exact .of_error _

/-! ## Decoders -/

/-- The number of levels bounds the types inside the type; every byte that is no type ends the
decoder. -/
theorem decodeType_delimits (levels : Nat) : Delimits (decodeType levels) := by
  induction levels with
  | zero => exact .of_error .tooDeep
  | succ levels ih =>
      refine .following byte_delimits fun tag bytes value rest h => ?_
      split at h
      -- Of the types, only lists and handle types have more bytes to read.
      case h_9 => exact ih.map CellType.list _ _ _ h
      case h_11 => exact (string_delimits maxStringLength).wrap CellType.handle _ _ _ h
      case h_16 => cases h
      all_goals exact Delimits.of_ok _ _ _ _ h

/-- An item is checked against the tag when it is complete. -/
theorem decodeItems_delimits {decode : List UInt8 → Decoded Cell} (h : Delimits decode)
    (count : Nat) (element : CellType) (done : List Cell) :
    Delimits (decodeItems decode count element done) := by
  induction count generalizing element done with
  | zero => exact .of_ok _
  | succ count ih =>
      refine h.andThen fun cell => ?_
      cases element.absorb cell with
      | error cause => exact .of_error _
      | ok merged => exact ih merged (cell :: done)

theorem decodeStream_delimits : Delimits decodeStream := by
  refine .following byte_delimits fun kind bytes value rest h => ?_
  split at h
  case h_4 => cases h
  all_goals exact Delimits.of_ok _ _ _ _ h

theorem decodeRational_delimits : Delimits decodeRational := by
  refine .following signed_delimits fun num => .following signed_delimits fun den => ?_
  cases Rational.make? num den with
  | some q => exact .of_ok _
  | none => exact .of_error _

theorem decodeCell_delimits (levels : Nat) : Delimits (decodeCell levels) := by
  induction levels with
  | zero => exact .of_error .tooDeep
  | succ levels ih =>
      have hList : Delimits fun bytes => andThen (decodeType levels bytes) fun element rest =>
          following (unsigned rest) fun count rest =>
            if maxListLength < count.toNat then .error (.listTooLong count.toNat)
            else andThen (decodeItems (decodeCell levels) count.toNat element [] rest)
              fun list rest => .ok (list.toCell, rest) := by
        refine (decodeType_delimits levels).andThen fun element =>
          .following unsigned_delimits fun count => .ite (fun _ => .of_error _) fun _ => ?_
        exact (decodeItems_delimits ih count.toNat element []).map CellList.toCell
      have hText := string_delimits maxStringLength
      refine .following byte_delimits fun tag bytes value rest h => ?_
      split at h
      · exact boolean_delimits.wrap Cell.boolean _ _ _ h
      · exact signed_delimits.wrap Cell.integer _ _ _ h
      · exact float_delimits.wrap Cell.float _ _ _ h
      · exact decodeRational_delimits _ _ _ h
      · exact hText.wrap Cell.text _ _ _ h
      · exact hList _ _ _ h
      · exact hText.wrap Cell.reference _ _ _ h
      · exact hText.wrap Cell.error _ _ _ h
      · exact (decodeType_delimits levels).map Cell.null _ _ _ h
      · exact decodeStream_delimits _ _ _ h
      · cases h

/-- The encoding is self-delimiting, and the decoder is strict about the length: bytes that decode
to a cell are no cell any more with something behind them, which is counted, nor with something
missing at the end, which is noticed as such. -/
theorem decode_strict {bytes : List UInt8} {cell : Cell} (h : decode bytes = .ok cell) :
    (∀ more, more ≠ [] → decode (bytes ++ more) = .error (.trailingBytes more.length)) ∧
      ∀ part, part <+: bytes → part ≠ bytes →
        ∃ cause, decode part = .error (.read cause) ∧ cause.isEnd = true := by
  have hDecoded : decodeCell (maxDepth + 1) bytes = .ok (cell, []) := by
    unfold decode at h
    split at h
    · cases h
    · rename_i hCell
      cases h
      exact hCell
    · cases h
  obtain ⟨front, hFront, hDelimited⟩ := decodeCell_delimits _ _ _ _ hDecoded
  rw [List.append_nil] at hFront
  subst hFront
  constructor
  · intro more hMore
    unfold decode
    rw [hDelimited.accepts more]
    cases more with
    | nil => exact absurd rfl hMore
    | cons b more => rfl
  · rintro part ⟨missing, hParts⟩ hPart
    have hMissing : missing ≠ [] := by
      rintro rfl
      exact hPart (by rw [← hParts, List.append_nil])
    obtain ⟨cause, hEnd, hIsEnd⟩ := hDelimited.ends part missing hParts.symm hMissing
    refine ⟨cause, ?_, hIsEnd⟩
    unfold decode
    rw [hEnd]

/-- A list of lists, one of its sixteen bytes missing or two bytes too long. -/
theorem decode_strict_looseBytes :
    decode looseBytes = .ok looseCell ∧
      decode (looseBytes ++ [0x02, 0x05]) = .error (.trailingBytes 2) ∧
      ∃ cause, decode (looseBytes.take 15) = .error (.read cause) ∧ cause.isEnd = true := by
  have hDecode : decode looseBytes = .ok looseCell := rfl
  obtain ⟨hMore, hPart⟩ := decode_strict hDecode
  exact ⟨hDecode, hMore [0x02, 0x05] (by decide),
    hPart (looseBytes.take 15) (List.take_prefix 15 looseBytes) (by decide)⟩

end Wire
end CellMachine
