import CellMachine.Proofs.Homogeneity
import CellMachine.Proofs.Wire.Primitive
import CellMachine.Wire.Decoder

/-!
# Decoding what was encoded

Encoding fails exactly for cells with a handle in them.  Decoding the bytes of a cell gives that
cell back exactly if the cell is within the limits on nesting, on list lengths and on string
lengths, and fails otherwise; it never gives another cell.

The decoder rebuilds a list from its final tag, item by item, so the round trip needs the tag to
cover every item at every depth.  That holds for every cell that is built through the operations
on lists; for a list put together with an arbitrary tag it does NOT.
-/

namespace CellMachine

/-! ## What the limits are about -/

namespace CellType

/-- How many list types are wrapped around another type. -/
def nesting : CellType → Nat
  | list element => 1 + element.nesting
  | _ => 0

/-- The names of handle types in a tag. -/
def names : CellType → List String
  | list element => element.names
  | handle name => [name]
  | _ => []

end CellType

namespace Cell

mutual

/-- Whether there is a handle in the cell, at any depth. -/
def hasHandle : Cell → Bool
  | handle _ => true
  | list _ items => anyHandle items
  | _ => false

def anyHandle : List Cell → Bool
  | [] => false
  | item :: rest => hasHandle item || anyHandle rest

end

mutual

/-- The nesting of a cell: that of its lists and that of the tags in it. -/
def depth : Cell → Nat
  | null placeholder => 1 + placeholder.nesting
  | list element items => max (1 + element.nesting) (depthBelow items)
  | _ => 0

/-- The nesting of a list as far as it comes from its items. -/
def depthBelow : List Cell → Nat
  | [] => 0
  | item :: rest => max (1 + depth item) (depthBelow rest)

end

mutual

/-- The lengths of all lists in a cell. -/
def listLengths : Cell → List Nat
  | list _ items => items.length :: allListLengths items
  | _ => []

def allListLengths : List Cell → List Nat
  | [] => []
  | item :: rest => listLengths item ++ allListLengths rest

end

mutual

/-- All strings in a cell: texts, names of variables, error messages and the names in its tags. -/
def strings : Cell → List String
  | text s => [s]
  | reference name => [name]
  | error message => [message]
  | null placeholder => placeholder.names
  | list element items => element.names ++ allStrings items
  | _ => []

def allStrings : List Cell → List String
  | [] => []
  | item :: rest => strings item ++ allStrings rest

end

end Cell

namespace Wire

/-- The tag can be read with the given number of levels. -/
structure TypeFits (levels : Nat) (t : CellType) : Prop where
  nesting : t.nesting < levels
  names : ∀ s ∈ t.names, s.utf8ByteSize ≤ maxStringLength

/-- The cell can be read with the given number of levels. -/
structure Fits (levels : Nat) (cell : Cell) : Prop where
  depth : cell.depth < levels
  lists : ∀ n ∈ cell.listLengths, n ≤ maxListLength
  strings : ∀ s ∈ cell.strings, s.utf8ByteSize ≤ maxStringLength

theorem fits_plain {cell : Cell} (levels : Nat) (hDepth : cell.depth = 0)
    (hLists : cell.listLengths = []) (hStrings : cell.strings = []) : Fits (levels + 1) cell := by
  refine ⟨by omega, fun n hn => ?_, fun s hs => ?_⟩
  · rw [hLists] at hn
    cases hn
  · rw [hStrings] at hs
    cases hs

theorem fits_string_iff {cell : Cell} {s : String} (levels : Nat) (hDepth : cell.depth = 0)
    (hLists : cell.listLengths = []) (hStrings : cell.strings = [s]) :
    Fits (levels + 1) cell ↔ s.utf8ByteSize ≤ maxStringLength := by
  constructor
  · intro h
    exact h.strings s (by rw [hStrings]; exact List.mem_cons_self)
  · intro h
    refine ⟨by omega, fun n hn => ?_, fun t ht => ?_⟩
    · rw [hLists] at hn
      cases hn
    · rw [hStrings, List.mem_singleton] at ht
      rw [ht]
      exact h

theorem fits_null_iff {levels : Nat} {t : CellType} :
    Fits (levels + 1) (.null t) ↔ TypeFits levels t := by
  constructor
  · rintro ⟨hDepth, -, hStrings⟩
    rw [Cell.depth] at hDepth
    exact ⟨by omega, hStrings⟩
  · rintro ⟨hNesting, hNames⟩
    refine ⟨?_, fun n hn => (by cases hn), hNames⟩
    rw [Cell.depth]
    omega

/-- Items fit below a list if each of them fits. -/
theorem all_fit_iff {levels : Nat} {items : List Cell} :
    (Cell.depthBelow items < levels + 1 ∧ (∀ n ∈ Cell.allListLengths items, n ≤ maxListLength) ∧
      ∀ s ∈ Cell.allStrings items, s.utf8ByteSize ≤ maxStringLength) ↔
    ∀ item ∈ items, Fits levels item := by
  induction items with
  | nil => simp [Cell.depthBelow, Cell.allListLengths, Cell.allStrings]
  | cons item rest ih =>
      rw [List.forall_mem_cons, ← ih, Cell.depthBelow, Cell.allListLengths, Cell.allStrings]
      simp only [List.forall_mem_append]
      constructor
      · rintro ⟨hDepth, ⟨hLists, hLists'⟩, hStrings, hStrings'⟩
        exact ⟨⟨by omega, hLists, hStrings⟩, by omega, hLists', hStrings'⟩
      · rintro ⟨⟨hDepth, hLists, hStrings⟩, hDepth', hLists', hStrings'⟩
        exact ⟨by omega, ⟨hLists, hLists'⟩, hStrings, hStrings'⟩

theorem fits_list_iff {levels : Nat} {element : CellType} {items : List Cell} :
    Fits (levels + 1) (.list element items) ↔
      TypeFits levels element ∧ items.length ≤ maxListLength ∧ ∀ item ∈ items, Fits levels item := by
  rw [← all_fit_iff]
  constructor
  · rintro ⟨hDepth, hLists, hStrings⟩
    rw [Cell.depth] at hDepth
    rw [Cell.listLengths, List.forall_mem_cons] at hLists
    rw [Cell.strings, List.forall_mem_append] at hStrings
    exact ⟨⟨by omega, hStrings.1⟩, hLists.1, by omega, hLists.2, hStrings.2⟩
  · rintro ⟨⟨hNesting, hNames⟩, hLength, hDepth, hLists, hStrings⟩
    refine ⟨?_, ?_, ?_⟩
    · rw [Cell.depth]
      omega
    · rw [Cell.listLengths, List.forall_mem_cons]
      exact ⟨hLength, hLists⟩
    · rw [Cell.strings, List.forall_mem_append]
      exact ⟨hNames, hStrings⟩

/-! ## Encoding -/

theorem encodeAll_error_iff {items : List Cell}
    (h : ∀ item ∈ items, (∃ e, encode item = .error e) ↔ item.hasHandle = true) :
    (∃ e, encodeAll items = .error e) ↔ Cell.anyHandle items = true := by
  induction items with
  | nil => simp [encodeAll, Cell.anyHandle]
  | cons item rest ih =>
      rw [List.forall_mem_cons] at h
      rw [encodeAll, Cell.anyHandle, Bool.or_eq_true, ← h.1, ← ih h.2]
      cases encode item with
      | error e => simp
      | ok front => cases encodeAll rest <;> simp

/-- Only handles have no written form. -/
theorem encode_error_iff (cell : Cell) :
    (∃ e, encode cell = .error e) ↔ cell.hasHandle = true := by
  induction cell using Cell.induct with
  | leaf cell hLeaf =>
      cases cell with
      | list element items => cases hLeaf
      | _ => simp [encode, Cell.hasHandle]
  | list element items ih =>
      rw [Cell.hasHandle, ← encodeAll_error_iff ih, encode]
      cases encodeAll items <;> simp

/-! ## Decoding -/

/-- The decoder gives the value and leaves the rest if the condition holds, and fails otherwise. -/
structure Decides {α : Type} (decoded : Decoded α) (P : Prop) (value : α) (rest : List UInt8) :
    Prop where
  accepts : P → decoded = .ok (value, rest)
  refuses : ¬P → ∃ e, decoded = .error e

namespace Decides

variable {α β : Type} {P : Prop} {value : α} {rest : List UInt8}

theorem of_ok (hP : P) : Decides (.ok (value, rest) : Decoded α) P value rest :=
  ⟨fun _ => rfl, fun h => absurd hP h⟩

theorem of_error (hP : ¬P) (e : DecodeError) : Decides (.error e : Decoded α) P value rest :=
  ⟨fun h => absurd h hP, fun _ => ⟨e, rfl⟩⟩

theorem congr {Q : Prop} {decoded : Decoded α} (h : Decides decoded P value rest) (hPQ : Q ↔ P) :
    Decides decoded Q value rest :=
  ⟨fun hQ => h.accepts (hPQ.1 hQ), fun hQ => h.refuses fun hP => hQ (hPQ.2 hP)⟩

theorem andThen {Q : Prop} {first : Decoded α} {second : α → List UInt8 → Decoded β}
    {result : β} {left : List UInt8} (h : Decides first P value rest)
    (h' : Decides (second value rest) Q result left) :
    Decides (Wire.andThen first second) (P ∧ Q) result left := by
  by_cases hP : P
  · rw [h.accepts hP]
    exact h'.congr (and_iff_right hP)
  · obtain ⟨e, he⟩ := h.refuses hP
    rw [he]
    exact .of_error (fun hBoth => hP hBoth.1) e

/-- A decoded value that is wrapped into something. -/
theorem map {decoded : Decoded α} (h : Decides decoded P value rest) (wrap : α → β) :
    Decides (Wire.andThen decoded fun value rest => .ok (wrap value, rest)) P (wrap value) rest :=
  (h.andThen (.of_ok trivial)).congr (and_iff_left trivial).symm

end Decides

/-- A string that is wrapped into something. -/
theorem decides_string {α : Type} (wrap : String → α) (s : String) (rest : List UInt8) :
    Decides (following (string maxStringLength (putString s ++ rest)) fun s rest =>
      .ok (wrap s, rest)) (s.utf8ByteSize ≤ maxStringLength) (wrap s) rest := by
  obtain ⟨hShort, hLong⟩ := string_putString maxStringLength (by decide) s rest
  constructor
  · intro h
    rw [hShort h]
    rfl
  · intro h
    obtain ⟨e, left, hError⟩ := hLong (by omega)
    rw [hError]
    exact ⟨_, rfl⟩

theorem decides_type (t : CellType) (levels : Nat) (rest : List UInt8) :
    Decides (decodeType levels (putType t ++ rest)) (TypeFits levels t) t rest := by
  induction t generalizing levels with
  | list element ih =>
      cases levels with
      | zero => exact .of_error (fun h => by cases h.nesting) _
      | succ levels =>
          refine ((ih levels).map CellType.list).congr ⟨?_, ?_⟩
          · rintro ⟨hNesting, hNames⟩
            rw [CellType.nesting] at hNesting
            exact ⟨by omega, hNames⟩
          · rintro ⟨hNesting, hNames⟩
            refine ⟨?_, hNames⟩
            rw [CellType.nesting]
            omega
  | handle name =>
      cases levels with
      | zero => exact .of_error (fun h => by cases h.nesting) _
      | succ levels =>
          refine (decides_string CellType.handle name rest).congr ⟨?_, ?_⟩
          · rintro ⟨-, hNames⟩
            exact hNames name List.mem_cons_self
          · intro hName
            refine ⟨Nat.succ_pos _, fun s hs => ?_⟩
            rw [List.mem_singleton.1 hs]
            exact hName
  | _ =>
      cases levels with
      | zero => exact .of_error (fun h => by cases h.nesting) _
      | succ levels => exact .of_ok ⟨Nat.succ_pos _, fun s hs => by cases hs⟩

/-- The items of a list are read one by one as long as they fit, and the tag does not change, for
it covers them all. -/
theorem decides_items {decode : List UInt8 → Decoded Cell} {P : Cell → Prop} {element : CellType}
    {items : List Cell} (done : List Cell) {bytes rest : List UInt8}
    (hDecode : ∀ item ∈ items, ∀ bytes rest, encode item = .ok bytes →
      Decides (decode (bytes ++ rest)) (P item) item rest)
    (hAbsorb : ∀ item ∈ items, element.absorb item = .ok element)
    (hEncode : encodeAll items = .ok bytes) :
    Decides (decodeItems decode items.length element done (bytes ++ rest)) (∀ item ∈ items, P item)
      ⟨element, done.reverse ++ items⟩ rest := by
  induction items generalizing done bytes with
  | nil =>
      cases hEncode
      rw [List.append_nil]
      exact .of_ok fun item hItem => by cases hItem
  | cons item others ih =>
      rw [List.forall_mem_cons] at hDecode hAbsorb
      rw [encodeAll] at hEncode
      split at hEncode
      · cases hEncode
      · rename_i front hFront
        split at hEncode
        · cases hEncode
        · rename_i back hBack
          cases hEncode
          have hRest := ih (item :: done) hDecode.2 hAbsorb.2 hBack
          rw [List.reverse_cons, List.append_assoc, List.singleton_append] at hRest
          rw [List.append_assoc, List.length_cons, decodeItems]
          refine ((hDecode.1 front (back ++ rest) hFront).andThen ?_).congr List.forall_mem_cons
          rw [hAbsorb.1]
          exact hRest

theorem decodeRational_put (q : Rational) (rest : List UInt8) :
    decodeRational (putInteger q.num ++ (putInteger q.den ++ rest)) = .ok (.rational q, rest) := by
  unfold decodeRational
  rw [signed_putInteger]
  simp only [following]
  rw [signed_putInteger]
  simp only [Rational.make?_num_den]

/-- The bytes of the number of items.  A number beyond the limit is refused, be it because it is
no word. -/
theorem decides_count {α : Type} (n : Nat) (rest left : List UInt8) {P : Prop} {value : α}
    {next : UInt64 → List UInt8 → Decoded α}
    (hNext : ∀ count : UInt64, count.toNat = n → Decides (next count rest) P value left) :
    Decides (following (unsigned (putUnsigned n ++ rest)) fun count rest =>
      if maxListLength < count.toNat then .error (.listTooLong count.toNat)
      else next count rest) (n ≤ maxListLength ∧ P) value left := by
  by_cases hWord : n < 2 ^ 64
  · have hNat : (UInt64.ofNat n).toNat = n := by
      rw [UInt64.toNat_ofNat']
      exact Nat.mod_eq_of_lt hWord
    rw [unsigned_putUnsigned hWord]
    simp only [following, hNat]
    by_cases hLong : maxListLength < n
    · rw [if_pos hLong]
      exact .of_error (fun h => by omega) _
    · rw [if_neg hLong]
      exact (hNext _ hNat).congr (and_iff_right (by omega))
  · have hLimit : maxListLength < 2 ^ 64 := by decide
    obtain ⟨left', hOverflow⟩ := unsigned_overflow (n := n) (by omega) rest
    rw [hOverflow]
    exact .of_error (fun h => by omega) _

/-- Decoding the bytes of a well-formed cell, with any bytes behind them. -/
theorem decides_cell {cell : Cell} (h : cell.WellFormed) (levels : Nat) (bytes rest : List UInt8)
    (hEncode : encode cell = .ok bytes) :
    Decides (decodeCell levels (bytes ++ rest)) (Fits levels cell) cell rest := by
  induction h generalizing levels bytes rest with
  | @leaf cell hLeaf =>
      cases levels with
      | zero => exact .of_error (fun h => by cases h.depth) _
      | succ levels =>
          cases cell with
          | boolean b =>
              cases hEncode
              change Decides (following (boolean (putBoolean b ++ rest)) _) _ _ _
              rw [boolean_putBoolean]
              exact .of_ok (fits_plain levels rfl rfl rfl)
          | integer i =>
              cases hEncode
              change Decides (following (signed (putInteger i ++ rest)) _) _ _ _
              rw [signed_putInteger]
              exact .of_ok (fits_plain levels rfl rfl rfl)
          | float x =>
              cases hEncode
              change Decides (following (float (putFloat x ++ rest)) fun x rest =>
                .ok (Cell.float x, rest)) _ _ _
              rw [float_putFloat]
              exact .of_ok (fits_plain levels rfl rfl rfl)
          | rational q =>
              cases hEncode
              change Decides (decodeRational (putInteger q.num ++ putInteger q.den ++ rest)) _ _ _
              rw [List.append_assoc, decodeRational_put]
              exact .of_ok (fits_plain levels rfl rfl rfl)
          | text s =>
              cases hEncode
              exact (decides_string Cell.text s rest).congr (fits_string_iff levels rfl rfl rfl)
          | list element items => cases hLeaf
          | reference name =>
              cases hEncode
              exact (decides_string Cell.reference name rest).congr
                (fits_string_iff levels rfl rfl rfl)
          | handle object => cases hEncode
          | error message =>
              cases hEncode
              exact (decides_string Cell.error message rest).congr
                (fits_string_iff levels rfl rfl rfl)
          | null placeholder =>
              cases hEncode
              exact ((decides_type placeholder levels rest).map Cell.null).congr fits_null_iff
          | stream stream =>
              cases hEncode
              cases stream <;> exact .of_ok (fits_plain levels rfl rfl rfl)
  | @list element items hItems hInner ih =>
      rw [encode] at hEncode
      split at hEncode
      · rename_i inner hAll
        cases hEncode
        cases levels with
        | zero => exact .of_error (fun h => by cases h.depth) _
        | succ levels =>
            -- The decoder starts from the final tag, and no item changes it any more.
            have hAbsorb (item : Cell) (hItem : item ∈ items) : element.absorb item = .ok element :=
              CellType.absorb_eq_ok_iff.2 (hItems item hItem)
            have hBelow (count : UInt64) (hCount : count.toNat = items.length) :
                Decides (andThen (decodeItems (decodeCell levels) count.toNat element []
                  (inner ++ rest)) fun list rest => .ok (list.toCell, rest))
                  (∀ item ∈ items, Fits levels item) (.list element items) rest := by
              rw [hCount]
              exact (decides_items [] (fun item hItem bytes rest =>
                ih item hItem levels bytes rest) hAbsorb hAll).map CellList.toCell
            -- Tag, count and items are read in this order, each with its own limits.
            have hTag := decides_type element levels (putUnsigned items.length ++ (inner ++ rest))
            rw [List.cons_append, List.append_assoc, List.append_assoc]
            exact (hTag.andThen (decides_count items.length _ _ hBelow)).congr fits_list_iff
      · cases hEncode

/-- Decoding the bytes of a well-formed cell and nothing behind them. -/
theorem decode_decides {cell : Cell} (h : cell.WellFormed) {bytes : List UInt8}
    (hEncode : encode cell = .ok bytes) :
    (Fits (maxDepth + 1) cell → decode bytes = .ok cell) ∧
      (¬Fits (maxDepth + 1) cell → ∃ e, decode bytes = .error e) := by
  have hDecides := decides_cell h (maxDepth + 1) bytes [] hEncode
  rw [List.append_nil] at hDecides
  unfold decode
  constructor
  · intro hFits
    rw [hDecides.accepts hFits]
  · intro hFits
    obtain ⟨e, hError⟩ := hDecides.refuses hFits
    rw [hError]
    exact ⟨e, rfl⟩

/-- The round trip over the whole format: exactly the cells with a handle in them have no written
form; the bytes of any other cell that is built decode to that cell if it is within the limits,
and to an error if it is not. -/
theorem decode_encode_iff {cell : Cell} (hBuilt : cell.Built) :
    ((∃ e, encode cell = .error e) ↔ cell.hasHandle = true) ∧
    ∀ bytes, encode cell = .ok bytes →
      (decode bytes = .ok cell ↔
        cell.depth ≤ maxDepth ∧ (∀ n ∈ cell.listLengths, n ≤ maxListLength) ∧
          ∀ s ∈ cell.strings, s.utf8ByteSize ≤ maxStringLength) ∧
      (decode bytes = .ok cell ∨ ∃ e, decode bytes = .error e) := by
  refine ⟨encode_error_iff cell, fun bytes hEncode => ?_⟩
  obtain ⟨hAccepts, hRefuses⟩ := decode_decides hBuilt.wellFormed hEncode
  have hFits : Fits (maxDepth + 1) cell ↔ cell.depth ≤ maxDepth ∧
      (∀ n ∈ cell.listLengths, n ≤ maxListLength) ∧
        ∀ s ∈ cell.strings, s.utf8ByteSize ≤ maxStringLength :=
    ⟨fun h => ⟨Nat.lt_succ_iff.1 h.depth, h.lists, h.strings⟩,
      fun h => ⟨Nat.lt_succ_iff.2 h.1, h.2.1, h.2.2⟩⟩
  rw [← hFits]
  by_cases hWithin : Fits (maxDepth + 1) cell
  · exact ⟨iff_of_true (hAccepts hWithin) hWithin, Or.inl (hAccepts hWithin)⟩
  · obtain ⟨e, hError⟩ := hRefuses hWithin
    refine ⟨iff_of_false (fun hOk => ?_) hWithin, Or.inr ⟨e, hError⟩⟩
    rw [hError] at hOk
    cases hOk

/-- A list of an empty list without a tag and of a list of different numbers. -/
def nestedNumbers : Cell :=
  .list (.list .number)
    [.list .undetermined [], .list .number [.integer (-129), .rational (.ofInteger 7)]]

theorem nestedNumbers_built : nestedNumbers.Built := by
  have hFirst : CellList.Built ⟨.integer, [.integer (-129)]⟩ :=
    @CellList.Built.push .empty _ (.integer (-129)) (.start _) (.leaf rfl) rfl
  have hNumbers : CellList.Built ⟨.number, [.integer (-129), .rational (.ofInteger 7)]⟩ :=
    @CellList.Built.push _ _ (.rational (.ofInteger 7)) hFirst (.leaf rfl) rfl
  have hOuter : CellList.Built ⟨.list .number,
      [.list .number [.integer (-129), .rational (.ofInteger 7)]]⟩ :=
    @CellList.Built.push .empty _ _ (.start _) (.list hNumbers) rfl
  exact .list (@CellList.Built.insert _ ⟨_, _⟩ _ 0 hOuter (.list (.start .undetermined)) rfl)

theorem decode_encode_nestedNumbers :
    ∃ bytes, encode nestedNumbers = .ok bytes ∧ decode bytes = .ok nestedNumbers := by
  obtain ⟨hError, hRound⟩ := decode_encode_iff nestedNumbers_built
  cases hEncode : encode nestedNumbers with
  | error e => exact absurd (hError.1 ⟨e, hEncode⟩) (by decide)
  | ok bytes => exact ⟨bytes, rfl, (hRound bytes hEncode).1.2 (by decide)⟩

end Wire
end CellMachine
