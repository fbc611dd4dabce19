import CellMachine.Proofs.Wire.RoundTrip

/-!
# What the decoder accepts

The input of the decoder is any bytes at all.  Main statement: a cell that it accepts is well
formed, has no handle in it and is within the limits, so it can be written again, and what is
written decodes to the same cell.

It does NOT follow that the bytes are the written form of the cell: groups of seven bits may be
longer than needed, fractions need not be reduced, and the tag of a list may be narrower than what
its items merge to.  The merged tag may be nested deeper than the one in the bytes, but not deeper
than the items are, whose own levels were counted.
-/

namespace CellMachine

/-! ## Merged tags -/

namespace CellType

/-- Merging two tags adds no level to the deeper one, and no names. -/
theorem unify_bounds {a b merged : CellType} (h : a.unify b = some merged) :
    merged.nesting ≤ max a.nesting b.nesting ∧ merged.names ⊆ a.names ++ b.names := by
  unfold unify at h
  split at h
  · rename_i a' b'
    obtain ⟨inner, hInner, rfl⟩ := Option.map_eq_some_iff.1 h
    obtain ⟨hNesting, hNames⟩ := unify_bounds hInner
    simp only [nesting, names]
    exact ⟨by omega, hNames⟩
  · split at h
    · cases h
      exact ⟨by omega, by simp⟩
    · split at h
      · cases h
        exact ⟨by omega, by simp⟩
      · split at h
        · cases h
          exact ⟨by omega, by simp⟩
        · split at h
          · cases h
            exact ⟨by simp [nesting], by simp [names]⟩
          · cases h
termination_by sizeOf a

end CellType

/-! ## Fractions -/

namespace Cell

mutual

/-- All fractions in a cell. -/
def fractions : Cell → List Rational
  | rational q => [q]
  | list _ items => allFractions items
  | _ => []

def allFractions : List Cell → List Rational
  | [] => []
  | item :: rest => fractions item ++ allFractions rest

end

end Cell

namespace Wire

/-! ## Strings -/

theorem length_of_split? {count : Nat} {bytes front rest : List UInt8}
    (h : split? count bytes = some (front, rest)) : front.length = count := by
  induction count generalizing bytes front with
  | zero =>
      simp only [split?, Option.some.injEq, Prod.mk.injEq] at h
      simp [← h.1]
  | succ count ih =>
      cases bytes with
      | nil => simp [split?] at h
      | cons b more =>
          simp only [split?, Option.map_eq_some_iff] at h
          obtain ⟨⟨front', rest'⟩, hSplit, hEq⟩ := h
          cases hEq
          simp [ih hSplit]

theorem utf8ByteSize_of_decodeText? {bytes : List UInt8} {s : String}
    (h : decodeText? bytes = some s) : s.utf8ByteSize = bytes.length := by
  unfold decodeText? String.fromUTF8? at h
  split at h
  · cases h
    simp [String.fromUTF8, String.utf8ByteSize, ByteArray.size]
  · cases h

/-- A string that is read is within the limit. -/
theorem utf8ByteSize_of_string {limit : Nat} {bytes rest : List UInt8} {s : String}
    (h : string limit bytes = (.ok s, rest)) : s.utf8ByteSize ≤ limit := by
  unfold string at h
  split at h
  · cases h
  · rename_i length behind _
    split at h
    · cases h
    · rename_i hLimit
      unfold exactly at h
      cases hSplit : split? length.toNat behind with
      | none => simp [hSplit] at h
      | some parts =>
          obtain ⟨front, more⟩ := parts
          simp only [hSplit] at h
          split at h
          · rename_i text hText
            cases h
            rw [utf8ByteSize_of_decodeText? hText, length_of_split? hSplit]
            omega
          · cases h

/-! ## Decoders -/

/-- Whatever the decoder gives has the property. -/
def Ensures {α : Type} (decoded : Decoded α) (P : α → Prop) : Prop :=
  ∀ value rest, decoded = .ok (value, rest) → P value

namespace Ensures

variable {α β : Type} {P : α → Prop} {Q : β → Prop}

theorem of_ok {value : α} {rest : List UInt8} (h : P value) :
    Ensures (.ok (value, rest) : Decoded α) P := by
  intro _ _ hEq
  cases hEq
  exact h

theorem of_error (e : DecodeError) : Ensures (.error e : Decoded α) P := by
  intro _ _ hEq
  cases hEq

theorem following {read : Read β} {next : β → List UInt8 → Decoded α}
    (h : ∀ value rest, read = (.ok value, rest) → Ensures (next value rest) P) :
    Ensures (Wire.following read next) P := by
  obtain ⟨result, rest⟩ := read
  cases result with
  | error cause => exact of_error _
  | ok value => exact h value rest rfl

theorem andThen {first : Decoded β} {second : β → List UInt8 → Decoded α} (h : Ensures first Q)
    (h' : ∀ value rest, Q value → Ensures (second value rest) P) :
    Ensures (Wire.andThen first second) P := by
  cases first with
  | error e => exact of_error _
  | ok pair => exact h' pair.1 pair.2 (h pair.1 pair.2 rfl)

end Ensures

/-- A type that is decoded can be read again with the same number of levels. -/
theorem decodeType_ensures (levels : Nat) (bytes : List UInt8) :
    Ensures (decodeType levels bytes) (TypeFits levels) := by
  induction levels generalizing bytes with
  | zero => exact .of_error _
  | succ levels ih =>
      have hPlain {t : CellType} {rest : List UInt8} (hNesting : t.nesting = 0)
          (hNames : t.names = []) : Ensures (.ok (t, rest)) (TypeFits (levels + 1)) :=
        .of_ok ⟨by omega, by simp [hNames]⟩
      rw [decodeType]
      refine .following fun tag rest _ => ?_
      split
      -- Of the types, only lists and handle types have more bytes to read.
      case h_9 =>
          refine (ih rest).andThen fun element rest hElement => .of_ok ⟨?_, hElement.names⟩
          have hNesting := hElement.nesting
          simp only [CellType.nesting]
          omega
      case h_11 =>
          refine .following fun name rest hString => .of_ok ⟨by simp [CellType.nesting], ?_⟩
          simpa [CellType.names] using utf8ByteSize_of_string hString
      case h_16 => exact .of_error _
      all_goals exact hPlain rfl rfl

/-- The cell is well formed, can be written, and can be read with the given number of levels. -/
structure Proper (levels : Nat) (cell : Cell) : Prop where
  wellFormed : cell.WellFormed
  noHandle : cell.hasHandle = false
  fits : Fits levels cell

/-- The type of such a cell can be read with as many levels: the levels of a list bound those of
its tag. -/
theorem Proper.type_fits {levels : Nat} {cell : Cell} (h : Proper levels cell) :
    TypeFits levels cell.type := by
  have hDepth := h.fits.depth
  have hPlain {t : CellType} (hNesting : t.nesting = 0) (hNames : t.names = []) :
      TypeFits levels t := ⟨by omega, by simp [hNames]⟩
  cases cell with
  | list element items =>
      rw [Cell.depth] at hDepth
      refine ⟨by simp only [Cell.type, CellType.nesting]; omega, fun s hs => ?_⟩
      exact h.fits.strings s (by rw [Cell.strings]; exact List.mem_append_left _ hs)
  | handle object => exact absurd h.noHandle (by simp [Cell.hasHandle])
  | stream stream => cases stream <;> exact hPlain rfl rfl
  | _ => exact hPlain rfl rfl

/-- A tag goes on fitting when it takes in the type of an item that fits. -/
theorem TypeFits.absorb {levels : Nat} {element merged : CellType} {cell : Cell}
    (h : TypeFits levels element) (hCell : Proper levels cell)
    (hAbsorb : element.absorb cell = .ok merged) : TypeFits levels merged := by
  obtain ⟨hNesting, hNames⟩ := CellType.unify_bounds (CellType.absorb_eq_ok_iff.1 hAbsorb).2
  have hType := hCell.type_fits
  have hOld := h.nesting
  have hNew := hType.nesting
  refine ⟨by omega, fun s hs => ?_⟩
  rcases List.mem_append.1 (hNames hs) with hs | hs
  · exact h.names s hs
  · exact hType.names s hs

theorem anyHandle_eq_false_iff {items : List Cell} :
    Cell.anyHandle items = false ↔ ∀ item ∈ items, item.hasHandle = false := by
  induction items with
  | nil => simp [Cell.anyHandle]
  | cons item rest ih => simp [Cell.anyHandle, ih]

/-- The list as far as it is read: its tag covers the items and fits, and so do the items. -/
structure ProperList (levels : Nat) (element : CellType) (items : List Cell) : Prop where
  wellFormed : (Cell.list element items).WellFormed
  element : TypeFits levels element
  items : ∀ item ∈ items, Proper levels item

theorem ProperList.absorb {levels : Nat} {element merged : CellType} {items : List Cell}
    {cell : Cell} (h : ProperList levels element items) (hCell : Proper levels cell)
    (hAbsorb : element.absorb cell = .ok merged) : ProperList levels merged (cell :: items) where
  wellFormed := h.wellFormed.absorb hCell.wellFormed hAbsorb
  element := h.element.absorb hCell hAbsorb
  items := List.forall_mem_cons.2 ⟨hCell, h.items⟩

theorem ProperList.toCell {levels : Nat} {element : CellType} {items : List Cell}
    (h : ProperList levels element items) (hLength : items.length ≤ maxListLength) :
    Proper (levels + 1) (.list element items) where
  wellFormed := h.wellFormed
  noHandle := by
    rw [Cell.hasHandle, anyHandle_eq_false_iff]
    exact fun item hItem => (h.items item hItem).noHandle
  fits := fits_list_iff.2 ⟨h.element, hLength, fun item hItem => (h.items item hItem).fits⟩

/-- Items are read one by one; with each of them the list stays proper. -/
theorem decodeItems_ensures {decode : List UInt8 → Decoded Cell} {levels : Nat}
    (hDecode : ∀ bytes, Ensures (decode bytes) (Proper levels)) (count : Nat) {element : CellType}
    {done : List Cell} (h : ProperList levels element done) (bytes : List UInt8) :
    Ensures (decodeItems decode count element done bytes) fun list =>
      ProperList levels list.element list.items ∧ list.items.length = done.length + count := by
  induction count generalizing element done bytes with
  | zero =>
      refine .of_ok ⟨⟨h.wellFormed.of_subset (by simp), h.element, ?_⟩, by simp⟩
      simpa using h.items
  | succ count ih =>
      rw [decodeItems]
      refine (hDecode bytes).andThen fun cell rest hCell => ?_
      split
      · exact .of_error _
      · rename_i merged hAbsorb
        intro list left hList
        obtain ⟨hProper, hLength⟩ := ih (h.absorb hCell hAbsorb) rest list left hList
        refine ⟨hProper, ?_⟩
        rw [hLength, List.length_cons]
        omega

theorem decodeStream_ensures (levels : Nat) (bytes : List UInt8) :
    Ensures (decodeStream bytes) (Proper (levels + 1)) := by
  refine .following fun kind rest _ => ?_
  split
  case h_4 => exact .of_error _
  all_goals exact .of_ok ⟨.leaf rfl, rfl, fits_plain levels rfl rfl rfl⟩

theorem decodeRational_ensures (levels : Nat) (bytes : List UInt8) :
    Ensures (decodeRational bytes) (Proper (levels + 1)) := by
  refine .following fun num rest _ => .following fun den rest _ => ?_
  split
  · exact .of_ok ⟨.leaf rfl, rfl, fits_plain levels rfl rfl rfl⟩
  · exact .of_error _

/-- Every cell that is decoded is proper, with the number of levels that were left for it. -/
theorem decodeCell_ensures (levels : Nat) (bytes : List UInt8) :
    Ensures (decodeCell levels bytes) (Proper levels) := by
  induction levels generalizing bytes with
  | zero => exact .of_error _
  | succ levels ih =>
      have hPlain {cell : Cell} {rest : List UInt8} (hLeaf : cell.asItems? = none)
          (hHandle : cell.hasHandle = false) (hFits : Fits (levels + 1) cell) :
          Ensures (.ok (cell, rest)) (Proper (levels + 1)) :=
        .of_ok ⟨.leaf hLeaf, hHandle, hFits⟩
      have hText {wrap : String → Cell} (hLeaf : ∀ s, (wrap s).asItems? = none)
          (hHandle : ∀ s, (wrap s).hasHandle = false) (hDepth : ∀ s, (wrap s).depth = 0)
          (hLists : ∀ s, (wrap s).listLengths = []) (hStrings : ∀ s, (wrap s).strings = [s])
          (bytes : List UInt8) :
          Ensures (following (string maxStringLength bytes) fun s rest => .ok (wrap s, rest))
            (Proper (levels + 1)) := by
        refine .following fun s rest hString => hPlain (hLeaf s) (hHandle s) ?_
        exact (fits_string_iff levels (hDepth s) (hLists s) (hStrings s)).2
          (utf8ByteSize_of_string hString)
      rw [decodeCell]
      refine .following fun tag rest _ => ?_
      split
      · exact .following fun b rest _ => hPlain rfl rfl (fits_plain levels rfl rfl rfl)
      · exact .following fun i rest _ => hPlain rfl rfl (fits_plain levels rfl rfl rfl)
      · exact .following fun x rest _ => hPlain rfl rfl (fits_plain levels rfl rfl rfl)
      · exact decodeRational_ensures levels rest
      · exact hText (fun _ => rfl) (fun _ => rfl) (fun _ => rfl) (fun _ => rfl) (fun _ => rfl) rest
      · refine (decodeType_ensures levels rest).andThen fun element rest hElement =>
          .following fun count rest _ => ?_
        split
        · exact .of_error _
        · rename_i hCount
          have hStart : ProperList levels element [] :=
            ⟨Cell.wellFormed_nil element, hElement, by simp⟩
          refine (decodeItems_ensures ih count.toNat hStart rest).andThen fun list rest hList => ?_
          have hLength := hList.2
          rw [List.length_nil] at hLength
          exact .of_ok (hList.1.toCell (by omega))
      · exact hText (fun _ => rfl) (fun _ => rfl) (fun _ => rfl) (fun _ => rfl) (fun _ => rfl) rest
      · exact hText (fun _ => rfl) (fun _ => rfl) (fun _ => rfl) (fun _ => rfl) (fun _ => rfl) rest
      · exact (decodeType_ensures levels rest).andThen fun placeholder rest hFits =>
          hPlain rfl rfl (fits_null_iff.2 hFits)
      · exact decodeStream_ensures levels rest
      · exact .of_error _

theorem proper_of_decode {bytes : List UInt8} {cell : Cell} (h : decode bytes = .ok cell) :
    Proper (maxDepth + 1) cell := by
  unfold decode at h
  split at h
  · cases h
  · rename_i hCell
    cases h
    exact decodeCell_ensures _ _ _ _ hCell
  · cases h

/-- Everything the decoder accepts is a proper value and can be written again: there is no handle
in it, every list at any depth has a tag that covers its items and no reference among them, its
fractions are in lowest terms, and what is written for it decodes to the same cell. -/
theorem decode_reencodes {bytes : List UInt8} {cell : Cell} (h : decode bytes = .ok cell) :
    cell.hasHandle = false ∧ cell.WellFormed ∧
      (∀ q ∈ cell.fractions, 0 < q.den.toInt ∧ q.num.toInt.natAbs.gcd q.den.toInt.natAbs = 1) ∧
      ∃ written, encode cell = .ok written ∧ decode written = .ok cell := by
  obtain ⟨hFormed, hHandle, hFits⟩ := proper_of_decode h
  refine ⟨hHandle, hFormed, fun q _ => ⟨q.den_pos, q.coprime⟩, ?_⟩
  cases hEncode : encode cell with
  | error e =>
      have hFound := (encode_error_iff cell).1 ⟨e, hEncode⟩
      rw [hHandle] at hFound
      cases hFound
  | ok written => exact ⟨written, rfl, (decode_decides hFormed hEncode).1 hFits⟩

/-- A list without a tag, of a list of one integer in a group that is too long, and of a list of the
fraction `4 / -6`. -/
def looseBytes : List UInt8 :=
  [0x06, 0x00, 0x82, 0x00, 0x06, 0x04, 0x01, 0x02, 0x85, 0x00, 0x06, 0x06, 0x01, 0x04, 0x04, 0x7A]

/-- The cell that these bytes are read as. -/
def looseCell : Cell :=
  .list (.list .number)
    [.list .integer [.integer 5], .list .rational [.rational ⟨-2, 3, by decide, by decide⟩]]

theorem decode_reencodes_looseBytes :
    decode looseBytes = .ok looseCell ∧ looseCell.WellFormed ∧
      ∃ written, encode looseCell = .ok written ∧ decode written = .ok looseCell := by
  have hDecode : decode looseBytes = .ok looseCell := rfl
  obtain ⟨-, hFormed, -, hWritten⟩ := decode_reencodes hDecode
  exact ⟨hDecode, hFormed, hWritten⟩

end Wire
end CellMachine
