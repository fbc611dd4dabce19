import CellMachine.Proofs.Signature.Words
import Mathlib.Algebra.Group.Nat.Defs

/-!
# The entries of a parameter list

What a cut list of parameters says about its text, and when a text cannot be cut, is stated here
without the scan, by counting: a text is balanced if it has an even number of quotes and, outside
of them, as many brackets that open as brackets that close.  The scan counts in a word of 32 bits,
so it only finds out whether a text is level, that is, whether these numbers of brackets agree
modulo `2 ^ 32`.  A comma is a place to cut exactly if the text in front of it is level.

Main statement: a list is cut into its entries, that is, a blank text into none and any other into
the texts that it joins with commas, each of them level, not blank, and with no level text in front
of a comma of its own; and a text is refused exactly if it is not level or, not being blank itself,
has a blank piece from one comma to cut at to the next.  Where the depth stays in reach of the
counter, level is balanced in all of this (`parameter_list_cut`).  It is NOT so beyond: `2 ^ 32`
open brackets look like none, so a list that is not balanced is cut at a comma inside of brackets
(`parameter_list_cut_deep`).

The brackets are counted and NOT matched: a curly one may close a round one, and a text may close a
bracket before it opens one.  While it has closed more than it has opened, commas do not cut it
either.
-/

namespace CellMachine

/-! ## Quotes and brackets, counted -/

def isOpening (c : Char) : Bool := c == '(' || c == '\x7b'

def isClosing (c : Char) : Bool := c == ')' || c == '\x7d'

/-- How many characters of a kind stand outside of quotes, that is, behind an even number of
them. -/
def countOutside (kind : Char → Bool) (text : List Char) : Nat :=
  (List.range text.length).countP fun i =>
    text[i]?.any kind && (text.take i).count '"' % 2 == 0

/-- A text has an even number of quotes, and outside of them it opens as many brackets as it
closes. -/
structure Balanced (text : List Char) : Prop where
  quotes : text.count '"' % 2 = 0
  brackets : countOutside isOpening text = countOutside isClosing text

/-- A text is balanced as far as a counter of 32 bits can tell. -/
structure Level (text : List Char) : Prop where
  quotes : text.count '"' % 2 = 0
  brackets : countOutside isOpening text % 2 ^ 32 = countOutside isClosing text % 2 ^ 32

/-- Nowhere in the text is the depth, up or down, `2 ^ 32` or more. -/
def DepthFits (text : List Char) : Prop :=
  ∀ front, front <+: text →
    countOutside isOpening front < countOutside isClosing front + 2 ^ 32 ∧
      countOutside isClosing front < countOutside isOpening front + 2 ^ 32

theorem countOutside_concat (kind : Char → Bool) (text : List Char) (c : Char) :
    countOutside kind (text ++ [c]) =
      countOutside kind text + if kind c = true ∧ text.count '"' % 2 = 0 then 1 else 0 := by
  have hFront : (List.range text.length).countP (fun i =>
        (text ++ [c])[i]?.any kind && ((text ++ [c]).take i).count '"' % 2 == 0) =
      countOutside kind text := by
    apply List.countP_congr
    intro i hi
    rw [List.mem_range] at hi
    rw [List.getElem?_append_left hi, List.take_append_of_le_length (by omega)]
  rw [countOutside, List.length_append, List.length_singleton, List.range_succ,
    List.countP_append, hFront, List.countP_singleton]
  simp

theorem countOutside_le_length (kind : Char → Bool) (text : List Char) :
    countOutside kind text ≤ text.length := by
  unfold countOutside
  refine List.countP_le_length.trans ?_
  rw [List.length_range]

/-- Behind a comma with an even number of quotes in front, the count starts anew. -/
theorem countOutside_behind_comma {kind : Char → Bool} (hComma : kind ',' = false)
    {front : List Char} (hQuotes : front.count '"' % 2 = 0) (text : List Char) :
    countOutside kind (front ++ ',' :: text) =
      countOutside kind front + countOutside kind text := by
  induction text using List.reverseRecOn with
  | nil =>
      rw [countOutside_concat, hComma]
      rfl
  | append_singleton text c ih =>
      have hSame : (front ++ ',' :: text).count '"' % 2 = text.count '"' % 2 := by
        rw [List.count_append, List.count_cons_of_ne (by decide)]
        omega
      rw [← List.cons_append, ← List.append_assoc, countOutside_concat, countOutside_concat, ih,
        hSame, Nat.add_assoc]

theorem counts_behind_comma {front : List Char} (hQuotes : front.count '"' % 2 = 0)
    (text : List Char) :
    (front ++ ',' :: text).count '"' = front.count '"' + text.count '"' ∧
      countOutside isOpening (front ++ ',' :: text) =
        countOutside isOpening front + countOutside isOpening text ∧
      countOutside isClosing (front ++ ',' :: text) =
        countOutside isClosing front + countOutside isClosing text := by
  refine ⟨?_, countOutside_behind_comma rfl hQuotes text,
    countOutside_behind_comma rfl hQuotes text⟩
  rw [List.count_append, List.count_cons_of_ne (by decide)]

/-- A level text and a comma do not matter for what stands behind them. -/
theorem Level.behind_comma_iff {front : List Char} (h : Level front) (text : List Char) :
    Level (front ++ ',' :: text) ↔ Level text := by
  obtain ⟨hCount, hOpened, hClosed⟩ := counts_behind_comma h.quotes text
  obtain ⟨hQuotes, hBrackets⟩ := h
  constructor
  · rintro ⟨hEven, hDepth⟩
    exact ⟨by omega, by omega⟩
  · rintro ⟨hEven, hDepth⟩
    exact ⟨by omega, by omega⟩

theorem Balanced.behind_comma_iff {front : List Char} (h : Balanced front) (text : List Char) :
    Balanced (front ++ ',' :: text) ↔ Balanced text := by
  obtain ⟨hCount, hOpened, hClosed⟩ := counts_behind_comma h.quotes text
  obtain ⟨hQuotes, hBrackets⟩ := h
  constructor
  · rintro ⟨hEven, hDepth⟩
    exact ⟨by omega, by omega⟩
  · rintro ⟨hEven, hDepth⟩
    exact ⟨by omega, by omega⟩

/-! ### Level and balanced -/

theorem Balanced.level {text : List Char} (h : Balanced text) : Level text :=
  ⟨h.quotes, congrArg (· % 2 ^ 32) h.brackets⟩

/-- In reach of the counter, whatever stands in front is balanced if it is level. -/
theorem DepthFits.balanced_iff {text front : List Char} (h : DepthFits text)
    (hFront : front <+: text) : Balanced front ↔ Level front := by
  refine ⟨Balanced.level, fun hLevel => ⟨hLevel.quotes, ?_⟩⟩
  have hBrackets := hLevel.brackets
  obtain ⟨hUp, hDown⟩ := h front hFront
  omega

theorem depthFits_of_length {text : List Char} (h : text.length < 2 ^ 32) : DepthFits text := by
  intro front hFront
  have hLength := hFront.length_le
  have hOpened := countOutside_le_length isOpening front
  have hClosed := countOutside_le_length isClosing front
  constructor <;> omega

/-! ### The scan counts -/

theorem ofNat_sub_ofNat_eq_zero_iff (a b : Nat) :
    Int32.ofNat a - Int32.ofNat b = 0 ↔ a % 2 ^ 32 = b % 2 ^ 32 := by
  rw [← Int32.toBitVec_inj, Int32.toBitVec_sub, Int32.toBitVec_ofNat', Int32.toBitVec_ofNat',
    ← BitVec.toNat_inj]
  simp
  omega

namespace Nesting

/-- Behind any text the depth of the scan is, as a word, the number of brackets opened less that of
brackets closed, and the scan is inside of quotes behind an odd number of them. -/
theorem start_after (text : List Char) :
    start.after text =
      ⟨Int32.ofNat (countOutside isOpening text) - Int32.ofNat (countOutside isClosing text),
        decide (text.count '"' % 2 = 1)⟩ := by
  -- The scan goes from left to right, so the induction takes characters off the end.
  induction text using List.reverseRecOn with
  | nil => rfl
  | append_singleton text c ih =>
      rw [after_append, ih, after_cons, after_nil, countOutside_concat, countOutside_concat,
        List.count_append, step]
      by_cases hQuote : c = '"'
      · subst hQuote
        rcases Nat.mod_two_eq_zero_or_one (text.count '"') with hEven | hOdd
        · simp [isOpening, isClosing, hEven, Nat.add_mod]
        · simp [isOpening, isClosing, hOdd, Nat.add_mod]
      · have hCount : [c].count '"' = 0 := by simp [hQuote]
        rw [if_neg hQuote, hCount, Nat.add_zero]
        by_cases hOdd : text.count '"' % 2 = 1
        · simp [hOdd]
        · have hEven : text.count '"' % 2 = 0 := by omega
          simp only [hEven, isOpening, isClosing, Bool.or_eq_true, beq_iff_eq]
          by_cases hOpen : c = '(' ∨ c = '\x7b'
          · have hClose : ¬(c = ')' ∨ c = '\x7d') := by
              rcases hOpen with rfl | rfl <;> decide
            simp only [hOpen, hClose]
            grind [Int32.ofNat_add]
          · by_cases hClose : c = ')' ∨ c = '\x7d'
            · simp only [hOpen, hClose]
              grind [Int32.ofNat_add]
            · simp [hOpen, hClose]

theorem isTop_after_iff (text : List Char) : (start.after text).isTop = true ↔ Level text := by
  rw [start_after]
  simp only [isTop, Bool.and_eq_true, beq_iff_eq, Bool.not_eq_true', decide_eq_false_iff_not,
    ofNat_sub_ofNat_eq_zero_iff]
  constructor
  · rintro ⟨hDepth, hQuotes⟩
    exact ⟨by omega, hDepth⟩
  · rintro ⟨hQuotes, hBrackets⟩
    exact ⟨hBrackets, by omega⟩

theorem keeps_iff (s : Nesting) (text : List Char) :
    s.keeps text = true ↔
      ∀ front back, text = front ++ ',' :: back → ¬(s.after front).isTop = true := by
  induction text generalizing s with
  | nil => simp [keeps]
  | cons c rest ih =>
      rw [keeps_cons, ih]
      constructor
      · rintro ⟨hFirst, hRest⟩ front back hText
        cases front with
        | nil =>
            obtain ⟨rfl, -⟩ := List.cons.inj hText
            exact fun hTop => hFirst ⟨rfl, hTop⟩
        | cons d front =>
            obtain ⟨rfl, hBack⟩ := List.cons.inj hText
            exact hRest front back hBack
      · intro hAll
        constructor
        · rintro ⟨rfl, hTop⟩
          exact hAll [] rest rfl hTop
        · rintro front back rfl
          exact hAll (c :: front) back rfl

theorem start_keeps_iff (text : List Char) :
    start.keeps text = true ↔ ∀ front back, text = front ++ ',' :: back → ¬Level front := by
  simp only [keeps_iff, isTop_after_iff]

end Nesting

theorem level_iff (text : List Char) : Level text ↔ Nesting.start.after text = .start := by
  rw [← Nesting.isTop_after_iff, Nesting.isTop_iff]

theorem whole_iff (text : List Char) :
    Whole text ↔ Level text ∧ ∀ front back, text = front ++ ',' :: back → ¬Level front := by
  rw [level_iff, ← Nesting.start_keeps_iff]
  exact ⟨fun h => ⟨h.after, h.keeps⟩, fun h => ⟨h.2, h.1⟩⟩

theorem level_of_blank {text : List Char} (h : text.all Text.isBlank = true) : Level text := by
  rw [List.all_eq_true] at h
  rw [level_iff, ← Nesting.after_marks,
    marks_eq_nil fun c hc => Text.isMark_of_isBlank (h c hc)]
  rfl

/-! ## From one comma to the next -/

/-- A text is one piece, or it is cut at its first comma to cut at. -/
theorem pieces_cases (s : Nesting) (text : List Char) :
    (s.keeps text = true ∧ pieces s text = [text]) ∨
    ∃ first rest, text = first ++ ',' :: rest ∧ s.keeps first = true ∧
      (s.after first).isTop = true ∧ pieces s text = first :: pieces .start rest := by
  induction text generalizing s with
  | nil => exact Or.inl ⟨rfl, rfl⟩
  | cons c rest ih =>
      by_cases hCut : c = ',' ∧ s.isTop = true
      · obtain ⟨rfl, hTop⟩ := hCut
        refine Or.inr ⟨[], rest, rfl, rfl, hTop, ?_⟩
        rw [pieces, if_pos ⟨rfl, hTop⟩, Nesting.isTop_iff.1 hTop]
      · rw [pieces, if_neg hCut, Nesting.keeps_cons]
        rcases ih (s.step c) with ⟨hKeeps, hPieces⟩ | ⟨first, behind, rfl, hKeeps, hTop, hPieces⟩
        · exact Or.inl ⟨⟨hCut, hKeeps⟩, by rw [hPieces]⟩
        · exact Or.inr ⟨c :: first, behind, rfl, Nesting.keeps_cons.2 ⟨hCut, hKeeps⟩, hTop,
            by rw [hPieces]⟩

theorem pieces_ne_nil (s : Nesting) (text : List Char) : pieces s text ≠ [] := by
  rcases pieces_cases s text with ⟨-, hPieces⟩ | ⟨_, _, -, -, -, hPieces⟩
  · simp [hPieces]
  · simp [hPieces]

/-- Nothing is lost: the pieces with commas between them are the text. -/
theorem intercalate_pieces (s : Nesting) (text : List Char) :
    [','].intercalate (pieces s text) = text := by
  induction hLength : text.length using Nat.strongRecOn generalizing s text with
  | ind length ih =>
      rcases pieces_cases s text with ⟨-, hPieces⟩ | ⟨first, rest, rfl, -, -, hPieces⟩
      · rw [hPieces]
        simp
      · have hShorter : rest.length < length := by
          rw [← hLength, List.length_append, List.length_cons]
          omega
        obtain ⟨next, more, hNext⟩ := List.exists_cons_of_ne_nil (pieces_ne_nil .start rest)
        rw [hPieces, hNext, List.intercalate_cons_cons, ← hNext, ih _ hShorter .start rest rfl]
        simp

theorem pieces_of_keeps {s : Nesting} {text : List Char} (h : s.keeps text = true) :
    pieces s text = [text] := by
  have hEnd : pieces (s.after text) [] = [[]] := rfl
  simpa using pieces_append h hEnd

/-- A comma to cut at separates the pieces in front of it from those behind it. -/
theorem pieces_behind_comma {s : Nesting} {front : List Char} (hTop : (s.after front).isTop = true)
    (rest : List Char) :
    pieces s (front ++ ',' :: rest) = pieces s front ++ pieces .start rest := by
  induction front generalizing s with
  | nil =>
      obtain rfl := Nesting.isTop_iff.1 hTop
      rfl
  | cons c front ih =>
      rw [List.cons_append, pieces, pieces]
      split
      · rename_i hCut
        obtain ⟨rfl, hStart⟩ := hCut
        obtain rfl := Nesting.isTop_iff.1 hStart
        have hFront : (Nesting.start.after front).isTop = true := hTop
        rw [ih hFront, List.cons_append]
      · obtain ⟨piece, more, hFront⟩ := List.exists_cons_of_ne_nil (pieces_ne_nil (s.step c) front)
        rw [ih hTop, hFront]
        rfl

/-- What stands between a front and a back reaches from one comma to cut at, or from an end of the
whole text, to the next.  A comma is one to cut at if the text in front of it is of the given
kind. -/
structure IsPiece (Top : List Char → Prop) (front piece back : List Char) : Prop where
  opens : front = [] ∨ ∃ before, front = before ++ [','] ∧ Top before
  closes : back = [] ∨ ∃ behind, back = ',' :: behind ∧ Top (front ++ piece)
  inner : ∀ left right, piece = left ++ ',' :: right → ¬Top (front ++ left)

/-- Only the texts in front of a comma in the piece, or of one at its ends, matter. -/
theorem IsPiece.congr {S T : List Char → Prop} {front piece back : List Char}
    (hSame : ∀ part, part <+: front ++ piece → (S part ↔ T part)) (h : IsPiece S front piece back) :
    IsPiece T front piece back := by
  constructor
  · rcases h.opens with rfl | ⟨before, rfl, hBefore⟩
    · exact Or.inl rfl
    · have hPart : before <+: before ++ [','] ++ piece :=
        (List.prefix_append before _).trans (List.prefix_append _ piece)
      exact Or.inr ⟨before, rfl, (hSame before hPart).1 hBefore⟩
  · rcases h.closes with rfl | ⟨behind, rfl, hPiece⟩
    · exact Or.inl rfl
    · exact Or.inr ⟨behind, rfl, (hSame _ List.prefix_rfl).1 hPiece⟩
  · rintro left right rfl hLeft
    have hPart : front ++ left <+: front ++ (left ++ ',' :: right) :=
      (List.prefix_append_right_inj front).2 (List.prefix_append left _)
    exact h.inner left right rfl ((hSame _ hPart).2 hLeft)

theorem IsPiece.behind_comma {before front piece back : List Char} (hBefore : Level before)
    (h : IsPiece Level front piece back) : IsPiece Level (before ++ ',' :: front) piece back := by
  constructor
  · rcases h.opens with rfl | ⟨inner, rfl, hInner⟩
    · exact Or.inr ⟨before, rfl, hBefore⟩
    · exact Or.inr ⟨before ++ ',' :: inner, by simp, (hBefore.behind_comma_iff inner).2 hInner⟩
  · rcases h.closes with rfl | ⟨behind, rfl, hLevel⟩
    · exact Or.inl rfl
    · refine Or.inr ⟨behind, rfl, ?_⟩
      rw [List.append_assoc, List.cons_append]
      exact (hBefore.behind_comma_iff _).2 hLevel
  · intro left right hPiece
    rw [List.append_assoc, List.cons_append, hBefore.behind_comma_iff]
    exact h.inner left right hPiece

theorem IsPiece.at_start {before piece back : List Char} (hBefore : Level before)
    (h : IsPiece Level (before ++ [',']) piece back) : IsPiece Level [] piece back := by
  have hBehind (text : List Char) : Level (before ++ [','] ++ text) ↔ Level text := by
    rw [List.append_assoc, List.singleton_append, hBefore.behind_comma_iff]
  constructor
  · exact Or.inl rfl
  · simpa only [hBehind, List.nil_append] using h.closes
  · simpa only [hBehind, List.nil_append] using h.inner

theorem exists_isPiece_of_mem {text piece : List Char} (h : piece ∈ pieces .start text) :
    ∃ front back, text = front ++ piece ++ back ∧ IsPiece Level front piece back := by
  induction hLength : text.length using Nat.strongRecOn generalizing text with
  | ind length ih =>
      rcases pieces_cases .start text with
        ⟨hKeeps, hPieces⟩ | ⟨first, rest, rfl, hKeeps, hTop, hPieces⟩
      · rw [hPieces, List.mem_singleton] at h
        subst h
        have hInner := (Nesting.start_keeps_iff piece).1 hKeeps
        exact ⟨[], [], by simp, Or.inl rfl, Or.inl rfl, hInner⟩
      · have hFirst := (Nesting.isTop_after_iff first).1 hTop
        rw [hPieces, List.mem_cons] at h
        rcases h with rfl | hRest
        · have hInner := (Nesting.start_keeps_iff piece).1 hKeeps
          exact ⟨[], ',' :: rest, rfl, Or.inl rfl, Or.inr ⟨rest, rfl, hFirst⟩, hInner⟩
        · have hShorter : rest.length < length := by
            rw [← hLength, List.length_append, List.length_cons]
            omega
          obtain ⟨front, back, rfl, hPiece⟩ := ih _ hShorter hRest rfl
          exact ⟨first ++ ',' :: front, back, by simp, hPiece.behind_comma hFirst⟩

theorem mem_pieces_of_isPiece {front piece back : List Char} (h : IsPiece Level front piece back) :
    piece ∈ pieces .start (front ++ piece ++ back) := by
  have hFirst {back : List Char} (h : IsPiece Level [] piece back) :
      piece ∈ pieces .start (piece ++ back) := by
    have hAlone : pieces .start piece = [piece] :=
      pieces_of_keeps ((Nesting.start_keeps_iff piece).2 h.inner)
    rcases h.closes with rfl | ⟨behind, rfl, hLevel⟩
    · simp [hAlone]
    · rw [pieces_behind_comma ((Nesting.isTop_after_iff piece).2 hLevel)]
      simp [hAlone]
  rcases h.opens with rfl | ⟨before, rfl, hBefore⟩
  · exact hFirst h
  · -- The pieces in front of the comma do not matter, so this one is the first of the others.
    rw [List.append_assoc, List.append_assoc, List.singleton_append,
      pieces_behind_comma ((Nesting.isTop_after_iff before).2 hBefore)]
    exact List.mem_append_right _ (hFirst (h.at_start hBefore))

theorem mem_pieces_iff (text piece : List Char) :
    piece ∈ pieces .start text ↔
      ∃ front back, text = front ++ piece ++ back ∧ IsPiece Level front piece back := by
  constructor
  · exact exists_isPiece_of_mem
  · rintro ⟨front, back, rfl, h⟩
    exact mem_pieces_of_isPiece h

/-! ## Entries -/

/-- One parameter as it is written in a list: it is not blank, it is of the given kind, and no text
in front of a comma in it is. -/
structure IsEntry (Top : List Char → Prop) (text : List Char) : Prop where
  solid : text.all Text.isBlank = false
  top : Top text
  sheltered : ∀ front back, text = front ++ ',' :: back → ¬Top front

theorem IsEntry.congr {S T : List Char → Prop} {text : List Char}
    (hSame : ∀ front, front <+: text → (S front ↔ T front)) (h : IsEntry S text) :
    IsEntry T text where
  solid := h.solid
  top := (hSame text List.prefix_rfl).1 h.top
  sheltered := by
    rintro front back rfl hFront
    exact h.sheltered front back rfl ((hSame front (List.prefix_append _ _)).2 hFront)

theorem isEntry_iff (text : List Char) :
    IsEntry Level text ↔ text.all Text.isBlank = false ∧ Whole text := by
  rw [whole_iff]
  exact ⟨fun h => ⟨h.solid, h.top, h.sheltered⟩, fun h => ⟨h.1, h.2.1, h.2.2⟩⟩

/-- How a parameter list is cut, if the texts of the given kind are those in front of a comma to cut
at: into its entries, of which there are none in a blank text, while any other text is its entries
with commas between them.  The only error is that the text is malformed, and it arises exactly if
the text is not of the kind or, not being blank itself, has a blank piece between two commas to cut
at, or between one and an end of the text. -/
structure CutsAt (Top : List Char → Prop) (text : List Char) : Prop where
  ok_iff : ∀ texts, splitParams text = .ok texts ↔
    (text.all Text.isBlank = true ∧ texts = []) ∨
    (text.all Text.isBlank = false ∧ [','].intercalate texts = text ∧
      ∀ piece ∈ texts, IsEntry Top piece)
  error_iff : ∀ e, splitParams text = .error e ↔
    e = .malformed (String.ofList text) ∧
      (¬Top text ∨ text.all Text.isBlank = false ∧
        ∃ front piece back, text = front ++ piece ++ back ∧ IsPiece Top front piece back ∧
          piece.all Text.isBlank = true)

theorem splitParams_eq_ok_iff (text : List Char) (texts : List (List Char)) :
    splitParams text = .ok texts ↔
      (text.all Text.isBlank = true ∧ texts = []) ∨
      (text.all Text.isBlank = false ∧ [','].intercalate texts = text ∧
        ∀ piece ∈ texts, IsEntry Level piece) := by
  constructor
  · intro h
    have hWhole := whole_of_splitParams h
    unfold splitParams at h
    split at h
    · cases h
    · split at h
      · rename_i hBlank
        cases h
        exact Or.inl ⟨hBlank, rfl⟩
      · rename_i hSolid
        split at h
        · cases h
        · rename_i hNone
          cases h
          refine Or.inr ⟨by simpa using hSolid, intercalate_pieces .start text, ?_⟩
          intro piece hPiece
          have hPieceSolid : piece.all Text.isBlank = false := by
            by_contra hBlank
            exact hNone (List.any_eq_true.2 ⟨piece, hPiece, by simpa using hBlank⟩)
          exact (isEntry_iff piece).2 ⟨hPieceSolid, hWhole piece hPiece⟩
  · rintro (⟨hBlank, rfl⟩ | ⟨-, rfl, hEntries⟩)
    · have hTop := (Nesting.isTop_after_iff text).2 (level_of_blank hBlank)
      unfold splitParams
      simp only [hTop, hBlank, Bool.not_true, Bool.false_eq_true, if_false, if_true]
    · apply splitParams_intercalate
      · intro piece hPiece
        exact ((isEntry_iff piece).1 (hEntries piece hPiece)).2
      · intro piece hPiece
        exact (hEntries piece hPiece).solid

theorem any_blank_iff (text : List Char) :
    ((pieces .start text).any fun piece => piece.all Text.isBlank) = true ↔
      ∃ front piece back, text = front ++ piece ++ back ∧ IsPiece Level front piece back ∧
        piece.all Text.isBlank = true := by
  rw [List.any_eq_true]
  constructor
  · rintro ⟨piece, hPiece, hBlank⟩
    obtain ⟨front, back, hText, hCuts⟩ := (mem_pieces_iff text piece).1 hPiece
    exact ⟨front, piece, back, hText, hCuts, hBlank⟩
  · rintro ⟨front, piece, back, hText, hCuts, hBlank⟩
    exact ⟨piece, (mem_pieces_iff text piece).2 ⟨front, back, hText, hCuts⟩, hBlank⟩

theorem splitParams_eq_error_iff (text : List Char) (e : SignatureError) :
    splitParams text = .error e ↔
      e = .malformed (String.ofList text) ∧
        (¬Level text ∨ text.all Text.isBlank = false ∧
          ∃ front piece back, text = front ++ piece ++ back ∧ IsPiece Level front piece back ∧
            piece.all Text.isBlank = true) := by
  rw [← any_blank_iff, ← Nesting.isTop_after_iff]
  unfold splitParams
  split
  · rename_i hOpen
    constructor
    · rintro ⟨⟩
      exact ⟨rfl, Or.inl (by simpa using hOpen)⟩
    · rintro ⟨rfl, -⟩
      rfl
  · rename_i hTop
    have hTop : (Nesting.start.after text).isTop = true := by simpa using hTop
    split
    · rename_i hBlank
      simp [hTop, hBlank]
    · rename_i hSolid
      split
      · rename_i hPiece
        constructor
        · rintro ⟨⟩
          exact ⟨rfl, Or.inr ⟨by simpa using hSolid, hPiece⟩⟩
        · rintro ⟨rfl, -⟩
          rfl
      · rename_i hNone
        simp [hTop, hNone]

theorem cutsAt_level (text : List Char) : CutsAt Level text :=
  ⟨splitParams_eq_ok_iff text, splitParams_eq_error_iff text⟩

/-! ## In reach of the counter -/

/-- Each of the texts that are joined stands at the front or behind a comma with level text in front
of it, if all of them are level. -/
theorem exists_front_of_mem {texts : List (List Char)} (hLevel : ∀ text ∈ texts, Level text)
    {piece : List Char} (hPiece : piece ∈ texts) :
    ∃ front, front ++ piece <+: [','].intercalate texts ∧
      (front = [] ∨ ∃ before, front = before ++ [','] ∧ Level before) := by
  induction texts with
  | nil => cases hPiece
  | cons text rest ih =>
      rw [List.forall_mem_cons] at hLevel
      cases rest with
      | nil =>
          obtain rfl := List.mem_singleton.1 hPiece
          exact ⟨[], by simp, Or.inl rfl⟩
      | cons next more =>
          rw [List.intercalate_cons_cons, List.append_assoc, List.singleton_append]
          rcases List.mem_cons.1 hPiece with rfl | hRest
          · exact ⟨[], List.prefix_append _ _, Or.inl rfl⟩
          · obtain ⟨front, hPrefix, hOpens⟩ := ih hLevel.2 hRest
            refine ⟨text ++ ',' :: front, by simpa using hPrefix, Or.inr ?_⟩
            rcases hOpens with rfl | ⟨before, rfl, hBefore⟩
            · exact ⟨text, rfl, hLevel.1⟩
            · exact ⟨text ++ ',' :: before, by simp, (hLevel.1.behind_comma_iff before).2 hBefore⟩

theorem DepthFits.balanced_iff_of_mem {texts : List (List Char)}
    (hFits : DepthFits ([','].intercalate texts)) (hLevel : ∀ text ∈ texts, Level text)
    {piece part : List Char} (hPiece : piece ∈ texts) (hPart : part <+: piece) :
    Balanced part ↔ Level part := by
  obtain ⟨front, hPrefix, hOpens⟩ := exists_front_of_mem hLevel hPiece
  have hBoth : front ++ part <+: [','].intercalate texts :=
    ((List.prefix_append_right_inj front).2 hPart).trans hPrefix
  rcases hOpens with rfl | ⟨before, rfl, hBefore⟩
  · exact hFits.balanced_iff hBoth
  · -- In front of the comma the text is balanced as well, so both kinds start anew behind it.
    rw [List.append_assoc, List.singleton_append] at hBoth
    have hFront : Balanced before :=
      (hFits.balanced_iff ((List.prefix_append _ _).trans hBoth)).2 hBefore
    rw [← hFront.behind_comma_iff part, ← hBefore.behind_comma_iff part]
    exact hFits.balanced_iff hBoth

theorem DepthFits.forall_isEntry_iff {texts : List (List Char)}
    (hFits : DepthFits ([','].intercalate texts)) :
    (∀ piece ∈ texts, IsEntry Level piece) ↔ ∀ piece ∈ texts, IsEntry Balanced piece := by
  constructor
  · intro h piece hPiece
    exact (h piece hPiece).congr fun part hPart =>
      (hFits.balanced_iff_of_mem (fun text hText => (h text hText).top) hPiece hPart).symm
  · intro h piece hPiece
    exact (h piece hPiece).congr fun part hPart =>
      hFits.balanced_iff_of_mem (fun text hText => (h text hText).top.level) hPiece hPart

theorem DepthFits.isPiece_iff {front piece back : List Char}
    (hFits : DepthFits (front ++ piece ++ back)) :
    IsPiece Level front piece back ↔ IsPiece Balanced front piece back := by
  have hSame (part : List Char) (hPart : part <+: front ++ piece) : Balanced part ↔ Level part :=
    hFits.balanced_iff (hPart.trans (List.prefix_append _ back))
  exact ⟨IsPiece.congr fun part hPart => (hSame part hPart).symm, IsPiece.congr hSame⟩

theorem CutsAt.balanced {text : List Char} (h : CutsAt Level text) (hFits : DepthFits text) :
    CutsAt Balanced text where
  ok_iff texts := by
    rw [h.ok_iff]
    refine or_congr Iff.rfl (and_congr Iff.rfl (and_congr_right fun hText => ?_))
    rw [← hText] at hFits
    exact hFits.forall_isEntry_iff
  error_iff e := by
    rw [h.error_iff, ← hFits.balanced_iff List.prefix_rfl]
    refine and_congr Iff.rfl (or_congr Iff.rfl (and_congr Iff.rfl ?_))
    refine exists_congr fun front => exists_congr fun piece => exists_congr fun back => ?_
    refine and_congr_right fun hText => ?_
    rw [hText] at hFits
    rw [hFits.isPiece_iff]

/-- A parameter list is cut at the commas with level text in front of them, and where the depth
stays in reach of the counter these are those with balanced text in front of them. -/
theorem parameter_list_cut (text : List Char) :
    CutsAt Level text ∧ (DepthFits text → CutsAt Balanced text) :=
  ⟨cutsAt_level text, (cutsAt_level text).balanced⟩

theorem parameter_list_cut_sheltered :
    DepthFits "x->TEXT = \"a,b\", y->LIST(ANY)".toList ∧
      CutsAt Balanced "x->TEXT = \"a,b\", y->LIST(ANY)".toList := by
  have hFits : DepthFits "x->TEXT = \"a,b\", y->LIST(ANY)".toList :=
    depthFits_of_length (by decide)
  exact ⟨hFits, (parameter_list_cut _).2 hFits⟩

/-- The first comma stands at depth minus one and the last one in quotes. -/
example : splitParams [')', ',', '\x7b', ',', '"', ',', '"'] =
    .ok [[')', ',', '\x7b'], ['"', ',', '"']] := rfl

/-! ### Out of reach -/

/-- Open brackets, so many of them, and a second piece behind a comma. -/
def deepText (depth : Nat) : List Char := List.replicate depth '(' ++ [',', 'b']

theorem countOutside_replicate (kind : Char → Bool) (count : Nat) :
    countOutside kind (List.replicate count '(') = if kind '(' then count else 0 := by
  induction count with
  | zero => simp [countOutside]
  | succ count ih =>
      rw [List.replicate_succ', countOutside_concat, ih, List.count_replicate]
      split <;> simp_all

theorem splitParams_deepText {depth : Nat} (hSome : depth ≠ 0) (hDepth : depth % 2 ^ 32 = 0) :
    splitParams (deepText depth) = .ok [List.replicate depth '(', ['b']] := by
  have hSolid : Text.isBlank '(' = false := by decide
  have hBrackets : IsEntry Level (List.replicate depth '(') := by
    refine ⟨?_, ⟨?_, ?_⟩, ?_⟩
    · simp [hSome, hSolid]
    · simp [List.count_replicate]
    · rw [countOutside_replicate, countOutside_replicate]
      exact hDepth
    · intro front back hText
      have hComma : ',' ∈ List.replicate depth '(' := by
        rw [hText]
        simp
      exact absurd (List.eq_of_mem_replicate hComma) (by decide)
  have hName : IsEntry Level ['b'] := (isEntry_iff _).2 ⟨rfl, rfl, rfl⟩
  refine ((cutsAt_level _).ok_iff _).2 (Or.inr ⟨?_, ?_, ?_⟩)
  · simp [deepText, hSome, hSolid]
  · simp [deepText]
  · simp [hBrackets, hName]

theorem not_balanced_deepText {depth : Nat} (hSome : depth ≠ 0) : ¬Balanced (deepText depth) := by
  intro h
  have hBrackets := h.brackets
  rw [deepText, countOutside_behind_comma rfl (by simp [List.count_replicate]),
    countOutside_behind_comma rfl (by simp [List.count_replicate]), countOutside_replicate,
    countOutside_replicate] at hBrackets
  exact hSome hBrackets

/-- Behind `2 ^ 32` brackets that are open, a comma is cut at, and the brackets that nothing closes
are no error. -/
theorem parameter_list_cut_deep :
    ¬Balanced (deepText (2 ^ 32)) ∧
      splitParams (deepText (2 ^ 32)) = .ok [List.replicate (2 ^ 32) '(', ['b']] ∧
      ¬CutsAt Balanced (deepText (2 ^ 32)) := by
  have hOpen : ¬Balanced (deepText (2 ^ 32)) := not_balanced_deepText (by decide)
  have hCut : splitParams (deepText (2 ^ 32)) = .ok [List.replicate (2 ^ 32) '(', ['b']] :=
    splitParams_deepText (by decide) (by decide)
  refine ⟨hOpen, hCut, fun hClaim => ?_⟩
  have hRefused := (hClaim.error_iff _).2 ⟨rfl, Or.inl hOpen⟩
  rw [hCut] at hRefused
  cases hRefused

end CellMachine
