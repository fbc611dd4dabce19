import CellMachine.Proofs.Signature.Splitting
import Mathlib.Data.List.DropRight

/-!
# The words of a signature

Names, type names and numbers are words without blanks, and what is written for a type or a number
reads back as that type or number.  Main statements: a type is written as the word it was read from
(`CellType.render_of_read`), and integers and fractions read back
(`Integer.read?_render`, `Literal.readNumber?_render`).

A word that is read as a number is NOT the word that is written for it: it may have a plus sign,
leading zeros, or a fraction that is not in lowest terms.
-/

namespace CellMachine

/-! ## Blanks -/

namespace Text

theorem isBlank_eq_false {c : Char} (hLow : 0x21 ≤ c.toNat) (hHigh : c.toNat ≤ 0x7E) :
    isBlank c = false := by
  simp only [isBlank, Bool.or_eq_false_iff, Bool.and_eq_false_iff, decide_eq_false_iff_not,
    beq_eq_false_iff_ne]
  omega

theorem isMark_of_isBlank {c : Char} (h : isBlank c = true) : isMark c = false := by
  cases hMark : isMark c with
  | false => rfl
  | true =>
      simp only [isMark, Bool.or_eq_true, beq_iff_eq, or_assoc] at hMark
      rcases hMark with rfl | rfl | rfl | rfl | rfl | rfl <;> cases h

theorem marks_trimStart (text : List Char) : marks (trimStart text) = marks text := by
  induction text with
  | nil => rfl
  | cons c rest ih =>
      cases hBlank : isBlank c with
      | true =>
          rw [trimStart, List.dropWhile_cons_of_pos hBlank, marks_cons, isMark_of_isBlank hBlank]
          exact ih
      | false => rw [trimStart, List.dropWhile_cons_of_neg (by simp [hBlank])]

theorem marks_trim (text : List Char) : marks (trim text) = marks text := by
  have hReverse (text : List Char) : marks text.reverse = (marks text).reverse :=
    List.filter_reverse ..
  rw [trim, trimEnd, hReverse]
  change (marks (trimStart (trimStart text).reverse)).reverse = _
  rw [marks_trimStart, hReverse, marks_trimStart, List.reverse_reverse]

theorem mem_of_mem_trim {c : Char} {text : List Char} (h : c ∈ trim text) : c ∈ text := by
  rw [trim, trimEnd, List.mem_reverse] at h
  have hInner := List.mem_reverse.1 ((List.dropWhile_sublist _).subset h)
  exact (List.dropWhile_sublist _).subset hInner

theorem trimStart_eq_self {text : List Char} (h : ∀ c ∈ text.head?, isBlank c = false) :
    trimStart text = text := by
  cases text with
  | nil => rfl
  | cons c rest => exact List.dropWhile_cons_of_neg (by simp [h c rfl])

/-- A text with no blank at its ends. -/
theorem trim_eq_self {text : List Char} (hFirst : ∀ c ∈ text.head?, isBlank c = false)
    (hLast : ∀ c ∈ text.getLast?, isBlank c = false) : trim text = text := by
  rw [trim, trimStart_eq_self hFirst]
  change (trimStart text.reverse).reverse = text
  rw [trimStart_eq_self (by simpa using hLast), List.reverse_reverse]

theorem trim_of_solid {text : List Char} (h : ∀ c ∈ text, isBlank c = false) : trim text = text :=
  trim_eq_self (fun c hc => h c (List.mem_of_mem_head? hc))
    fun c hc => h c (List.mem_of_mem_getLast? hc)

theorem trim_enclosed {first last : Char} (hFirst : isBlank first = false)
    (hLast : isBlank last = false) (inner : List Char) :
    trim (first :: (inner ++ [last])) = first :: (inner ++ [last]) := by
  refine trim_eq_self (by simpa using hFirst) ?_
  rw [← List.cons_append, List.getLast?_concat]
  simpa using hLast

theorem between?_eq_some_iff {opening closing text inner : List Char} :
    between? opening closing text = some inner ↔ text = opening ++ (inner ++ closing) := by
  unfold between?
  constructor
  · intro h
    split at h
    · rename_i hOpening
      obtain ⟨rest, rfl⟩ := List.isPrefixOf_iff_prefix.1 hOpening
      simp only [List.drop_left] at h
      split at h
      · rename_i hClosing
        obtain ⟨front, rfl⟩ := List.isSuffixOf_iff_suffix.1 hClosing
        simpa using h
      · cases h
    · cases h
  · rintro rfl
    simp

/-- Characters that are neither blank nor matter for cutting: digits, letters, the underscore,
minus, slash and what lies between these. -/
def isPlain (c : Char) : Bool := 0x2D ≤ c.toNat && c.toNat ≤ 0x7A

theorem isPlain_iff {c : Char} : isPlain c = true ↔ 0x2D ≤ c.toNat ∧ c.toNat ≤ 0x7A := by
  simp [isPlain]

theorem isBlank_of_isPlain {c : Char} (h : isPlain c = true) : isBlank c = false := by
  rw [isPlain_iff] at h
  exact isBlank_eq_false (by omega) (by omega)

theorem isMark_of_isPlain {c : Char} (h : isPlain c = true) : isMark c = false := by
  cases hMark : isMark c with
  | false => rfl
  | true =>
      simp only [isMark, Bool.or_eq_true, beq_iff_eq, or_assoc] at hMark
      rcases hMark with rfl | rfl | rfl | rfl | rfl | rfl <;> cases h

theorem marks_of_plain {text : List Char} (h : ∀ c ∈ text, isPlain c = true) : marks text = [] :=
  marks_eq_nil fun c hc => isMark_of_isPlain (h c hc)

end Text

open Text

/-! ## Names -/

theorem isUpper_iff {c : Char} : c.isUpper = true ↔ 0x41 ≤ c.toNat ∧ c.toNat ≤ 0x5A := by
  have hUpper : c.isUpper = decide (0x41 ≤ c.toNat ∧ c.toNat ≤ 0x5A) := rfl
  rw [hUpper, decide_eq_true_eq]

theorem isLower_iff {c : Char} : c.isLower = true ↔ 0x61 ≤ c.toNat ∧ c.toNat ≤ 0x7A := by
  have hLower : c.isLower = (decide (0x61 ≤ c.toNat) && decide (c.toNat ≤ 0x7A)) := rfl
  rw [hLower, Bool.and_eq_true, decide_eq_true_eq, decide_eq_true_eq]

theorem isAlpha_iff {c : Char} : c.isAlpha = true ↔ c.isUpper = true ∨ c.isLower = true :=
  Bool.or_eq_true_iff

theorem isPlain_of_isDigit {c : Char} (h : c.isDigit = true) : isPlain c = true := by
  have hRange := Char.isDigit_iff_toNat.1 h
  simp only [Char.reduceToNat] at hRange
  exact isPlain_iff.2 ⟨by omega, by omega⟩

theorem isPlain_of_isNameChar {c : Char} (h : isNameChar c = true) : isPlain c = true := by
  simp only [isNameChar, isNameStart, Bool.or_eq_true, beq_iff_eq, isAlpha_iff, isUpper_iff,
    isLower_iff] at h
  rcases h with ((hUpper | hLower) | rfl) | hDigit
  · exact isPlain_iff.2 ⟨by omega, by omega⟩
  · exact isPlain_iff.2 ⟨by omega, by omega⟩
  · rfl
  · exact isPlain_of_isDigit hDigit

/-- A text of one or more characters, the first of which begins a name. -/
def IsName (isMore : Char → Bool) (text : List Char) : Prop :=
  ∃ c rest, text = c :: rest ∧ isNameStart c = true ∧ ∀ d ∈ rest, isMore d = true

theorem IsName.solid {isMore : Char → Bool} {name : List Char} (h : IsName isMore name)
    (hMore : ∀ c, isMore c = true → isBlank c = false) : ∀ c ∈ name, isBlank c = false := by
  obtain ⟨c, rest, rfl, hStart, hRest⟩ := h
  refine List.forall_mem_cons.2 ⟨?_, fun d hd => hMore d (hRest d hd)⟩
  exact isBlank_of_isPlain (isPlain_of_isNameChar (by simp [isNameChar, hStart]))

theorem IsName.trimStart_append {isMore : Char → Bool} {name : List Char} (h : IsName isMore name)
    (rest : List Char) : trimStart (name ++ rest) = name ++ rest := by
  obtain ⟨c, more, rfl, hStart, -⟩ := h
  have hBlank : isBlank c = false :=
    isBlank_of_isPlain (isPlain_of_isNameChar (by simp [isNameChar, hStart]))
  exact trimStart_eq_self (by simpa using hBlank)

theorem readName?_eq_some {isMore : Char → Bool} {text name rest : List Char}
    (h : readName? isMore text = some (name, rest)) : IsName isMore name ∧ text = name ++ rest := by
  cases text with
  | nil => cases h
  | cons c more =>
      rw [readName?] at h
      split at h
      · rename_i hStart
        cases h
        refine ⟨⟨c, _, rfl, hStart, fun d hd => ?_⟩, by simp⟩
        exact List.mem_takeWhile_imp hd
      · cases h

theorem readName?_append {isMore : Char → Bool} {name rest : List Char} (h : IsName isMore name)
    (hRest : ∀ c ∈ rest.head?, isMore c = false) :
    readName? isMore (name ++ rest) = some (name, rest) := by
  obtain ⟨c, more, rfl, hStart, hMore⟩ := h
  have hTake : rest.takeWhile isMore = [] ∧ rest.dropWhile isMore = rest := by
    cases rest with
    | nil => exact ⟨rfl, rfl⟩
    | cons d others => simp [hRest d rfl]
  rw [List.cons_append, readName?, if_pos hStart, List.takeWhile_append_of_pos hMore,
    List.dropWhile_append_of_pos hMore, hTake.1, hTake.2, List.append_nil]

/-! ## Types -/

/-- The characters of a written type. -/
def isTypeChar (c : Char) : Bool := isNameChar c || c == '(' || c == ')'

theorem isBlank_of_isTypeChar {c : Char} (h : isTypeChar c = true) : isBlank c = false := by
  simp only [isTypeChar, Bool.or_eq_true, beq_iff_eq] at h
  rcases h with (h | rfl) | rfl
  · exact isBlank_of_isPlain (isPlain_of_isNameChar h)
  · rfl
  · rfl

theorem isNameChar_of_isHandleName {text : List Char} (h : isHandleName text = true) :
    ∀ c ∈ text, isNameChar c = true := by
  have hUpper {c : Char} (h : c.isUpper = true) : isNameChar c = true := by
    simp [isNameChar, isNameStart, isAlpha_iff.2 (Or.inl h)]
  cases text with
  | nil => simp
  | cons c rest =>
      rw [isHandleName, Bool.and_eq_true, List.all_eq_true] at h
      refine List.forall_mem_cons.2 ⟨hUpper h.1, fun d hd => ?_⟩
      have hMore := h.2 d hd
      simp only [Bool.or_eq_true, beq_iff_eq] at hMore
      rcases hMore with (hLetter | hDigit) | rfl
      · exact hUpper hLetter
      · simp [isNameChar, hDigit]
      · rfl

/-- A name that is read is what is written for the type. -/
theorem CellType.render_of_ofName? {text : List Char} {t : CellType} (h : ofName? text = some t) :
    t.render.toList = text ∧ ∀ c ∈ text, isTypeChar c = true := by
  have hWord (word : String) (hName : String.ofList text = word)
      (hWritten : word.toList.all isTypeChar = true) :
      word.toList = text ∧ ∀ c ∈ text, isTypeChar c = true := by
    have hText : word.toList = text := by rw [← hName, String.toList_ofList]
    exact ⟨hText, hText ▸ List.all_eq_true.1 hWritten⟩
  unfold ofName? at h
  dsimp only at h
  split at h
  all_goals first
    | (rename_i hName; cases h; exact hWord _ hName (by decide))
    | skip
  split at h
  · rename_i hHandle
    cases h
    refine ⟨String.toList_ofList, fun c hc => ?_⟩
    simp [isTypeChar, isNameChar_of_isHandleName hHandle c hc]
  · cases h

/-- A type is written as the word that it was read from. -/
theorem CellType.render_of_read {text : List Char} {t : CellType} (h : CellType.read text = .ok t)
    (hSolid : ∀ c ∈ text, isBlank c = false) :
    t.render.toList = text ∧ ∀ c ∈ text, isTypeChar c = true := by
  have hTrim := trim_of_solid hSolid
  rw [CellType.read] at h
  split at h
  · rename_i inner hInner
    -- The recursion is on the text, as in reading: what is in the brackets is shorter.
    have hLength := length_of_elementText? hInner
    rw [elementText?, hTrim, between?_eq_some_iff] at hInner
    cases hElement : CellType.read inner with
    | error e => rw [hElement] at h; cases h
    | ok element =>
        rw [hElement] at h
        cases h
        subst hInner
        obtain ⟨hText, hChars⟩ := render_of_read hElement fun c hc => hSolid c (by simp [hc])
        constructor
        · rw [CellType.render, String.toList_append, String.toList_append, hText]
          simp
        · have hOpening : ∀ c ∈ "LIST(".toList, isTypeChar c = true :=
            List.all_eq_true.1 (by decide)
          have hClosing : ∀ c ∈ [')'], isTypeChar c = true := List.all_eq_true.1 (by decide)
          simp only [List.forall_mem_append]
          exact ⟨hOpening, hChars, hClosing⟩
  · rw [hTrim] at h
    split at h
    · rename_i hName
      cases h
      exact render_of_ofName? hName
    · cases h
termination_by text.length

/-! ## Numbers -/

namespace Integer

theorem digits?_go_of_isDigit {text : List Char} (h : ∀ c ∈ text, c.isDigit = true) (acc : Nat) :
    digits?.go acc text = some (Nat.ofDigitChars 10 text acc) := by
  induction text generalizing acc with
  | nil => simp [digits?.go]
  | cons c rest ih =>
      rw [List.forall_mem_cons] at h
      rw [digits?.go, if_pos h.1, ih h.2, Nat.ofDigitChars_cons, Nat.mul_comm]
      rfl

theorem isDigit_of_digits?_go {text : List Char} {acc n : Nat} (h : digits?.go acc text = some n) :
    ∀ c ∈ text, c.isDigit = true := by
  induction text generalizing acc with
  | nil => simp
  | cons c rest ih =>
      rw [digits?.go] at h
      split at h
      · rename_i hDigit
        exact List.forall_mem_cons.2 ⟨hDigit, ih h⟩
      · cases h

theorem natural?_toDigits (n : Nat) : natural? (Nat.toDigits 10 n) = some n := by
  have hDigits : ∀ c ∈ Nat.toDigits 10 n, c.isDigit = true := fun c hc =>
    Nat.isDigit_of_mem_toDigits (by decide) (by decide) hc
  have hValue := digits?_go_of_isDigit hDigits 0
  rw [Nat.ofDigitChars_ten_toDigits] at hValue
  cases hText : Nat.toDigits 10 n with
  | nil => exact absurd hText Nat.toDigits_ne_nil
  | cons c rest =>
      rw [hText] at hValue
      exact hValue

/-- The characters of a word that is read as an integer. -/
def isNumeral (c : Char) : Bool := c.isDigit || c == '-' || c == '+'

theorem isNumeral_of_read? {text : List Char} {i : Int64} (h : read? text = some i) :
    ∀ c ∈ text, isNumeral c = true := by
  have hNatural {text : List Char} {next : Nat → Option Int64}
      (h : (natural? text).bind next = some i) : ∀ c ∈ text, isNumeral c = true := by
    obtain ⟨n, hn, -⟩ := Option.bind_eq_some_iff.1 h
    intro c hc
    have hDigit : c.isDigit = true := by
      cases text with
      | nil => cases hc
      | cons first rest => exact isDigit_of_digits?_go hn c hc
    simp [isNumeral, hDigit]
  unfold read? at h
  split at h
  · exact List.forall_mem_cons.2 ⟨rfl, hNatural h⟩
  · exact List.forall_mem_cons.2 ⟨rfl, hNatural h⟩
  · exact hNatural h

theorem isMark_of_isNumeral {c : Char} (h : isNumeral c = true) : isMark c = false := by
  simp only [isNumeral, Bool.or_eq_true, beq_iff_eq] at h
  rcases h with (hDigit | rfl) | rfl
  · exact isMark_of_isPlain (isPlain_of_isDigit hDigit)
  · rfl
  · rfl

theorem renderInt_toList (z : Int) :
    (renderInt z).toList =
      if 0 ≤ z then Nat.toDigits 10 z.natAbs else '-' :: Nat.toDigits 10 z.natAbs := by
  cases z with
  | ofNat n => simp [renderInt, renderNat]
  | negSucc n => simp [renderInt, renderNat, Int.natAbs_negSucc]

theorem isPlain_render (i : Int64) : ∀ c ∈ (render i).toList, isPlain c = true := by
  have hDigits : ∀ c ∈ Nat.toDigits 10 i.toInt.natAbs, isPlain c = true := fun c hc =>
    isPlain_of_isDigit (Nat.isDigit_of_mem_toDigits (by decide) (by decide) hc)
  rw [render, renderInt_toList]
  split
  · exact hDigits
  · exact List.forall_mem_cons.2 ⟨rfl, hDigits⟩

theorem render_ne_nil (i : Int64) : (render i).toList ≠ [] := by
  rw [render, renderInt_toList]
  split
  · exact Nat.toDigits_ne_nil
  · simp

/-- What is written for an integer reads back as that integer. -/
theorem read?_render (i : Int64) : read? (render i).toList = some i := by
  rw [render, renderInt_toList]
  split
  · rename_i hSign
    have hFirst : ∀ c ∈ (Nat.toDigits 10 i.toInt.natAbs).head?, c.isDigit = true := fun c hc =>
      Nat.isDigit_of_mem_toDigits (by decide) (by decide) (List.mem_of_mem_head? hc)
    unfold read?
    -- A digit is neither of the signs.
    split
    · rename_i hText
      rw [hText] at hFirst
      exact absurd (hFirst _ rfl) (by decide)
    · rename_i hText
      rw [hText] at hFirst
      exact absurd (hFirst _ rfl) (by decide)
    · rw [natural?_toDigits, Option.bind_some, Int.natAbs_of_nonneg hSign, narrow?_toInt]
  · rename_i hSign
    rw [read?, natural?_toDigits, Option.bind_some]
    exact narrow?_eq_some_iff.2 (by omega)

end Integer

namespace Literal

theorem cut?_append {mark : Char} {front : List Char} (h : mark ∉ front) (back : List Char) :
    cut? mark (front ++ mark :: back) = some (front, back) := by
  induction front with
  | nil => simp [cut?]
  | cons c rest ih =>
      rw [List.mem_cons, not_or] at h
      rw [List.cons_append, cut?, if_neg (Ne.symm h.1), ih h.2]
      rfl

theorem cut?_eq_some {mark : Char} {text front back : List Char}
    (h : cut? mark text = some (front, back)) : text = front ++ mark :: back := by
  induction text generalizing front with
  | nil => cases h
  | cons c rest ih =>
      rw [cut?] at h
      split at h
      · rename_i hMark
        cases h
        rw [hMark, List.nil_append]
      · obtain ⟨⟨inner, other⟩, hCut, hEq⟩ := Option.map_eq_some_iff.1 h
        cases hEq
        rw [ih hCut, List.cons_append]

/-- What is written for a number that is no whole one reads back as that number. -/
theorem readNumber?_render {q : Rational} (h : q.isInteger = false) :
    readNumber? q.render.toList = some (.rational q) := by
  have hText : q.render.toList = (Integer.render q.num).toList ++ '/' ::
      (Integer.render q.den).toList := by
    simp [Rational.render, h]
  have hSlash : '/' ∉ (Integer.render q.num).toList := fun hMem =>
    absurd (Integer.isNumeral_of_read? (Integer.read?_render q.num) _ hMem) (by decide)
  have hWhole : Integer.read? q.render.toList = none := by
    refine Option.eq_none_iff_forall_ne_some.2 fun i hRead => ?_
    exact absurd (Integer.isNumeral_of_read? hRead '/' (by simp [hText])) (by decide)
  have hTrim (i : Int64) : trim (Integer.render i).toList = (Integer.render i).toList :=
    trim_of_solid fun c hc => isBlank_of_isPlain (Integer.isPlain_render i c hc)
  rw [readNumber?, hWhole, hText, cut?_append hSlash]
  simp [hTrim, Integer.read?_render, Rational.make?_num_den]

end Literal
end CellMachine
