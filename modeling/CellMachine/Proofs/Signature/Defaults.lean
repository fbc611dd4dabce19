import CellMachine.Proofs.Signature.Words

/-!
# Defaults that read back

A default is read from a literal and written as a text, not always the one it was read from.  Main
statements: the text has the same quotes, brackets and commas in it (`alike_of_readDefault`), and it
reads back as the default unless that is a list, or a whole number in the form of a fraction for a
parameter that does not want fractions (`readDefault_render_iff`).

Floats are left out: whether one reads back depends on how many digits are written.
-/

namespace CellMachine

open Text

/-! ## Literals -/

namespace Literal

/-- The ways in which a text is read as a literal. -/
inductive Reads (text : List Char) : Cell → Prop
  | boolean (value : Bool) (h : marks text = []) : Reads text (.boolean value)
  | null (h : marks text = []) : Reads text (.null .undetermined)
  | list (h : marks text = ['\x7b', '\x7d']) : Reads text (.list .undetermined [])
  | text (value : String) (h : trim text = '"' :: (value.toList ++ ['"'])) :
      Reads text (.text value)
  | integer (value : Int64) (h : marks text = []) : Reads text (.integer value)
  | rational (value : Rational) (h : marks text = []) : Reads text (.rational value)
  | float (value : Binary64) : Reads text (.float value)

theorem marks_of_integer {text : List Char} {i : Int64} (h : Integer.read? (trim text) = some i) :
    marks text = [] := by
  rw [← marks_trim]
  exact marks_eq_nil fun c hc => Integer.isMark_of_isNumeral (Integer.isNumeral_of_read? h c hc)

theorem reads_of_readNumber? {text : List Char} {cell : Cell}
    (h : readNumber? (trim text) = some cell) : Reads text cell := by
  rw [readNumber?] at h
  split at h
  · rename_i i hInteger
    cases h
    exact .integer i (marks_of_integer hInteger)
  · split at h
    · rename_i num den hCut
      simp only [Option.bind_eq_bind, Option.bind_eq_some_iff] at h
      obtain ⟨n, hNum, d, hDen, q, -, hCell⟩ := h
      cases hCell
      refine .rational q ?_
      rw [← marks_trim, cut?_eq_some hCut, marks_append, marks_of_integer hNum, marks_cons,
        marks_of_integer hDen]
      rfl
    · obtain ⟨x, -, rfl⟩ := Option.map_eq_some_iff.1 h
      exact .float x

theorem reads_of_read? {text : List Char} {cell : Cell} (h : read? text = some cell) :
    Reads text cell := by
  have hWord {word : String} (hText : trim text = word.toList) :
      marks text = marks word.toList := by
    rw [← marks_trim, hText]
  rw [read?] at h
  split at h
  · rename_i hText
    cases h
    exact .boolean true (hWord hText)
  split at h
  · rename_i hText
    cases h
    exact .boolean false (hWord hText)
  split at h
  · rename_i hText
    cases h
    exact .null (hWord hText)
  split at h
  · rename_i hText
    cases h
    exact .list (hWord hText)
  split at h
  · rename_i inner hText
    cases h
    exact .text _ (by simpa [between?_eq_some_iff] using hText)
  · exact reads_of_readNumber? h

/-! ### Reading back -/

theorem read?_boolean (value : Bool) :
    read? (Cell.boolean value).render.toList = some (.boolean value) := by
  cases value <;> rfl

theorem read?_text (value : String) :
    read? (Cell.text value).render.toList = some (.text value) := by
  have hText : (Cell.text value).render.toList = '"' :: (value.toList ++ ['"']) := by
    simp [Cell.render]
  have hBetween : between? ['"'] ['"'] ('"' :: (value.toList ++ ['"'])) = some value.toList :=
    between?_eq_some_iff.2 rfl
  rw [hText, read?, trim_enclosed rfl rfl]
  simp [hBetween]

/-- A text that is read as a number and has no blanks around it is none of the other literals. -/
theorem read?_of_readNumber? {text : List Char} {cell : Cell}
    (hPlain : ∀ c ∈ text, isPlain c = true) (h : readNumber? text = some cell) :
    read? text = some cell := by
  have hTrim : trim text = text := trim_of_solid fun c hc => isBlank_of_isPlain (hPlain c hc)
  have hWord (word : List Char) (hNone : readNumber? word = none) : text ≠ word := by
    rintro rfl
    rw [h] at hNone
    cases hNone
  have hQuote : between? ['"'] ['"'] text = none := by
    refine Option.eq_none_iff_forall_ne_some.2 fun inner hInner => ?_
    rw [between?_eq_some_iff] at hInner
    exact absurd (hPlain '"' (by simp [hInner])) (by decide)
  rw [read?, hTrim]
  rw [if_neg (hWord _ (by decide +kernel)), if_neg (hWord _ (by decide +kernel)),
    if_neg (hWord _ (by decide +kernel)), if_neg (hWord _ (by decide +kernel)), hQuote]
  exact h

theorem read?_integer (i : Int64) : read? (Integer.render i).toList = some (.integer i) := by
  refine read?_of_readNumber? (Integer.isPlain_render i) ?_
  rw [readNumber?, Integer.read?_render]

end Literal

theorem Rational.isPlain_render (q : Rational) : ∀ c ∈ q.render.toList, isPlain c = true := by
  have hNum := Integer.isPlain_render q.num
  have hDen := Integer.isPlain_render q.den
  unfold render
  split
  · exact hNum
  · have hSlash : ∀ c ∈ "/".toList, isPlain c = true := List.all_eq_true.1 (by decide)
    simp only [String.toList_append, List.forall_mem_append]
    exact ⟨⟨hNum, hSlash⟩, hDen⟩

theorem Rational.render_ne_nil (q : Rational) : q.render.toList ≠ [] := by
  have hNum := Integer.render_ne_nil q.num
  unfold render
  split
  · exact hNum
  · simp [hNum]

theorem Rational.exists_ofInteger {q : Rational} (h : q.isInteger = true) :
    ∃ i, q = .ofInteger i := by
  have hDen : q.den = 1 := Int64.toInt_inj.1 (by simpa [isInteger] using h)
  obtain ⟨num, den, hPos, hCoprime⟩ := q
  subst hDen
  exact ⟨num, rfl⟩

/-! ## Defaults -/

namespace Param

variable {p : Param} {text : List Char} {cell : Cell}

theorem readDefault_eq_ok_iff :
    p.readDefault text = .ok cell ↔
      ∃ literal, Literal.read? text = some literal ∧ p.fit literal = cell ∧
        p.admits cell = true := by
  unfold readDefault
  split
  · rename_i hNone
    simp [hNone]
  · rename_i literal hLiteral
    simp only [hLiteral, Option.some.injEq, exists_eq_left']
    split
    · rename_i hAdmits
      grind
    · rename_i hAdmits
      grind

theorem fit_nil (p : Param) : ∃ element, p.fit (.list .undetermined []) = .list element [] := by
  cases hType : p.type <;> simp [fit, hType, CellList.adopt, CellList.toCell]

/-- An integer becomes a float, or a fraction, or stays, as the parameter wants. -/
theorem fit_integer (p : Param) (i : Int64) :
    (p.type = .float ∧ p.fit (.integer i) = .float (.ofInteger i)) ∨
      (p.type = .rational ∧ p.fit (.integer i) = .rational (.ofInteger i)) ∨
      (p.type ≠ .rational ∧ p.fit (.integer i) = .integer i) := by
  cases hType : p.type <;> simp [fit, hType]

end Param

/-- A text that is written for what was read from another one has the same marks, and is a line
without blanks around it. -/
structure Alike (text written : List Char) : Prop where
  marks_eq : marks written = marks text
  first : ∀ c ∈ written.head?, isBlank c = false
  last : ∀ c ∈ written.getLast?, isBlank c = false
  nonempty : written ≠ []
  line : '\n' ∉ written

theorem alike_of_plain {text written : List Char} (hMarks : marks text = [])
    (hPlain : ∀ c ∈ written, isPlain c = true) (hSome : written ≠ []) : Alike text written where
  marks_eq := by rw [hMarks, marks_of_plain hPlain]
  first := fun c hc => isBlank_of_isPlain (hPlain c (List.mem_of_mem_head? hc))
  last := fun c hc => isBlank_of_isPlain (hPlain c (List.mem_of_mem_getLast? hc))
  nonempty := hSome
  line := fun hMem => absurd (hPlain _ hMem) (by decide)

namespace Param

variable {p : Param} {text : List Char} {cell : Cell}

/-- What is written for a default is like the text it was read from. -/
theorem alike_of_readDefault (h : p.readDefault text = .ok cell) (hLine : '\n' ∉ text)
    (hFloat : ∀ x, cell ≠ .float x) : Alike text cell.render.toList := by
  obtain ⟨literal, hRead, hFit, -⟩ := readDefault_eq_ok_iff.1 h
  cases Literal.reads_of_read? hRead with
  | boolean value hMarks =>
      obtain rfl : Cell.boolean value = cell := hFit
      cases value
      · exact alike_of_plain hMarks (List.all_eq_true.1 (by decide)) (by decide)
      · exact alike_of_plain hMarks (List.all_eq_true.1 (by decide)) (by decide)
  | null hMarks =>
      obtain rfl : Cell.null p.type = cell := hFit
      have hText : (Cell.null p.type).render.toList = "Null".toList := rfl
      rw [hText]
      exact alike_of_plain hMarks (List.all_eq_true.1 (by decide)) (by decide)
  | list hMarks =>
      obtain ⟨element, hNil⟩ := p.fit_nil
      obtain rfl : Cell.list element [] = cell := hNil.symm.trans hFit
      have hText : (Cell.list element []).render.toList = "\x7b \x7d".toList := rfl
      rw [hText]
      refine ⟨hMarks.symm, fun c hc => ?_, fun c hc => ?_, by decide, by decide⟩
      · obtain rfl : '\x7b' = c := Option.some.inj hc
        rfl
      · obtain rfl : '\x7d' = c := Option.some.inj hc
        rfl
  | text value hText =>
      obtain rfl : Cell.text value = cell := hFit
      have hWritten : (Cell.text value).render.toList = trim text := by simp [Cell.render, hText]
      have hLast : (trim text).getLast? = some '"' := by
        rw [hText, ← List.cons_append, List.getLast?_concat]
      rw [hWritten]
      refine ⟨marks_trim text, ?_, ?_, by simp [hText], fun hMem => hLine (mem_of_mem_trim hMem)⟩
      · simp only [hText, List.head?_cons, Option.mem_some_iff, forall_eq']
        rfl
      · simp only [hLast, Option.mem_some_iff, forall_eq']
        rfl
  | integer i hMarks =>
      rcases p.fit_integer i with ⟨-, hKind⟩ | ⟨-, hKind⟩ | ⟨-, hKind⟩
      · exact absurd (hFit.symm.trans hKind) (hFloat _)
      · obtain rfl := hKind.symm.trans hFit
        exact alike_of_plain hMarks (Rational.isPlain_render _) (Rational.render_ne_nil _)
      · obtain rfl := hKind.symm.trans hFit
        exact alike_of_plain hMarks (Integer.isPlain_render i) (Integer.render_ne_nil i)
  | rational q hMarks =>
      obtain rfl : Cell.rational q = cell := hFit
      exact alike_of_plain hMarks q.isPlain_render q.render_ne_nil
  | float x => exact absurd hFit.symm (hFloat x)

theorem readDefault_render {other : Cell} (hAdmits : p.admits cell = true)
    (hOther : Literal.read? cell.render.toList = some other) :
    p.readDefault cell.render.toList = .ok cell ↔ p.fit other = cell := by
  simp [readDefault_eq_ok_iff, hOther, hAdmits]

/-- The defaults that read back. -/
theorem readDefault_render_iff (h : p.readDefault text = .ok cell)
    (hFloat : ∀ x, cell ≠ .float x) :
    p.readDefault cell.render.toList = .ok cell ↔
      (∀ element items, cell ≠ .list element items) ∧
        ∀ q, cell = .rational q → q.isInteger = true → p.type = .rational := by
  obtain ⟨literal, hRead, hFit, hAdmits⟩ := readDefault_eq_ok_iff.1 h
  cases Literal.reads_of_read? hRead with
  | boolean value =>
      obtain rfl : Cell.boolean value = cell := hFit
      rw [readDefault_render hAdmits (Literal.read?_boolean value)]
      simp [fit]
  | null =>
      obtain rfl : Cell.null p.type = cell := hFit
      have hText : (Cell.null p.type).render.toList = "Null".toList := rfl
      have hNull : Literal.read? "Null".toList = some (.null .undetermined) := rfl
      rw [readDefault_render hAdmits (hText ▸ hNull)]
      simp [fit]
  | list =>
      obtain ⟨element, hNil⟩ := p.fit_nil
      obtain rfl : Cell.list element [] = cell := hNil.symm.trans hFit
      -- The blank between the braces makes the text no literal at all.
      have hText : (Cell.list element []).render.toList = ['\x7b', ' ', '\x7d'] := by
        simp [Cell.render]
      have hNone : Literal.read? ['\x7b', ' ', '\x7d'] = none := by decide +kernel
      simp [readDefault_eq_ok_iff, hText, hNone]
  | text value =>
      obtain rfl : Cell.text value = cell := hFit
      rw [readDefault_render hAdmits (Literal.read?_text value)]
      simp [fit]
  | integer i =>
      rcases p.fit_integer i with ⟨-, hKind⟩ | ⟨hType, hKind⟩ | ⟨-, hKind⟩
      · exact absurd (hFit.symm.trans hKind) (hFloat _)
      · obtain rfl := hKind.symm.trans hFit
        rw [readDefault_render hAdmits (Literal.read?_integer i)]
        simp [hKind, hType]
      · obtain rfl := hKind.symm.trans hFit
        rw [readDefault_render hAdmits (Literal.read?_integer i)]
        simp [hKind]
  | rational q =>
      obtain rfl : Cell.rational q = cell := hFit
      cases hWhole : q.isInteger with
      | false =>
          have hBack : Literal.read? (Cell.rational q).render.toList = some (.rational q) :=
            Literal.read?_of_readNumber? q.isPlain_render (Literal.readNumber?_render hWhole)
          rw [readDefault_render hAdmits hBack]
          simp [fit, hWhole]
      | true =>
          -- What is written is an integer, which is made a fraction again only if one is wanted.
          obtain ⟨i, rfl⟩ := Rational.exists_ofInteger hWhole
          rw [readDefault_render hAdmits (Literal.read?_integer i)]
          rcases p.fit_integer i with ⟨hType, hKind⟩ | ⟨hType, hKind⟩ | ⟨hType, hKind⟩
          · simp [hKind, hType, hWhole]
          · simp [hKind, hType]
          · simp [hKind, hType, hWhole]
  | float x => exact absurd hFit.symm (hFloat x)

end Param
end CellMachine
