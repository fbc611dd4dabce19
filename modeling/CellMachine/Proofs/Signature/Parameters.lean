import CellMachine.Proofs.Signature.Defaults

/-!
# Parameters that read back

A parameter is taken apart into a name, an arrow, a type, a star and a default, with blanks between
them, and is written without most of the blanks.  Main statement: what is written for a parameter
that was read from some text has the quotes, brackets and commas of that text
(`Param.legible_of_read`), and reads back exactly if its default does (`Param.read_render_iff`).
-/

namespace CellMachine

open Text

/-! ## Parts of a parameter -/

namespace ParamText

/-- The parts are names, and the default is a line that begins with no blank. -/
structure Proper (t : ParamText) : Prop where
  name : IsName isNameChar t.name
  type : IsName isTypeChar t.type
  default : ∀ text, t.default = some text → text ≠ [] ∧ '\n' ∉ text ∧ trimStart text = text

/-- The arrow between name and type. -/
def arrow (byRef : Bool) : List Char := if byRef then "<->".toList else "->".toList

/-- What is written behind the type. -/
def ending (t : ParamText) : List Char :=
  (if t.nullable then ['*'] else []) ++
    match t.default with
    | some text => " = ".toList ++ text
    | none => []

/-- The parts put together. -/
def write (t : ParamText) : List Char := t.name ++ (arrow t.byRef ++ (t.type ++ t.ending))

theorem readArrow?_arrow (byRef : Bool) (rest : List Char) :
    readArrow? (arrow byRef ++ rest) = some (byRef, rest) := by
  cases byRef <;> rfl

theorem marks_of_readArrow? {text rest : List Char} {byRef : Bool}
    (h : readArrow? text = some (byRef, rest)) : marks text = marks rest := by
  unfold readArrow? at h
  split at h
  · cases h
    rfl
  · cases h
    rfl
  · cases h

theorem readDefault?_cases {text : List Char} {default : Option (List Char)}
    (h : readDefault? text = some default) :
    marks text = default.elim [] marks ∧
      ∀ text, default = some text → text ≠ [] ∧ '\n' ∉ text ∧ trimStart text = text := by
  unfold readDefault? at h
  split at h
  · cases h
    simp
  · rename_i rest
    dsimp only at h
    split at h
    · cases h
    · rename_i hLine
      cases h
      rw [not_or] at hLine
      refine ⟨(marks_trimStart rest).symm, fun text hText => ?_⟩
      cases hText
      exact ⟨hLine.1, hLine.2, List.dropWhile_idempotent _ _⟩
  · cases h

theorem marks_of_isName {name : List Char} (h : IsName isNameChar name) : marks name = [] := by
  obtain ⟨c, rest, rfl, hStart, hRest⟩ := h
  have hFirst : isPlain c = true := isPlain_of_isNameChar (by simp [isNameChar, hStart])
  exact marks_of_plain
    (List.forall_mem_cons.2 ⟨hFirst, fun d hd => isPlain_of_isNameChar (hRest d hd)⟩)

/-- What is read has proper parts, and what matters of it stands in its type and its default. -/
theorem read?_eq_some {text : List Char} {t : ParamText} (h : ParamText.read? text = some t) :
    t.Proper ∧ marks text = marks t.type ++ t.default.elim [] marks := by
  unfold ParamText.read? at h
  simp only [Option.bind_eq_bind, Option.bind_eq_some_iff, Prod.exists] at h
  obtain ⟨name, rest, hName, byRef, rest', hArrow, type, rest'', hType, default, hDefault,
    hText⟩ := h
  obtain ⟨hNameProper, hNameText⟩ := readName?_eq_some hName
  obtain ⟨hTypeProper, hTypeText⟩ := readName?_eq_some hType
  obtain ⟨hMarks, hLine⟩ := readDefault?_cases hDefault
  cases hText
  refine ⟨⟨hNameProper, hTypeProper, hLine⟩, ?_⟩
  -- The star between type and default is no mark.
  have hRest : marks rest'' = default.elim [] marks := by
    rw [← hMarks, ← marks_trimStart rest'']
    split
    · rename_i more hStar
      rw [hStar, marks_trimStart]
      rfl
    · rfl
  calc marks text = marks (trimStart rest) := by
        rw [hNameText, marks_append, marks_of_isName hNameProper, marks_trimStart]
        rfl
    _ = marks (trimStart rest') := by rw [marks_of_readArrow? hArrow, marks_trimStart]
    _ = marks type ++ marks rest'' := by rw [hTypeText, marks_append]
    _ = marks type ++ default.elim [] marks := by rw [hRest]

theorem readDefault?_equals {text : List Char}
    (h : text ≠ [] ∧ '\n' ∉ text ∧ trimStart text = text) :
    readDefault? ('=' :: ' ' :: text) = some (some text) := by
  have hBlank : trimStart (' ' :: text) = text := h.2.2
  simp [readDefault?, hBlank, h.1, h.2.1]

/-- Parts that are put together are read as these parts. -/
theorem read?_write {t : ParamText} (h : t.Proper) : ParamText.read? t.write = some t := by
  have hName : readName? isNameChar t.write =
      some (t.name, arrow t.byRef ++ (t.type ++ t.ending)) := by
    refine readName?_append h.name ?_
    cases t.byRef <;> simp [arrow] <;> decide
  have hArrow : trimStart (arrow t.byRef ++ (t.type ++ t.ending)) =
      arrow t.byRef ++ (t.type ++ t.ending) := by
    cases t.byRef <;> rfl
  have hType : readName? (fun c => isNameChar c || c == '(' || c == ')') (t.type ++ t.ending) =
      some (t.type, t.ending) := by
    refine readName?_append h.type ?_
    cases hNullable : t.nullable <;> cases hDefault : t.default <;>
      simp [ending, hNullable, hDefault] <;> decide
  unfold ParamText.read?
  simp only [hName, Option.bind_eq_bind, Option.bind_some, hArrow, readArrow?_arrow,
    h.type.trimStart_append, hType]
  -- What is left is the star and the default, of which each is there or not.
  obtain ⟨name, byRef, type, nullable, default⟩ := t
  cases default with
  | none => cases nullable <;> rfl
  | some text =>
      have hDefault := readDefault?_equals (h.default text rfl)
      cases nullable
      all_goals
        change (readDefault? ('=' :: ' ' :: text)).bind _ = _
        rw [hDefault]
        rfl

theorem marks_write {t : ParamText} (h : t.Proper) :
    marks t.write = marks t.type ++ t.default.elim [] marks :=
  (read?_eq_some (read?_write h)).2

theorem Proper.solid {t : ParamText} (h : t.Proper) :
    (∀ c ∈ t.name, isBlank c = false) ∧ (∀ c ∈ arrow t.byRef, isBlank c = false) ∧
      ∀ c ∈ t.type, isBlank c = false := by
  have hArrow : (arrow t.byRef).all isPlain = true := by cases t.byRef <;> decide
  exact ⟨h.name.solid fun c hc => isBlank_of_isPlain (isPlain_of_isNameChar hc),
    fun c hc => isBlank_of_isPlain (List.all_eq_true.1 hArrow c hc),
    h.type.solid fun c => isBlank_of_isTypeChar⟩

theorem line_write {t : ParamText} (h : t.Proper) : '\n' ∉ t.write := by
  obtain ⟨hName, hArrow, hType⟩ := h.solid
  have hSolid {word : List Char} (h : ∀ c ∈ word, isBlank c = false) : '\n' ∉ word :=
    fun hMem => absurd (h _ hMem) (by decide)
  have hEnding : '\n' ∉ t.ending := by
    cases hDefault : t.default with
    | none => cases hNullable : t.nullable <;> simp [ending, hDefault, hNullable]
    | some text =>
        have hLine := (h.default text hDefault).2.1
        cases hNullable : t.nullable <;> simp [ending, hDefault, hNullable, hLine]
  simp [write, hSolid hName, hSolid hArrow, hSolid hType, hEnding]

end ParamText

/-! ## Parameters -/

namespace Param

variable {p : Param} {text : List Char}

/-- The parts of the written form of a parameter. -/
def written (p : Param) : ParamText where
  name := p.name.toList
  byRef := p.byRef
  type := p.type.render.toList
  nullable := p.nullable
  default := p.default.map fun cell => cell.render.toList

@[simp] theorem written_name (p : Param) : p.written.name = p.name.toList := rfl

@[simp] theorem written_type (p : Param) : p.written.type = p.type.render.toList := rfl

@[simp] theorem written_default (p : Param) :
    p.written.default = p.default.map fun cell => cell.render.toList := rfl

theorem render_toList (p : Param) :
    p.render.toList = match p.default with
      | some _ => '\x7b' :: (p.written.write ++ ['\x7d'])
      | none => p.written.write := by
  obtain ⟨name, type, default, byRef, nullable⟩ := p
  cases byRef <;> cases nullable <;> cases default <;>
    simp [render, written, ParamText.write, ParamText.arrow, ParamText.ending]

/-- What is read for a parameter: proper parts, a type, and a default exactly if there are
braces. -/
theorem read_eq_ok (h : Param.read text = .ok p) :
    ∃ t : ParamText, t.Proper ∧ t.name = p.name.toList ∧ t.byRef = p.byRef ∧
      t.nullable = p.nullable ∧ CellType.read t.type = .ok p.type ∧
      ((p.default = none ∧ marks text = marks t.type) ∨
        ∃ cell source, p.default = some cell ∧ t.default = some source ∧
          p.readDefault source = .ok cell ∧
          marks text = '\x7b' :: (marks t.type ++ marks source ++ ['\x7d'])) := by
  unfold Param.read at h
  dsimp only at h
  split at h
  · cases h
  · rename_i t hParts
    obtain ⟨hProper, hMarks⟩ := ParamText.read?_eq_some hParts
    cases hType : CellType.read t.type with
    | error e => rw [hType] at h; cases h
    | ok type =>
        simp only [hType, Bind.bind, Except.bind] at h
        cases hBraces : between? ['\x7b'] ['\x7d'] (trim text) with
        | none =>
            simp only [hBraces] at h hMarks
            cases hDefault : t.default with
            | some source => rw [hDefault] at h; cases h
            | none =>
                rw [hDefault] at h hMarks
                cases h
                refine ⟨t, hProper, by simp, rfl, rfl, hType, Or.inl ⟨rfl, ?_⟩⟩
                simpa [marks_trim] using hMarks
        | some inner =>
            simp only [hBraces] at h hMarks
            cases hDefault : t.default with
            | none => rw [hDefault] at h; cases h
            | some source =>
                rw [hDefault] at h hMarks
                dsimp only at h
                split at h
                · cases h
                · rename_i cell hCell
                  cases h
                  have hText : trim text = '\x7b' :: (inner ++ ['\x7d']) :=
                    between?_eq_some_iff.1 hBraces
                  refine ⟨t, hProper, by simp, rfl, rfl, hType,
                    Or.inr ⟨cell, source, rfl, hDefault, hCell, ?_⟩⟩
                  rw [← marks_trim text, hText, marks_braces, ← marks_trim inner, hMarks]
                  rfl

/-- The written form of a parameter can be taken apart into its parts, and its type reads back. -/
structure Legible (p : Param) : Prop where
  proper : p.written.Proper
  type : CellType.read p.type.render.toList = .ok p.type
  last : ∀ cell, p.default = some cell → ∀ c ∈ cell.render.toList.getLast?, isBlank c = false

/-- A parameter that is read is legible, and its written form has the marks of the text it was read
from and is one line. -/
theorem legible_of_read (h : Param.read text = .ok p) (hFloat : ∀ x, p.default ≠ some (.float x)) :
    p.Legible ∧ marks p.render.toList = marks text ∧ '\n' ∉ p.render.toList := by
  obtain ⟨t, hProper, hName, -, -, hType, hDefault⟩ := read_eq_ok h
  have hWord : p.type.render.toList = t.type :=
    (CellType.render_of_read hType hProper.solid.2.2).1
  have hTypeBack : CellType.read p.type.render.toList = .ok p.type := by rw [hWord, hType]
  have hNameProper : IsName isNameChar p.written.name := by
    rw [written_name, ← hName]
    exact hProper.name
  have hTypeProper : IsName isTypeChar p.written.type := by
    rw [written_type, hWord]
    exact hProper.type
  rcases hDefault with ⟨hNone, hMarks⟩ | ⟨cell, source, hSome, hSource, hRead, hMarks⟩
  · have hWritten : p.written.Proper :=
      ⟨hNameProper, hTypeProper, fun other hOther => by simp [hNone] at hOther⟩
    refine ⟨⟨hWritten, hTypeBack, by simp [hNone]⟩, ?_, ?_⟩
    · rw [render_toList, hNone, hMarks]
      simp [ParamText.marks_write hWritten, hNone, hWord]
    · rw [render_toList, hNone]
      exact ParamText.line_write hWritten
  · have hAlike : Alike source cell.render.toList :=
      alike_of_readDefault hRead (hProper.default source hSource).2.1
        fun x hx => hFloat x (hx ▸ hSome)
    have hWritten : p.written.Proper := by
      refine ⟨hNameProper, hTypeProper, fun other hOther => ?_⟩
      obtain rfl : cell.render.toList = other := by simpa [hSome] using hOther
      exact ⟨hAlike.nonempty, hAlike.line, trimStart_eq_self hAlike.first⟩
    refine ⟨⟨hWritten, hTypeBack, fun other hOther => ?_⟩, ?_, ?_⟩
    · obtain rfl : cell = other := by simpa [hSome] using hOther
      exact hAlike.last
    · rw [render_toList, hSome, hMarks]
      simp [marks_braces, ParamText.marks_write hWritten, hSome, hWord, hAlike.marks_eq]
    · rw [render_toList, hSome]
      simp [ParamText.line_write hWritten]

/-- The parts put together have no blanks around them. -/
theorem Legible.trim_write (h : p.Legible) : trim p.written.write = p.written.write := by
  obtain ⟨hName, hArrow, hType⟩ := h.proper.solid
  refine trim_eq_self (fun c hc => ?_) fun c hc => ?_
  · obtain ⟨first, rest, hText, -⟩ := h.proper.name
    rw [ParamText.write, hText] at hc
    obtain rfl : first = c := Option.some.inj hc
    exact hName first (by rw [hText]; exact List.mem_cons_self)
  · -- The last character is that of the default, which may have blanks inside; without a default
    -- there are no blanks anywhere.
    cases hDefault : p.default with
    | none =>
        have hEnding : ∀ d ∈ p.written.ending, isBlank d = false := by
          cases hNullable : p.written.nullable with
          | false => simp [ParamText.ending, hDefault, hNullable]
          | true =>
              have hStar : isBlank '*' = false := rfl
              simp [ParamText.ending, hDefault, hNullable, hStar]
        have hMem := List.mem_of_mem_getLast? hc
        simp only [ParamText.write, List.mem_append] at hMem
        rcases hMem with hMem | hMem | hMem | hMem
        · exact hName c hMem
        · exact hArrow c hMem
        · exact hType c hMem
        · exact hEnding c hMem
    | some cell =>
        have hSome := (h.proper.default cell.render.toList (by simp [hDefault])).1
        have hLast : p.written.write.getLast? = cell.render.toList.getLast? := by
          simp only [ParamText.write, ParamText.ending, written_default, hDefault, Option.map_some,
            ← List.append_assoc]
          exact List.getLast?_append_of_ne_nil _ hSome
        exact h.last cell hDefault c (hLast ▸ hc)

theorem Legible.not_blank (h : p.Legible) : p.render.toList.all isBlank = false := by
  obtain ⟨first, rest, hName, -⟩ := h.proper.name
  have hMem : first ∈ p.written.name := by
    rw [hName]
    exact List.mem_cons_self
  have hFirst : first ∈ p.render.toList := by
    rw [written_name] at hMem
    rw [render_toList]
    cases p.default <;> simp [ParamText.write, hMem]
  exact List.all_eq_false.2 ⟨first, hFirst, by simp [h.proper.solid.1 first hMem]⟩

/-- A legible parameter reads back up to its default. -/
theorem Legible.read_render (h : p.Legible) :
    Param.read p.render.toList = match p.default with
      | some cell =>
        (p.readDefault cell.render.toList).map fun cell => { p with default := some cell }
      | none => .ok p := by
  have hParts := ParamText.read?_write h.proper
  cases hDefault : p.default with
  | none =>
      have hText : p.render.toList = p.written.write := by rw [render_toList, hDefault]
      have hBraces : between? ['\x7b'] ['\x7d'] p.written.write = none := by
        refine Option.eq_none_iff_forall_ne_some.2 fun inner hInner => ?_
        obtain ⟨first, rest, hName, hStart, -⟩ := h.proper.name
        rw [between?_eq_some_iff, ParamText.write, hName] at hInner
        obtain rfl : first = '\x7b' := (List.cons.inj hInner).1
        exact absurd hStart (by decide)
      obtain ⟨name, type, default, byRef, nullable⟩ := p
      cases hDefault
      simp only [Param.read, hText, h.trim_write, hBraces, hParts, written_name, written_type,
        h.type, String.ofList_toList]
      rfl
  | some cell =>
      have hText : p.render.toList = '\x7b' :: (p.written.write ++ ['\x7d']) := by
        rw [render_toList, hDefault]
      have hTrim : trim p.render.toList = p.render.toList := by rw [hText, trim_enclosed rfl rfl]
      have hBraces : between? ['\x7b'] ['\x7d'] p.render.toList = some p.written.write := by
        rw [hText]
        exact between?_eq_some_iff.2 rfl
      obtain ⟨name, type, default, byRef, nullable⟩ := p
      cases hDefault
      simp only [Param.read, hTrim, hBraces, h.trim_write, hParts, written_name, written_type,
        h.type, String.ofList_toList]
      rfl

theorem Legible.read_render_iff (h : p.Legible) :
    Param.read p.render.toList = .ok p ↔
      ∀ cell, p.default = some cell → p.readDefault cell.render.toList = .ok cell := by
  rw [h.read_render]
  cases hDefault : p.default with
  | none => simp
  | some cell =>
      simp only [Option.some.injEq, forall_eq']
      cases hRead : p.readDefault cell.render.toList with
      | error e => simp [Except.map]
      | ok back =>
          obtain ⟨name, type, default, byRef, nullable⟩ := p
          cases hDefault
          simp [Except.map]

/-- The parameters that read back. -/
theorem read_render_iff (h : Param.read text = .ok p) (hFloat : ∀ x, p.default ≠ some (.float x)) :
    Param.read p.render.toList = .ok p ↔ ∀ cell, p.default = some cell →
      (∀ element items, cell ≠ .list element items) ∧
        ∀ q, cell = .rational q → q.isInteger = true → p.type = .rational := by
  rw [(legible_of_read h hFloat).1.read_render_iff]
  refine forall₂_congr fun cell hCell => ?_
  obtain ⟨t, -, -, -, -, -, ⟨hNone, -⟩ | ⟨other, source, hSome, -, hRead, -⟩⟩ := read_eq_ok h
  · rw [hNone] at hCell
    cases hCell
  · obtain rfl : other = cell := Option.some.inj (hSome.symm.trans hCell)
    exact readDefault_render_iff hRead fun x hx => hFloat x (hx ▸ hSome)

end Param
end CellMachine
