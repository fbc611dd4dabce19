import CellMachine.Signature.Parser

/-!
# Where a parameter list is cut

A parameter list is cut at commas outside of quotes and brackets.  Only six characters matter for
that: the quote, the four brackets and the comma.  Main statements: each piece of a list that can be
cut is whole, that is, balanced and without a place to cut (`whole_of_splitParams`), and a list put
together from whole pieces is cut into just these (`splitParams_intercalate`).

A quoted text may have quotes in it, and then the brackets between two of them count.  So a default
may well close brackets that it has not opened; it is the whole piece that is balanced, NOT each of
its parts.
-/

namespace CellMachine

/-! ## The characters that matter -/

/-- The characters that decide where a text is cut. -/
def isMark (c : Char) : Bool :=
  c == '"' || c == '(' || c == ')' || c == '\x7b' || c == '\x7d' || c == ','

/-- What matters of a text for cutting it. -/
def marks (text : List Char) : List Char := text.filter isMark

@[simp] theorem marks_nil : marks [] = [] := rfl

@[simp] theorem marks_append (front back : List Char) :
    marks (front ++ back) = marks front ++ marks back := List.filter_append ..

theorem marks_cons (c : Char) (text : List Char) :
    marks (c :: text) = if isMark c then c :: marks text else marks text := List.filter_cons

theorem marks_braces (inner : List Char) :
    marks ('\x7b' :: (inner ++ ['\x7d'])) = '\x7b' :: (marks inner ++ ['\x7d']) := by
  rw [marks_cons, marks_append]
  rfl

theorem marks_eq_nil {text : List Char} (h : ∀ c ∈ text, isMark c = false) : marks text = [] :=
  List.filter_eq_nil_iff.2 fun c hc => by simp [h c hc]

namespace Nesting

@[simp] theorem after_nil (s : Nesting) : s.after [] = s := rfl

@[simp] theorem after_cons (s : Nesting) (c : Char) (text : List Char) :
    s.after (c :: text) = (s.step c).after text := rfl

@[simp] theorem after_append (s : Nesting) (front back : List Char) :
    s.after (front ++ back) = (s.after front).after back := List.foldl_append ..

theorem step_of_not_isMark (s : Nesting) {c : Char} (h : isMark c = false) : s.step c = s := by
  simp only [isMark, Bool.or_eq_false_iff, beq_eq_false_iff_ne] at h
  simp [step, h]

@[simp] theorem start_step_comma : start.step ',' = start := rfl

theorem isTop_iff {s : Nesting} : s.isTop = true ↔ s = start := by
  obtain ⟨depth, quoted⟩ := s
  simp [isTop, start]

/-- Nothing of the text is a comma to cut at. -/
def keeps (s : Nesting) : List Char → Bool
  | [] => true
  | c :: rest => decide (¬(c = ',' ∧ s.isTop)) && (s.step c).keeps rest

theorem keeps_cons {s : Nesting} {c : Char} {rest : List Char} :
    s.keeps (c :: rest) = true ↔ ¬(c = ',' ∧ s.isTop = true) ∧ (s.step c).keeps rest = true := by
  rw [keeps, Bool.and_eq_true, decide_eq_true_eq]

theorem after_marks (s : Nesting) (text : List Char) : s.after (marks text) = s.after text := by
  induction text generalizing s with
  | nil => rfl
  | cons c rest ih =>
      rw [marks_cons]
      split
      · exact ih _
      · rename_i hMark
        rw [ih, after_cons, step_of_not_isMark s (by simpa using hMark)]

theorem keeps_marks (s : Nesting) (text : List Char) : s.keeps (marks text) = s.keeps text := by
  induction text generalizing s with
  | nil => rfl
  | cons c rest ih =>
      rw [marks_cons]
      split
      · simp [keeps, ih]
      · rename_i hMark
        have hMark : isMark c = false := by simpa using hMark
        have hComma : c ≠ ',' := by
          rintro rfl
          cases hMark
        simp [keeps, hComma, ih, step_of_not_isMark s hMark]

end Nesting

/-! ## Pieces -/

/-- Quotes and brackets of the text are balanced, and it has no comma to cut at. -/
structure Whole (text : List Char) : Prop where
  keeps : Nesting.start.keeps text = true
  after : Nesting.start.after text = .start

/-- Whether a text is whole depends only on what matters of it. -/
theorem Whole.of_marks {text other : List Char} (h : Whole text)
    (hMarks : marks other = marks text) : Whole other := by
  constructor
  · rw [← Nesting.keeps_marks, hMarks, Nesting.keeps_marks]
    exact h.keeps
  · rw [← Nesting.after_marks, hMarks, Nesting.after_marks]
    exact h.after

/-- The scan takes the first piece from where it stands to the top, and each other one from the top
to the top. -/
theorem whole_of_pieces {s : Nesting} {text : List Char} (hEnd : s.after text = .start) :
    ∃ first more, pieces s text = first :: more ∧ s.keeps first = true ∧
      s.after first = .start ∧ ∀ piece ∈ more, Whole piece := by
  induction text generalizing s with
  | nil => exact ⟨[], [], rfl, rfl, hEnd, by simp⟩
  | cons c rest ih =>
      rw [pieces]
      split
      · rename_i hCut
        -- A cut is made only at the top, so the next piece begins there too.
        obtain ⟨rfl, hTop⟩ := hCut
        rw [Nesting.isTop_iff] at hTop
        subst hTop
        rw [Nesting.after_cons, Nesting.start_step_comma] at hEnd
        obtain ⟨first, more, hPieces, hKeeps, hAfter, hMore⟩ := ih hEnd
        refine ⟨[], pieces .start rest, rfl, rfl, rfl, ?_⟩
        rw [hPieces]
        exact List.forall_mem_cons.2 ⟨⟨hKeeps, hAfter⟩, hMore⟩
      · rename_i hKept
        obtain ⟨first, more, hPieces, hKeeps, hAfter, hMore⟩ := ih hEnd
        refine ⟨c :: first, more, by rw [hPieces], ?_, hAfter, hMore⟩
        exact Nesting.keeps_cons.2 ⟨hKept, hKeeps⟩

/-- What is kept together stands in front of the first piece of the rest. -/
theorem pieces_append {s : Nesting} {front back first : List Char} {more : List (List Char)}
    (hKeeps : s.keeps front = true) (hBack : pieces (s.after front) back = first :: more) :
    pieces s (front ++ back) = (front ++ first) :: more := by
  induction front generalizing s with
  | nil => exact hBack
  | cons c rest ih =>
      obtain ⟨hKept, hRest⟩ := Nesting.keeps_cons.1 hKeeps
      rw [List.cons_append, pieces, if_neg hKept, ih hRest hBack]
      rfl

theorem pieces_intercalate {texts : List (List Char)} (h : ∀ text ∈ texts, Whole text)
    (hSome : texts ≠ []) : pieces .start ([','].intercalate texts) = texts := by
  induction texts with
  | nil => exact absurd rfl hSome
  | cons text rest ih =>
      rw [List.forall_mem_cons] at h
      cases rest with
      | nil =>
          have hBack : pieces (Nesting.start.after text) [] = [[]] := rfl
          simpa using pieces_append h.1.keeps hBack
      | cons next more =>
          have hCut : pieces (Nesting.start.after text) (',' :: [','].intercalate (next :: more)) =
              [] :: next :: more := by
            rw [h.1.after, pieces, if_pos ⟨rfl, rfl⟩, ih h.2 (by simp)]
          rw [List.intercalate_cons_cons, List.append_assoc, List.singleton_append,
            pieces_append h.1.keeps hCut, List.append_nil]

theorem after_intercalate {texts : List (List Char)} (h : ∀ text ∈ texts, Whole text) :
    Nesting.start.after ([','].intercalate texts) = .start := by
  induction texts with
  | nil => rfl
  | cons text rest ih =>
      rw [List.forall_mem_cons] at h
      cases rest with
      | nil => simpa using h.1.after
      | cons next more =>
          rw [List.intercalate_cons_cons, Nesting.after_append, Nesting.after_append, h.1.after]
          exact ih h.2

/-- Each piece of a parameter list is whole. -/
theorem whole_of_splitParams {text : List Char} {texts : List (List Char)}
    (h : splitParams text = .ok texts) : ∀ piece ∈ texts, Whole piece := by
  unfold splitParams at h
  split at h
  · cases h
  · rename_i hTop
    split at h
    · cases h
      simp
    · split at h
      · cases h
      · cases h
        have hEnd : Nesting.start.after text = .start := Nesting.isTop_iff.1 (by simpa using hTop)
        obtain ⟨first, more, hPieces, hKeeps, hAfter, hMore⟩ := whole_of_pieces hEnd
        rw [hPieces]
        exact List.forall_mem_cons.2 ⟨⟨hKeeps, hAfter⟩, hMore⟩

/-- Whole pieces with commas between them are cut into these pieces. -/
theorem splitParams_intercalate {texts : List (List Char)} (hWhole : ∀ text ∈ texts, Whole text)
    (hSolid : ∀ text ∈ texts, text.all Text.isBlank = false) :
    splitParams ([','].intercalate texts) = .ok texts := by
  have hTop : (Nesting.start.after ([','].intercalate texts)).isTop = true :=
    Nesting.isTop_iff.2 (after_intercalate hWhole)
  unfold splitParams
  simp only [hTop, Bool.not_true, Bool.false_eq_true, if_false]
  cases texts with
  | nil => rfl
  | cons text rest =>
      have hBlank : ([','].intercalate (text :: rest)).all Text.isBlank = false := by
        have hFirst := hSolid text List.mem_cons_self
        cases rest with
        | nil => simpa using hFirst
        | cons next more =>
            rw [List.intercalate_cons_cons, List.all_append, List.all_append, hFirst]
            rfl
      have hPieces : ((text :: rest).any fun piece => piece.all Text.isBlank) = false := by
        simpa [List.any_eq_false] using hSolid
      rw [pieces_intercalate hWhole (by simp), hBlank, hPieces]
      rfl

end CellMachine
