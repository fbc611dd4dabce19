import CellMachine.Proofs.Dispatch
import CellMachine.Proofs.Signature.Parameters

/-!
# Signatures that read back

A description is read in three layers, the line, the list of parameters and each parameter, and is
written without regard to them.  Main statement: what is written for a signature that was read from
some description reads back as that signature, except when a default is a list, or a fraction over
one for a parameter that does not want fractions (`Signature.parse_render_iff`).

The written form is NOT the description: blanks, signs and leading zeros are lost.  What is kept is
the sequence of quotes, brackets and commas in each parameter, and so the places to cut.
-/

namespace CellMachine

open Text

/-! ## The line -/

theorem readReturn?_type {type : List Char} (hSolid : ∀ c ∈ type, isBlank c = false)
    (hSome : type ≠ []) : readReturn? (" =: ".toList ++ type) = some type := by
  have hTrim : trimStart (' ' :: type) = type := by
    change trimStart type = type
    exact trimStart_eq_self fun c hc => hSolid c (List.mem_of_mem_head? hc)
  have hMore : ∀ c ∈ type, (!isBlank c) = true := by simpa using hSolid
  have hTake : type.takeWhile (fun c => !isBlank c) = type := List.takeWhile_eq_self_iff.2 hMore
  have hDrop : type.dropWhile (fun c => !isBlank c) = [] := List.dropWhile_eq_nil_iff.2 hMore
  change (let rest := trimStart (' ' :: type)
    let type := rest.takeWhile fun c => !isBlank c
    if type ≠ [] ∧ (rest.dropWhile fun c => !isBlank c).all isBlank then some type else none) = _
  simp [hTrim, hTake, hDrop, hSome]

theorem readBody?_eq_none {text : List Char} (h : ']' ∉ text) : readBody? text = none := by
  induction text with
  | nil => rfl
  | cons c rest ih =>
      rw [List.mem_cons, not_or] at h
      rw [readBody?, ih h.2]
      simp [Ne.symm h.1]

/-- The parameter list ends at the last closing bracket. -/
theorem readBody?_append {inner type : List Char} (hLine : '\n' ∉ inner)
    (hSolid : ∀ c ∈ type, isBlank c = false) (hSome : type ≠ []) (hBracket : ']' ∉ type) :
    readBody? (inner ++ ("] =: ".toList ++ type)) = some (inner, type) := by
  induction inner with
  | nil =>
      -- No bracket follows, so the search for a later one fails and this one is taken.
      have hNone : readBody? (" =: ".toList ++ type) = none :=
        readBody?_eq_none (by simp [hBracket])
      change readBody? (']' :: (" =: ".toList ++ type)) = _
      rw [readBody?, if_neg (by decide), hNone, readReturn?_type hSolid hSome]
      rfl
  | cons c rest ih =>
      rw [List.mem_cons, not_or] at hLine
      rw [List.cons_append, readBody?, if_neg (Ne.symm hLine.1), ih hLine.2]

theorem readHeader?_write {name inner type : List Char} (hName : IsName isNameChar name)
    (hLine : '\n' ∉ inner) (hSolid : ∀ c ∈ type, isBlank c = false) (hSome : type ≠ [])
    (hBracket : ']' ∉ type) :
    readHeader? (name ++ '[' :: (inner ++ ("] =: ".toList ++ type))) =
      some (name, inner, type) := by
  have hRead : readName? isNameChar (name ++ '[' :: (inner ++ ("] =: ".toList ++ type))) =
      some (name, '[' :: (inner ++ ("] =: ".toList ++ type))) :=
    readName?_append hName (by simp; decide)
  rw [readHeader?, hName.trimStart_append, hRead]
  change (readBody? (inner ++ ("] =: ".toList ++ type))).bind _ = _
  rw [readBody?_append hLine hSolid hSome hBracket]
  rfl

theorem readReturn?_eq_some {text type : List Char} (h : readReturn? text = some type) :
    (∀ c ∈ type, isBlank c = false) ∧ type ≠ [] := by
  unfold readReturn? at h
  split at h
  · dsimp only at h
    split at h
    · rename_i hType
      cases h
      exact ⟨fun c hc => by simpa using List.mem_takeWhile_imp hc, hType.1⟩
    · cases h
  · cases h

theorem readBody?_eq_some {text inner type : List Char} (h : readBody? text = some (inner, type)) :
    (∀ c ∈ type, isBlank c = false) ∧ type ≠ [] := by
  induction text generalizing inner with
  | nil => cases h
  | cons c rest ih =>
      rw [readBody?] at h
      split at h
      · rename_i found hFound
        cases h
        split at hFound
        · cases hFound
        · exact ih hFound
      · split at h
        · obtain ⟨found, hReturn, hEq⟩ := Option.map_eq_some_iff.1 h
          cases hEq
          exact readReturn?_eq_some hReturn
        · cases h

theorem readHeader?_eq_some {text name inner type : List Char}
    (h : readHeader? text = some (name, inner, type)) :
    IsName isNameChar name ∧ (∀ c ∈ type, isBlank c = false) ∧ type ≠ [] := by
  unfold readHeader? at h
  simp only [Option.bind_eq_bind, Option.bind_eq_some_iff, Prod.exists] at h
  obtain ⟨found, rest, hName, h⟩ := h
  split at h
  · simp only [Option.bind_eq_some_iff, Prod.exists] at h
    obtain ⟨body, returns, hBody, hEq⟩ := h
    cases hEq
    exact ⟨(readName?_eq_some hName).1, readBody?_eq_some hBody⟩
  · cases h

/-! ## Signatures -/

namespace Signature

/-- The pieces of a written parameter list. -/
def writtenParams : List Param → List (List Char)
  | [] => []
  | p :: rest => p.render.toList :: rest.map fun q => ' ' :: q.render.toList

theorem intercalate_comma_blank (first : List Char) (rest : List (List Char)) :
    [',', ' '].intercalate (first :: rest) =
      [','].intercalate (first :: rest.map fun text => ' ' :: text) := by
  have hBlank (text : List Char) (more : List (List Char)) :
      [','].intercalate ((' ' :: text) :: more) = ' ' :: [','].intercalate (text :: more) := by
    cases more <;> simp
  induction rest generalizing first with
  | nil => simp
  | cons next more ih =>
      rw [List.intercalate_cons_cons, ih, List.map_cons, List.intercalate_cons_cons, hBlank]
      simp

theorem render_params (params : List Param) :
    (", ".intercalate (params.map Param.render)).toList =
      [','].intercalate (writtenParams params) := by
  rw [String.toList_intercalate, List.map_map]
  cases params with
  | nil => rfl
  | cons p rest =>
      have hWritten : writtenParams (p :: rest) =
          p.render.toList :: (rest.map fun q => q.render.toList).map fun text => ' ' :: text := by
        simp [writtenParams, Function.comp_def]
      rw [hWritten, ← intercalate_comma_blank]
      rfl

theorem forall_writtenParams {P : List Char → Prop} {params : List Param}
    (hBlank : ∀ text, P text → P (' ' :: text)) (h : ∀ p ∈ params, P p.render.toList) :
    ∀ text ∈ writtenParams params, P text := by
  cases params with
  | nil => simp [writtenParams]
  | cons p rest =>
      rw [List.forall_mem_cons] at h
      refine List.forall_mem_cons.2 ⟨h.1, fun text hText => ?_⟩
      obtain ⟨q, hq, rfl⟩ := List.mem_map.1 hText
      exact hBlank _ (h.2 q hq)

theorem splitParams_writtenParams {params : List Param}
    (hWhole : ∀ p ∈ params, Whole p.render.toList)
    (hSolid : ∀ p ∈ params, p.render.toList.all isBlank = false) :
    splitParams ([','].intercalate (writtenParams params)) = .ok (writtenParams params) := by
  refine splitParams_intercalate (forall_writtenParams (fun text h => h.of_marks rfl) hWhole)
    (forall_writtenParams (fun text h => ?_) hSolid)
  rw [List.all_cons, h, Bool.and_false]

/-- The blank behind a comma does not change what is read. -/
theorem readAll_writtenParams {params others : List Param} :
    List.Forall₂ (fun text q => Param.read text = .ok q) (writtenParams params) others ↔
      List.Forall₂ (fun p q => Param.read p.render.toList = .ok q) params others := by
  have hBlank (text : List Char) : Param.read (' ' :: text) = Param.read text := rfl
  cases params with
  | nil => simp [writtenParams]
  | cons p rest => simp [writtenParams, List.forall₂_cons_left_iff, hBlank]

theorem exists_whole_of_parse {description : String} {s : Signature}
    (h : parse description = .ok s) :
    ∀ p ∈ s.params, ∃ text, Whole text ∧ Param.read text = .ok p := by
  obtain ⟨name, inner, type, texts, -, -, hSplit, hParams, -⟩ := parse_eq_ok_iff.1 h
  obtain ⟨params, hEq, hTexts, -⟩ := readParams_eq_ok_iff.1 hParams
  rw [hEq, List.nil_append]
  intro p hp
  obtain ⟨index, hIndex, rfl⟩ := List.getElem_of_mem hp
  have hText : index < texts.length := hTexts.length_eq ▸ hIndex
  exact ⟨_, whole_of_splitParams hSplit _ (List.getElem_mem hText), hTexts.get hText hIndex⟩

theorem not_mem_intercalate {c : Char} {texts : List (List Char)} (hComma : c ≠ ',')
    (h : ∀ text ∈ texts, c ∉ text) : c ∉ [','].intercalate texts := by
  induction texts with
  | nil => simp
  | cons text rest ih =>
      rw [List.forall_mem_cons] at h
      cases rest with
      | nil => simpa using h.1
      | cons next more =>
          rw [List.intercalate_cons_cons]
          simp [h.1, hComma, ih h.2]

/-- The written form of a signature is taken apart into its name, its parameters and its return
type, and the return type reads back. -/
theorem readHeader?_render {description : String} {s : Signature} (h : parse description = .ok s)
    (hLine : ∀ p ∈ s.params, '\n' ∉ p.render.toList) :
    readHeader? s.render.toList =
        some (s.name.toList, [','].intercalate (writtenParams s.params),
          s.returns.render.toList) ∧
      CellType.read s.returns.render.toList = .ok s.returns := by
  obtain ⟨name, inner, type, texts, hHeader, hReturns, -, -, -, hName, -⟩ := parse_eq_ok_iff.1 h
  obtain ⟨hNameProper, hSolid, hSome⟩ := readHeader?_eq_some hHeader
  obtain ⟨hType, hChars⟩ := CellType.render_of_read hReturns hSolid
  have hBracket : ']' ∉ type := fun hMem => absurd (hChars _ hMem) (by decide)
  have hInner : '\n' ∉ [','].intercalate (writtenParams s.params) :=
    not_mem_intercalate (by decide)
      (forall_writtenParams (fun text hText => by simp [hText]) hLine)
  have hText : s.render.toList = name ++ '[' :: ([','].intercalate (writtenParams s.params) ++
      ("] =: ".toList ++ type)) := by
    rw [← render_params, ← hType]
    simp [render, hName]
  rw [hText, readHeader?_write hNameProper hInner hSolid hSome hBracket, hName, hType,
    String.toList_ofList]
  exact ⟨rfl, hReturns⟩

/-- The signatures that read back from their written form are those whose defaults are written as
literals of their own: a list is written with a blank between its braces, which is no literal, and a
fraction over one is written as an integer.  Floats are left out. -/
theorem parse_render_iff {description : String} {s : Signature}
    (h : parse description = .ok s) (hFloat : ∀ p ∈ s.params, ∀ x, p.default ≠ some (.float x)) :
    (∃ s', parse s.render = .ok s' ∧ s'.name = s.name ∧ s'.returns = s.returns ∧
        s'.params = s.params) ↔
      ∀ p ∈ s.params, ∀ cell, p.default = some cell →
        (∀ element items, cell ≠ .list element items) ∧
          ∀ q, cell = .rational q → q.isInteger = true → p.type = .rational := by
  have hEach : ∀ p ∈ s.params, p.Legible ∧ Whole p.render.toList ∧ '\n' ∉ p.render.toList := by
    intro p hp
    obtain ⟨text, hWhole, hRead⟩ := exists_whole_of_parse h p hp
    obtain ⟨hLegible, hMarks, hLine⟩ := Param.legible_of_read hRead (hFloat p hp)
    exact ⟨hLegible, hWhole.of_marks hMarks, hLine⟩
  obtain ⟨hHeader, hReturns⟩ := readHeader?_render h fun p hp => (hEach p hp).2.2
  have hSplit := splitParams_writtenParams (fun p hp => (hEach p hp).2.1)
    fun p hp => (hEach p hp).1.not_blank
  have hBack : (∀ p ∈ s.params, Param.read p.render.toList = .ok p) ↔ _ :=
    forall₂_congr fun p hp => by
      obtain ⟨text, -, hRead⟩ := exists_whole_of_parse h p hp
      exact Param.read_render_iff hRead (hFloat p hp)
  rw [← hBack]
  constructor
  · -- The pieces are the written parameters also if one of them is read as something else.
    rintro ⟨s', hParse, -, -, hSame⟩
    obtain ⟨name, inner, type, texts, hHeader', -, hSplit', hParams, -⟩ := parse_eq_ok_iff.1 hParse
    rw [hHeader] at hHeader'
    cases hHeader'
    rw [hSplit] at hSplit'
    cases hSplit'
    rw [hSame] at hParams
    obtain ⟨params, rfl, hRead, -⟩ := readParams_eq_ok_iff.1 hParams
    exact List.forall₂_same.1 (readAll_writtenParams.1 hRead)
  · intro hAll
    obtain ⟨-, -, -, -, -, -, -, -, hCount, -, hFlags⟩ := parse_eq_ok_iff.1 h
    have hRead : List.Forall₂ (fun p q => Param.read p.render.toList = .ok q) s.params s.params :=
      List.forall₂_same.2 hAll
    have hNames : s.params.Pairwise fun p q => p.name ≠ q.name :=
      (Described.params ⟨description, s, h, rfl⟩).2
    have hParams : readParams [] (writtenParams s.params) = .ok s.params :=
      readParams_eq_ok_iff.2 ⟨s.params, rfl, readAll_writtenParams.2 hRead, hNames, by simp⟩
    have hName : s.name = String.ofList s.name.toList := by simp
    exact ⟨s, parse_eq_ok_iff.2 ⟨_, _, _, _, hHeader, hReturns, hSplit, hParams, hCount, hName,
      hFlags⟩, rfl, rfl, rfl⟩

/-! ### A default with brackets and a comma -/

/-- A signature with a default in which the marks of a parameter list stand. -/
def padding : Signature where
  name := "Pad"
  params := [.byReference "line" .text, ⟨"fill", .text, some (.text "], \x7b"), false, true⟩]
  returns := .text
  flags := .plain

theorem padding_parse :
    parse "Pad[line<->TEXT, \x7bfill -> TEXT* = \"], \x7b\" \x7d] =: TEXT" = .ok padding := by
  have hType : CellType.read "TEXT".toList = .ok .text :=
    CellType.read_of_ofName? (by decide +kernel) (by decide +kernel)
  have hLine : Param.read "line<->TEXT".toList = .ok (.byReference "line" .text) := by
    have hBraces : between? ['\x7b'] ['\x7d'] (trim "line<->TEXT".toList) = none := by
      decide +kernel
    have hParts : ParamText.read? (trim "line<->TEXT".toList) =
        some ⟨"line".toList, true, "TEXT".toList, false, none⟩ := rfl
    simp only [Param.read, hBraces, hParts, hType]
    rfl
  have hFill : Param.read " \x7bfill -> TEXT* = \"], \x7b\" \x7d".toList =
      .ok ⟨"fill", .text, some (.text "], \x7b"), false, true⟩ := by
    have hBraces : between? ['\x7b'] ['\x7d']
        (trim " \x7bfill -> TEXT* = \"], \x7b\" \x7d".toList) =
        some "fill -> TEXT* = \"], \x7b\" ".toList := by decide +kernel
    have hParts : ParamText.read? (trim "fill -> TEXT* = \"], \x7b\" ".toList) =
        some ⟨"fill".toList, false, "TEXT".toList, true, some "\"], \x7b\"".toList⟩ := rfl
    simp only [Param.read, hBraces, hParts, hType]
    rfl
  refine parse_eq_ok_iff.2 ⟨"Pad".toList,
    "line<->TEXT, \x7bfill -> TEXT* = \"], \x7b\" \x7d".toList, "TEXT".toList,
    ["line<->TEXT".toList, " \x7bfill -> TEXT* = \"], \x7b\" \x7d".toList],
    by decide +kernel, hType, by decide +kernel, ?_, by decide, rfl, rfl⟩
  exact readParams_eq_ok_iff.2 ⟨_, rfl, .cons hLine (.cons hFill .nil),
    by simp [Param.byReference], by simp⟩

theorem padding_reads_back :
    ∃ s', parse padding.render = .ok s' ∧ s'.name = padding.name ∧
      s'.returns = padding.returns ∧ s'.params = padding.params := by
  refine (parse_render_iff padding_parse ?_).2 ?_
  · simp [padding, Param.byReference]
  · simp [padding, Param.byReference]

end Signature
end CellMachine
