import CellMachine.Core.Library
import CellMachine.Proofs.Homogeneity

/-!
# What the core functions give back

A core function only reports, writes and reads, and it gives back well-formed cells if its arguments
are: scalars for the most part, an item of a list that it was given, or a list that is built from
the items of two.  Two of them rebind an argument, one to its other argument and one to the literal
that it reads.  A literal is never a reference; an argument may be one, so what an assignment rebinds
is a value only if its second argument is.
-/

namespace CellMachine

/-! ## Arguments -/

namespace Args

/-- What the function has rebound are well-formed values. -/
def Sound (args : Args) : Prop :=
  ∀ entry ∈ args.entries, entry.rebound = true →
    entry.cell.isReference = false ∧ entry.cell.WellFormed

theorem ofCells_sound (cells : List Cell) : (ofCells cells).Sound := by
  intro entry hEntry hRebound
  obtain ⟨cell, -, rfl⟩ := List.mem_map.1 hEntry
  cases hRebound

/-- An entry that is changed is a well-formed value if it counts as rebound. -/
theorem Sound.modify {args : Args} (h : args.Sound) (index : Nat) {f : Arg → Arg}
    (hf : ∀ entry, (f entry).rebound = true →
      (f entry).cell.isReference = false ∧ (f entry).cell.WellFormed) :
    (Args.mk (args.entries.modify index f)).Sound := by
  intro entry hEntry hRebound
  obtain ⟨position, hAt⟩ := List.mem_iff_getElem?.1 hEntry
  rw [List.getElem?_modify] at hAt
  obtain ⟨old, hOld, rfl⟩ := Option.map_eq_some_iff.1 hAt
  by_cases hHere : index = position
  · simp only [hHere, if_true] at hRebound ⊢
    exact hf old hRebound
  · simp only [hHere, if_false] at hRebound ⊢
    exact h old (List.mem_of_getElem? hOld) hRebound

theorem Sound.set {args : Args} (h : args.Sound) (index : Nat) {cell : Cell}
    (hValue : cell.isReference = false) (hFormed : cell.WellFormed) :
    (args.set index cell).Sound := h.modify index fun _ _ => ⟨hValue, hFormed⟩

/-- Moving an argument out leaves a null behind. -/
theorem Sound.take {args : Args} (h : args.Sound) (index : Nat) : (args.take index).2.Sound :=
  h.modify index fun _ _ => ⟨rfl, .leaf rfl⟩

/-- The cell of an argument that was rebound. -/
theorem Sound.get? {args : Args} (h : args.Sound) {index : Nat} {cell : Cell}
    (hRebound : args.isRebound index = true) (hGet : args.get? index = some cell) :
    cell.isReference = false ∧ cell.WellFormed := by
  unfold Args.get? at hGet
  obtain ⟨entry, hEntry, rfl⟩ := Option.map_eq_some_iff.1 hGet
  unfold isRebound at hRebound
  rw [hEntry] at hRebound
  exact h entry (List.mem_of_getElem? hEntry) hRebound

theorem mem_cells_of_get? {args : Args} {index : Nat} {cell : Cell}
    (h : args.get? index = some cell) : cell ∈ args.cells := by
  unfold Args.get? at h
  obtain ⟨entry, hEntry, rfl⟩ := Option.map_eq_some_iff.1 h
  exact List.mem_map_of_mem (List.mem_of_getElem? hEntry)

end Args

/-- A well-formed result together with sound arguments. -/
def Answers (answer : Cell × Args) : Prop := answer.1.WellFormed ∧ answer.2.Sound

/-- The native function only reports, writes and reads, and what it gives back is well formed. -/
def Native.Sound : Native → Prop
  | done result args => Answers (result, args)
  | report _ next => next.Sound
  | write _ _ next => ∀ refusal, (next refusal).Sound
  | readLine next => ∀ line, (next line).Sound
  | push _ _ | pop _ | define _ _ _ | execute _ _ | teardown _ | depths _ => False

/-! ## Scalars -/

namespace Core

theorem asItems?_integerOr (result : Option Int64) : (integerOr result).asItems? = none := by
  cases result <;> rfl

theorem asItems?_rationalOr (result : Option Rational) : (rationalOr result).asItems? = none := by
  cases result <;> rfl

theorem asItems?_arithmetic (onIntegers : Int → Int → Int)
    (onRationals : Rational → Rational → Option Rational)
    (onFloats : Binary64 → Binary64 → Binary64) (a b : Cell) :
    (arithmetic onIntegers onRationals onFloats a b).asItems? = none := by
  unfold arithmetic
  split
  · exact asItems?_integerOr _
  · exact asItems?_rationalOr _
  · rfl
  · rfl

theorem asItems?_plus (a b : Cell) : (plus a b).asItems? = none := by
  unfold plus
  split
  · rfl
  · exact asItems?_arithmetic _ _ _ a b

theorem asItems?_divide (a b : Cell) : (divide a b).asItems? = none := by
  unfold divide
  split
  · split
    · rfl
    · exact asItems?_rationalOr _
  · split
    · rfl
    · exact asItems?_rationalOr _
  · split <;> rfl
  · rfl

theorem asItems?_power (a b : Cell) : (power a b).asItems? = none := by
  unfold power
  split
  · split
    · split
      · rfl
      · exact asItems?_rationalOr _
    · exact asItems?_integerOr _
  · split
    · split
      · rfl
      · exact asItems?_rationalOr _
    · rfl
  · rfl
  · rfl

theorem asItems?_integerDivision (operation : Int → Int → Int) (a b : Cell) :
    (integerDivision operation a b).asItems? = none := by
  unfold integerDivision
  split
  · split
    · rfl
    · split
      · rfl
      · exact asItems?_integerOr _
  · rfl

theorem asItems?_negate (a : Cell) : (negate a).asItems? = none := by
  unfold negate
  split
  · exact asItems?_integerOr _
  · exact asItems?_rationalOr _
  · rfl
  · rfl

theorem asItems?_logical (connective : Bool → Bool → Bool) (a b : Cell) :
    (logical connective a b).asItems? = none := by
  unfold logical
  split <;> rfl

theorem asItems?_negation (a : Cell) : (negation a).asItems? = none := by
  unfold negation
  split <;> rfl

theorem asItems?_length (a : Cell) : (length a).asItems? = none := by
  unfold length
  split <;> rfl

theorem asItems?_nthChar (a n : Cell) : (nthChar a n).asItems? = none := by
  unfold nthChar
  split
  · split <;> rfl
  · rfl

/-! ## Items and lists -/

theorem nthElement_wellFormed {a : Cell} (ha : a.WellFormed) (n : Cell) :
    (nthElement a n).WellFormed := by
  unfold nthElement
  split
  · rename_i items index _
    cases hItem : items[index]? with
    | none => exact .leaf rfl
    | some item => exact (Cell.wellFormed_list_iff.1 ha item (List.mem_of_getElem? hItem)).2.2
  · exact .leaf rfl

theorem concat_sound {a b : Cell} (ha : a.WellFormed) (hb : b.WellFormed) {finish : Cell → Native}
    (hFinish : ∀ result : Cell, result.WellFormed → (finish result).Sound) :
    (concat a b finish).Sound := by
  unfold concat
  split
  · exact hFinish _ (.leaf rfl)
  · rename_i xs _ ys
    split
    · rename_i l hList
      refine hFinish _ (CellList.build_wellFormed (fun cell hCell => ?_) hList)
      rcases List.mem_append.1 hCell with hCell | hCell
      · exact (Cell.wellFormed_list_iff.1 ha cell hCell).2.2
      · exact (Cell.wellFormed_list_iff.1 hb cell hCell).2.2
    · exact hFinish _ (.leaf rfl)
  · exact hFinish _ (.leaf rfl)

theorem write_sound (a b : Cell) {finish : Cell → Native}
    (hFinish : ∀ result : Cell, result.WellFormed → (finish result).Sound) :
    (write a b finish).Sound := by
  unfold write
  split
  · intro refusal
    cases refusal with
    | none => exact hFinish _ (.leaf rfl)
    | some reason => exact hFinish _ (.leaf rfl)
  · exact hFinish _ (.leaf rfl)

end Core

/-! ## Literals -/

namespace Literal

theorem readNumber?_plain {text : List Char} {cell : Cell} (h : readNumber? text = some cell) :
    cell.isReference = false ∧ cell.WellFormed := by
  unfold readNumber? at h
  split at h
  · cases h
    exact ⟨rfl, .leaf rfl⟩
  · split at h
    · simp only [Option.bind_eq_bind, Option.bind_eq_some_iff] at h
      obtain ⟨n, -, d, -, q, -, hCell⟩ := h
      cases hCell
      exact ⟨rfl, .leaf rfl⟩
    · obtain ⟨x, -, rfl⟩ := Option.map_eq_some_iff.1 h
      exact ⟨rfl, .leaf rfl⟩

/-- A literal is a value, and the only list among them is empty. -/
theorem read?_plain {text : List Char} {cell : Cell} (h : read? text = some cell) :
    cell.isReference = false ∧ cell.WellFormed := by
  unfold read? at h
  dsimp only at h
  split at h
  · cases h
    exact ⟨rfl, .leaf rfl⟩
  · split at h
    · cases h
      exact ⟨rfl, .leaf rfl⟩
    · split at h
      · cases h
        exact ⟨rfl, .leaf rfl⟩
      · split at h
        · cases h
          exact ⟨rfl, Cell.wellFormed_nil _⟩
        · split at h
          · cases h
            exact ⟨rfl, .leaf rfl⟩
          · exact readNumber?_plain h

end Literal

theorem Core.read_sound {args : Args} (h : args.Sound) : (Core.read args).Sound := by
  intro line
  cases line with
  | line text =>
      refine ⟨.leaf rfl, ?_⟩
      cases hLiteral : Literal.read? text.toList with
      | none => exact h.set 1 rfl (.leaf rfl)
      | some cell =>
          obtain ⟨hValue, hFormed⟩ := Literal.read?_plain hLiteral
          exact h.set 1 hValue hFormed
  | endOfInput => exact ⟨.leaf rfl, h⟩
  | malformed => exact ⟨.leaf rfl, h⟩

theorem Core.assign_sound {args : Args} (hCells : ∀ cell ∈ args.cells, cell.WellFormed)
    (hArgs : args.Sound) (hValue : ∀ cell, args.get? 1 = some cell → cell.isReference = false) :
    (Core.assign args).Sound := by
  have hTake : (args.take 1).1 = args.get? 1 := rfl
  have hRest := hArgs.take 1
  unfold Core.assign
  generalize args.take 1 = taken at hTake hRest
  obtain ⟨value, rest⟩ := taken
  cases value with
  | none => exact ⟨.leaf rfl, hRest⟩
  | some cell =>
      have hFormed := hCells cell (Args.mem_cells_of_get? hTake.symm)
      exact ⟨hFormed, hRest.set 0 (hValue cell hTake.symm) hFormed⟩

/-! ## The library -/

namespace CoreFunction

theorem argument_wellFormed {args : Args} (h : ∀ cell ∈ args.cells, cell.WellFormed)
    (index : Nat) : (argument args index).WellFormed := by
  unfold argument
  cases hGet : args.get? index with
  | none => exact .leaf rfl
  | some cell => exact h cell (Args.mem_cells_of_get? hGet)

/-- Of the functions that do nothing but compute a result, one gives back an item of a list, and the
others give back scalars. -/
theorem pure?_wellFormed {f : CoreFunction} {compute : Args → Cell} (hf : f.pure? = some compute)
    {args : Args} (h : ∀ cell ∈ args.cells, cell.WellFormed) : (compute args).WellFormed := by
  cases f with
  | plus => cases hf; exact .leaf (Core.asItems?_plus _ _)
  | minus => cases hf; exact .leaf (Core.asItems?_arithmetic _ _ _ _ _)
  | times => cases hf; exact .leaf (Core.asItems?_arithmetic _ _ _ _ _)
  | divide => cases hf; exact .leaf (Core.asItems?_divide _ _)
  | power => cases hf; exact .leaf (Core.asItems?_power _ _)
  | integerDivide => cases hf; exact .leaf (Core.asItems?_integerDivision _ _ _)
  | modulus => cases hf; exact .leaf (Core.asItems?_integerDivision _ _ _)
  | negate => cases hf; exact .leaf (Core.asItems?_negate _)
  | and => cases hf; exact .leaf (Core.asItems?_logical _ _ _)
  | or => cases hf; exact .leaf (Core.asItems?_logical _ _ _)
  | not => cases hf; exact .leaf (Core.asItems?_negation _)
  | length => cases hf; exact .leaf (Core.asItems?_length _)
  | nthElement => cases hf; exact Core.nthElement_wellFormed (argument_wellFormed h 0) _
  | nthChar => cases hf; exact .leaf (Core.asItems?_nthChar _ _)
  | concat => cases hf
  | assign => cases hf
  | write => cases hf
  | read => cases hf
  | _ =>
      -- The comparisons give back truth values.
      cases hf
      exact .leaf rfl

/-- An assignment needs a value to assign; the other functions need well-formed arguments only. -/
theorem resolve_sound {f : CoreFunction} {args : Args}
    (hCells : ∀ cell ∈ args.cells, cell.WellFormed) (hArgs : args.Sound)
    (hAssign : f = assign → ∀ cell, args.get? 1 = some cell → cell.isReference = false) :
    (f.resolve args).Sound := by
  have hDone : ∀ result : Cell, result.WellFormed → (Native.done result args).Sound :=
    fun result hResult => ⟨hResult, hArgs⟩
  unfold resolve
  split
  · rename_i compute hPure
    exact hDone _ (pure?_wellFormed hPure hCells)
  · rename_i hImpure
    split
    · exact Core.concat_sound (argument_wellFormed hCells 0) (argument_wellFormed hCells 1) hDone
    · exact Core.write_sound _ _ hDone
    · exact Core.read_sound hArgs
    · rename_i hConcat hWrite hRead
      refine Core.assign_sound hCells hArgs (hAssign ?_)
      cases f with
      | assign => rfl
      | concat => exact absurd rfl hConcat
      | write => exact absurd rfl hWrite
      | read => exact absurd rfl hRead
      | _ => cases hImpure

end CoreFunction
end CellMachine
