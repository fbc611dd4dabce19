import CellMachine.Core.Library
import CellMachine.Proofs.ElementWise

/-!
# The listable functions of the core library

Arithmetic, the comparisons of numbers and the logical connectives are operations on scalars: given
operands of the types that their parameters have, they give back a number or a truth value, or one
of two errors.  The branches for operands of other types are never taken.

Main statement: such a function, called with whatever its parameters take, is the zip of trees of
its scalar operation (`listable_call_is_treeZip`).  This is about the listable overloads; the
comparisons of texts and equality are NOT among them, since they look at lists as a whole.
-/

namespace CellMachine
namespace Core

/-! ## Results of the operations -/

/-- The errors of arithmetic. -/
def arithmeticErrors : List String := ["Error: Division by zero", "Error: Integer overflow"]

/-- The cell is of a type that the given one accepts, or an error of arithmetic. -/
def Gives (kind : CellType) (cell : Cell) : Prop :=
  kind.accepts cell.type = true ∨ ∃ message ∈ arithmeticErrors, cell = .error message

theorem divisionByZero_gives (kind : CellType) : Gives kind divisionByZero :=
  Or.inr ⟨_, by simp [arithmeticErrors], rfl⟩

theorem overflow_gives (kind : CellType) : Gives kind overflow :=
  Or.inr ⟨_, by simp [arithmeticErrors], rfl⟩

theorem integerOr_gives (result : Option Int64) : Gives .number (integerOr result) := by
  cases result with
  | none => exact overflow_gives _
  | some i => exact Or.inl rfl

theorem rationalOr_gives (result : Option Rational) : Gives .number (rationalOr result) := by
  cases result with
  | none => exact overflow_gives _
  | some q => exact Or.inl rfl

variable {a b : Cell}

theorem exists_num (h : CellType.number.accepts a.type = true) : ∃ n, Num.ofCell? a = some n := by
  cases a with
  | integer i => exact ⟨_, rfl⟩
  | float x => exact ⟨_, rfl⟩
  | rational q => exact ⟨_, rfl⟩
  | stream stream => cases stream <;> cases h
  | _ => cases h

theorem exists_operands (ha : CellType.number.accepts a.type = true)
    (hb : CellType.number.accepts b.type = true) : ∃ pair, operands? a b = some pair := by
  obtain ⟨n, hn⟩ := exists_num ha
  obtain ⟨k, hk⟩ := exists_num hb
  exact ⟨n.promote k, by simp [operands?, hn, hk]⟩

theorem arithmetic_gives (onIntegers : Int → Int → Int)
    (onRationals : Rational → Rational → Option Rational)
    (onFloats : Binary64 → Binary64 → Binary64) (ha : CellType.number.accepts a.type = true)
    (hb : CellType.number.accepts b.type = true) :
    Gives .number (arithmetic onIntegers onRationals onFloats a b) := by
  obtain ⟨pair, hPair⟩ := exists_operands ha hb
  unfold arithmetic
  rw [hPair]
  cases pair with
  | integers x y => exact integerOr_gives _
  | rationals x y => exact rationalOr_gives _
  | floats x y => exact Or.inl rfl

theorem plus_gives (ha : CellType.number.accepts a.type = true)
    (hb : CellType.number.accepts b.type = true) : Gives .number (plus a b) := by
  unfold plus
  split
  · cases ha
  · exact arithmetic_gives _ _ _ ha hb

theorem divide_gives (ha : CellType.number.accepts a.type = true)
    (hb : CellType.number.accepts b.type = true) : Gives .number (divide a b) := by
  obtain ⟨pair, hPair⟩ := exists_operands ha hb
  unfold divide
  rw [hPair]
  cases pair with
  | integers x y =>
      dsimp only
      split
      · exact divisionByZero_gives _
      · exact rationalOr_gives _
  | rationals x y =>
      dsimp only
      split
      · exact divisionByZero_gives _
      · exact rationalOr_gives _
  | floats x y =>
      dsimp only
      split
      · exact divisionByZero_gives _
      · exact Or.inl rfl

theorem power_gives (ha : CellType.number.accepts a.type = true)
    (hb : CellType.number.accepts b.type = true) : Gives .number (power a b) := by
  obtain ⟨pair, hPair⟩ := exists_operands ha hb
  unfold power
  rw [hPair]
  cases pair with
  | integers x y =>
      dsimp only
      split
      · split
        · exact divisionByZero_gives _
        · exact rationalOr_gives _
      · exact integerOr_gives _
  | rationals x y =>
      dsimp only
      split
      · split
        · exact divisionByZero_gives _
        · exact rationalOr_gives _
      · exact Or.inl rfl
  | floats x y => exact Or.inl rfl

theorem exists_integer (h : CellType.integer.accepts a.type = true) : ∃ i, a = .integer i := by
  cases a with
  | integer i => exact ⟨i, rfl⟩
  | stream stream => cases stream <;> cases h
  | _ => cases h

theorem integerDivision_gives (operation : Int → Int → Int)
    (ha : CellType.integer.accepts a.type = true) (hb : CellType.integer.accepts b.type = true) :
    Gives .number (integerDivision operation a b) := by
  obtain ⟨i, rfl⟩ := exists_integer ha
  obtain ⟨k, rfl⟩ := exists_integer hb
  unfold integerDivision
  simp only [Cell.asInteger?]
  split
  · exact divisionByZero_gives _
  · split
    · exact overflow_gives _
    · exact integerOr_gives _

theorem negate_gives (ha : CellType.number.accepts a.type = true) : Gives .number (negate a) := by
  obtain ⟨n, hn⟩ := exists_num ha
  unfold negate
  rw [hn]
  cases n with
  | integer i => exact integerOr_gives _
  | rational q => exact rationalOr_gives _
  | float x => exact Or.inl rfl

theorem ordered_gives (test : Ordering → Bool) (a b : Cell) : Gives .boolean (ordered test a b) :=
  Or.inl rfl

theorem exists_boolean (h : CellType.boolean.accepts a.type = true) : ∃ v, a = .boolean v := by
  cases a with
  | boolean v => exact ⟨v, rfl⟩
  | stream stream => cases stream <;> cases h
  | _ => cases h

theorem logical_gives (connective : Bool → Bool → Bool)
    (ha : CellType.boolean.accepts a.type = true) (hb : CellType.boolean.accepts b.type = true) :
    Gives .boolean (logical connective a b) := by
  obtain ⟨v, rfl⟩ := exists_boolean ha
  obtain ⟨w, rfl⟩ := exists_boolean hb
  exact Or.inl rfl

theorem negation_gives (ha : CellType.boolean.accepts a.type = true) :
    Gives .boolean (negation a) := by
  obtain ⟨v, rfl⟩ := exists_boolean ha
  exact Or.inl rfl

/-! ## The overloads -/

theorem argument_ofCells (args : Args) (index : Nat) :
    CoreFunction.argument (Args.ofCells args.cells) index = CoreFunction.argument args index := by
  simp [CoreFunction.argument, Args.get?, Args.ofCells, Args.cells, Function.comp_def]

variable {base kind returns : CellType} {f : CoreFunction} {compute : Args → Cell}

/-- A core overload on scalars of one type whose function computes a result from its arguments. -/
theorem entry_operates (name : String) (params : List String) (hParams : params ≠ [])
    (hBase : base.isScalar = true) (hKind : kind.isScalar = true) (hPure : f.pure? = some compute)
    (hCells : ∀ args : Args, compute (Args.ofCells args.cells) = compute args)
    (hGives : ∀ operands : List Cell, operands.length = params.length →
      (∀ cell ∈ operands, base.accepts cell.type = true) →
      Gives kind (compute (Args.ofCells operands))) :
    (entry name (params.map fun p => (p, base)) returns true f).Operates base kind
      arithmeticErrors := by
  have hScalar (operands : List Cell) :
      (entry name (params.map fun p => (p, base)) returns true f).scalar operands =
        compute (Args.ofCells operands) := by
    simp [Overload.scalar, entry, CoreFunction.resolve, hPure]
  refine ⟨hBase, hKind, ?_, ?_, rfl, fun execute args => ?_, fun operands hLength hAccepts => ?_⟩
  · intro p hp
    simp only [entry, List.map_map, List.mem_map] at hp
    obtain ⟨param, -, rfl⟩ := hp
    rfl
  · simpa [entry, Signature.arity, List.length_pos_iff] using hParams
  · rw [hScalar, hCells]
    simp only [Exec.runBody, entry, CoreFunction.resolve, hPure]
    rfl
  · rw [hScalar]
    exact hGives operands (by simpa [entry, Signature.arity] using hLength) hAccepts

theorem onTwo_operates (name : String) {operation : Cell → Cell → Cell}
    (hBase : base.isScalar = true) (hKind : kind.isScalar = true)
    (hPure : f.pure? = some fun args =>
      operation (CoreFunction.argument args 0) (CoreFunction.argument args 1))
    (hGives : ∀ a b : Cell, base.accepts a.type = true → base.accepts b.type = true →
      Gives kind (operation a b)) :
    (onTwo name base returns true f).Operates base kind arithmeticErrors := by
  refine entry_operates name ["x", "y"] (by simp) hBase hKind hPure
    (fun args => by simp only [argument_ofCells]) fun operands hLength hAccepts => ?_
  obtain ⟨a, b, rfl⟩ := List.length_eq_two.1 hLength
  exact hGives a b (hAccepts a (by simp)) (hAccepts b (by simp))

theorem onOne_operates (name : String) {operation : Cell → Cell}
    (hBase : base.isScalar = true) (hKind : kind.isScalar = true)
    (hPure : f.pure? = some fun args => operation (CoreFunction.argument args 0))
    (hGives : ∀ a : Cell, base.accepts a.type = true → Gives kind (operation a)) :
    (entry name [("x", base)] returns true f).Operates base kind arithmeticErrors := by
  refine entry_operates name ["x"] (by simp) hBase hKind hPure
    (fun args => by simp only [argument_ofCells]) fun operands hLength hAccepts => ?_
  obtain ⟨a, rfl⟩ := List.length_eq_one_iff.1 hLength
  exact hGives a (hAccepts a (by simp))

/-- The listable overloads of the library are operations on scalars. -/
theorem library_operates : ∀ o ∈ library, o.signature.flags.listable = true →
    ∃ base kind, o.Operates base kind arithmeticErrors := by
  have hNumbers (name : String) {f : CoreFunction} {operation : Cell → Cell → Cell}
      (hPure : f.pure? = some fun args =>
        operation (CoreFunction.argument args 0) (CoreFunction.argument args 1))
      (hGives : ∀ a b : Cell, CellType.number.accepts a.type = true →
        CellType.number.accepts b.type = true → Gives .number (operation a b)) :
      ∃ base kind, (onTwo name .number .number true f).Operates base kind arithmeticErrors :=
    ⟨.number, .number, onTwo_operates name rfl rfl hPure hGives⟩
  have hOrders (name : String) {f : CoreFunction} {test : Ordering → Bool}
      (hPure : f.pure? = some fun args =>
        ordered test (CoreFunction.argument args 0) (CoreFunction.argument args 1)) :
      ∃ base kind, (onTwo name .number .boolean true f).Operates base kind arithmeticErrors :=
    ⟨.number, .boolean, onTwo_operates name rfl rfl hPure fun a b _ _ => ordered_gives test a b⟩
  have hWhole {o : Overload} (h : o.signature.flags.listable = false)
      (hListable : o.signature.flags.listable = true) :
      ∃ base kind, o.Operates base kind arithmeticErrors := by
    rw [h] at hListable
    cases hListable
  unfold library
  simp only [List.forall_mem_cons]
  refine ⟨fun _ => hNumbers _ rfl fun _ _ => plus_gives, hWhole rfl,
    fun _ => hNumbers _ rfl fun _ _ => arithmetic_gives _ _ _,
    fun _ => hNumbers _ rfl fun _ _ => arithmetic_gives _ _ _,
    fun _ => hNumbers _ rfl fun _ _ => divide_gives,
    fun _ => hNumbers _ rfl fun _ _ => power_gives,
    fun _ => ⟨_, _, onTwo_operates _ rfl rfl rfl fun _ _ => integerDivision_gives _⟩,
    fun _ => ⟨_, _, onTwo_operates _ rfl rfl rfl fun _ _ => integerDivision_gives _⟩,
    fun _ => ⟨_, _, onOne_operates _ rfl rfl rfl fun _ => negate_gives⟩,
    hWhole rfl, hWhole rfl, fun _ => hOrders _ rfl, hWhole rfl, fun _ => hOrders _ rfl, hWhole rfl,
    fun _ => hOrders _ rfl, hWhole rfl, fun _ => hOrders _ rfl, hWhole rfl,
    fun _ => ⟨_, _, onTwo_operates _ rfl rfl rfl fun _ _ => logical_gives _⟩,
    fun _ => ⟨_, _, onTwo_operates _ rfl rfl rfl fun _ _ => logical_gives _⟩,
    fun _ => ⟨_, _, onOne_operates _ rfl rfl rfl fun _ => negation_gives⟩,
    hWhole rfl, hWhole rfl, hWhole rfl, hWhole rfl, hWhole rfl, hWhole rfl,
    (fun h => nomatch h), hWhole rfl, (fun h => nomatch h), fun o ho => nomatch ho⟩

end Core

/-! ## Calls -/

/-- The operands of a call of an operation on scalars have a greatest depth, and there is one for
each parameter. -/
theorem Overload.Operates.exists_graded {base kind : CellType} {errors : List String} {o : Overload}
    (ho : o.Operates base kind errors) {listable : Bool} {cells : List Cell}
    (h : List.Forall₂ (Param.Binds listable) o.signature.params cells) :
    cells.length = o.signature.arity ∧ ∃ depth, TreeZip.Graded base depth cells := by
  have hLength : cells.length = o.signature.arity := h.length_eq.symm
  refine ⟨hLength, TreeZip.exists_graded (fun cell hMem => ?_) ?_⟩
  · obtain ⟨index, hIndex, rfl⟩ := List.getElem_of_mem hMem
    have hParam := h.get (by rw [h.length_eq]; exact hIndex) hIndex
    have hType := ho.params _ (List.get_mem o.signature.params ⟨index, by rwa [h.length_eq]⟩)
    rw [hType] at hParam
    exact hParam.exists_atDepth ho.operand
  · rintro rfl
    have hPos := ho.arity_pos
    simp [← hLength] at hPos

/-- A call of a listable function of the core library is the zip of trees of its scalar operation.
Whatever is done on each application of the operation, an invocation does it for the applications up
to the first event that fails, in left-to-right, depth-first order, and gives back the outcome; so
nothing behind that event is evaluated.  The machine is left as it was except for the report of a
mismatch of lengths, the errors are three, and the outcome of one operand is nested as the operand
is. -/
theorem listable_call_is_treeZip {name : String} {overloads : List Overload} {c : PendingCall}
    {bound : BoundCall} (hBound : PendingCall.BoundFrom name overloads c)
    (hFinish : c.finish = .ok bound) (hLibrary : bound.overload ∈ Core.library)
    (hListable : bound.overload.signature.flags.listable = true) (execute : Code → Exec Ending) :
    let function := bound.overload.signature.name
    let f := bound.overload.scalar
    let cells := bound.args.cells
    (∀ visit : List Cell → Exec Unit,
      Exec.invoke (fun o args => do visit args.cells; Exec.runBody execute o args) bound.overload
          bound.args =
        (do
          TreeZip.perform visit function (TreeZip.happening f function (TreeZip.events cells))
          return (TreeZip.outcome f function cells, bound.args))) ∧
      (∀ m : Machine, ∃ m',
        Exec.invoke (Exec.runBody execute) bound.overload bound.args m =
          .ok (TreeZip.outcome f function cells, bound.args) m' ∧
        (m' = m ∨ m' = m.report (.listLengthMismatch function))) ∧
      (∀ message, TreeZip.outcome f function cells = .error message →
        message ∈ ["Error: Division by zero", "Error: Integer overflow",
          (Diagnostic.listLengthMismatch function).message]) ∧
      (∀ cell, cells = [cell] → (TreeZip.outcome f function cells).isError = false →
        (TreeZip.outcome f function cells).shape = cell.shape) := by
  dsimp only
  obtain ⟨base, kind, ho⟩ := Core.library_operates _ hLibrary hListable
  obtain ⟨hLength, depth, hGraded⟩ :=
    ho.exists_graded (PendingCall.binds_args hBound.consistent hFinish)
  have hInvoke (visit : List Cell → Exec Unit) :=
    TreeZip.invokeWithin_eq ho execute visit hGraded hLength (Nat.le_refl _)
  refine ⟨hInvoke, fun m => ?_, fun message hOutcome => ?_, fun cell hCells hValue => ?_⟩
  · -- A visit that does nothing leaves the body as it is.
    obtain ⟨m', hPerform, hReport⟩ := TreeZip.perform_silent bound.overload.scalar
      bound.overload.signature.name (TreeZip.events bound.args.cells) m
    refine ⟨m', ?_, hReport⟩
    have hSilent := hInvoke fun _ => pure ()
    simp only [pure_bind] at hSilent
    change Exec.invokeWithin (Exec.runBody execute bound.overload) _ _ _ m = _
    rw [hSilent]
    change Exec.bind _ _ m = _
    rw [Exec.bind, hPerform]
    rfl
  · have hMessage := TreeZip.message_of_outcome ho hGraded hLength hOutcome
    simpa [Core.arithmeticErrors, or_assoc] using hMessage
  · rw [hCells] at hGraded hLength hValue ⊢
    cases hFailure : TreeZip.failure? bound.overload.scalar bound.overload.signature.name
        (TreeZip.events [cell]) with
    | some message => simp [TreeZip.outcome, hFailure, Cell.isError] at hValue
    | none =>
        rw [TreeZip.outcome, hFailure]
        exact TreeZip.shape_zip ho hGraded hLength.symm hFailure

/-! ### Addition of a list of lists and a list -/

/-- Addition of numbers. -/
def plusNumbers : Overload := Core.onTwo "Plus" .number .number true .plus

def twoIntegers : Cell := .list .integer [.integer 1, .integer 2]

theorem twoIntegers_wellFormed : twoIntegers.WellFormed := by
  refine Cell.wellFormed_list_iff.2 (List.forall_mem_cons.2 ⟨⟨rfl, rfl, .leaf rfl⟩, ?_⟩)
  exact List.forall_mem_singleton.2 ⟨rfl, rfl, .leaf rfl⟩

/-- An addition to which a list of lists and a list are bound. -/
def pendingAddition : PendingCall :=
  (((PendingCall.init "Plus" [plusNumbers, Core.onTwo "Plus" .text .text false .plus]).bind
    (fun _ => true) none (.ofValue nestedIntegers) .automatic).1.bind
    (fun _ => true) none (.ofValue twoIntegers) .automatic).1

/-- The sums of the items of each list and the number it is paired with. -/
def nestedSums : Cell :=
  .list (.list .integer) [.list .undetermined [], .list .integer [.integer 6, .integer 7]]

namespace TreeZip

theorem outcome_nestedSums :
    outcome plusNumbers.scalar "Plus" [nestedIntegers, twoIntegers] = nestedSums := by
  have hRows : rows [nestedIntegers, twoIntegers] =
      [[.list .undetermined [], .integer 1],
        [.list .integer [.integer 4, .integer 5], .integer 2]] := rfl
  have hEmpty : rows [.list .undetermined [], .integer 1] = [] := rfl
  have hInner : rows [.list .integer [.integer 4, .integer 5], .integer 2] =
      [[.integer 4, .integer 2], [.integer 5, .integer 2]] := rfl
  have hEvents : events [nestedIntegers, twoIntegers] =
      [.apply [.integer 4, .integer 2], .apply [.integer 5, .integer 2]] := by
    rw [events_of_list rfl rfl, hRows, List.flatMap_cons, List.flatMap_singleton,
      events_of_list rfl rfl, hEmpty, events_of_list rfl rfl, hInner]
    simp [events_of_scalars, Cell.isList, Cell.asItems?]
  have hZip : zip plusNumbers.scalar [nestedIntegers, twoIntegers] = nestedSums := by
    rw [zip_of_list rfl, hRows, List.map_cons, List.map_singleton, zip_of_list rfl, hEmpty,
      zip_of_list rfl, hInner, List.map_cons, List.map_singleton, zip_of_scalars rfl,
      zip_of_scalars rfl]
    rfl
  rw [outcome, hEvents, hZip]
  rfl

end TreeZip

/-- The sums are nested as the deeper operand is. -/
theorem plus_nested_is_treeZip :
    ∃ m', Exec.invoke (Exec.runBody (Exec.execute 8)) plusNumbers
        (Args.ofCells [nestedIntegers, twoIntegers]) (Machine.bare 8 [] .fresh) =
      .ok (nestedSums, Args.ofCells [nestedIntegers, twoIntegers]) m' := by
  have hBound : PendingCall.BoundFrom "Plus"
      [plusNumbers, Core.onTwo "Plus" .text .text false .plus] pendingAddition :=
    .bind (.bind .init _ none .automatic nestedIntegers_wellFormed) _ none .automatic
      twoIntegers_wellFormed
  have hFinish : pendingAddition.finish =
      .ok ⟨plusNumbers, Args.ofCells [nestedIntegers, twoIntegers], [none, none]⟩ := rfl
  have hLibrary : plusNumbers ∈ Core.library := by
    unfold Core.library plusNumbers
    exact List.mem_cons_self
  obtain ⟨-, hInvoke, -⟩ :=
    listable_call_is_treeZip hBound hFinish hLibrary rfl (Exec.execute 8)
  obtain ⟨m', hResult, -⟩ := hInvoke (Machine.bare 8 [] .fresh)
  refine ⟨m', ?_⟩
  rw [← TreeZip.outcome_nestedSums]
  exact hResult

end CellMachine
