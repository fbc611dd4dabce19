import CellMachine.Proofs.Composition
import CellMachine.Proofs.Fractions
import CellMachine.Proofs.WellFormedState

/-!
# The data of a machine stays well formed

Cells come from many places: arithmetic, lists that are built from operands or from the results of
element-wise calls, literals that are read, defaults, and variables that are written back.  Whatever
an instruction does and however it ends, the data of the machine stay well formed.

Computations are described by `Yields x Q`: started in a well-formed machine, `x` leaves a
well-formed machine behind, and a value that satisfies `Q` if it gives one.  Main statement:
`execute_wellFormed`, about every instruction, every run and every execution.  Nothing is said about
native functions outside the core library; they may push and define what they like.
-/

namespace CellMachine

/-! ## Computations -/

/-- A machine that is left behind is well formed, and a value that is given satisfies `Q`. -/
def Outcome.Sound {α : Type} (Q : α → Prop) : Outcome α → Prop
  | ok value m => m.WellFormed ∧ Q value
  | fault _ m => m.WellFormed
  | exhausted => True

theorem Outcome.Sound.wellFormed {α : Type} {Q : α → Prop} {o : Outcome α} (h : o.Sound Q)
    {m : Machine} (hEnds : o.machine? = some m) : m.WellFormed := by
  cases o with
  | ok value m' =>
      cases hEnds
      exact h.1
  | fault cause m' =>
      cases hEnds
      exact h
  | exhausted => cases hEnds

theorem Outcome.Sound.onMachine {α : Type} {Q : α → Prop} {o : Outcome α} (h : o.Sound Q)
    {f : Machine → Machine} (hf : ∀ m : Machine, m.WellFormed → (f m).WellFormed) :
    (o.onMachine f).Sound Q := by
  cases o with
  | ok value m => exact ⟨hf m h.1, h.2⟩
  | fault cause m => exact hf m h
  | exhausted => trivial

namespace Exec

variable {α β : Type} {Q : α → Prop} {R : β → Prop}

/-- Started in a well-formed machine, the computation leaves a well-formed machine behind, and a
value that satisfies `Q` if it gives one. -/
def Yields (x : Exec α) (Q : α → Prop) : Prop := ∀ m : Machine, m.WellFormed → (x m).Sound Q

namespace Yields

theorem pure {value : α} (h : Q value) : Yields (Pure.pure value) Q := fun _ hm => ⟨hm, h⟩

theorem bind {x : Exec α} {f : α → Exec β} (hx : Yields x Q)
    (hf : ∀ a, Q a → Yields (f a) R) : Yields (x >>= f) R := by
  intro m hm
  have hFirst := hx m hm
  change (Exec.bind x f m).Sound R
  unfold Exec.bind
  cases hOutcome : x m with
  | ok value m' =>
      rw [hOutcome] at hFirst
      exact hf value hFirst.2 m' hFirst.1
  | fault cause m' =>
      rw [hOutcome] at hFirst
      exact hFirst
  | exhausted => trivial

theorem lift {f : Machine → α × Machine}
    (hf : ∀ m : Machine, m.WellFormed → (f m).2.WellFormed ∧ Q (f m).1) : Yields (Exec.lift f) Q :=
  fun m hm => hf m hm

/-- A computation whose value does not matter. -/
theorem lift_of_keeps {f : Machine → α × Machine}
    (hf : ∀ m : Machine, m.WellFormed → (f m).2.WellFormed) : Yields (Exec.lift f) fun _ => True :=
  lift fun m hm => ⟨hf m hm, trivial⟩

theorem modify {f : Machine → Machine} (hf : ∀ m : Machine, m.WellFormed → (f m).WellFormed) :
    Yields (Exec.modify f) fun _ => True := fun m hm => ⟨hf m hm, trivial⟩

theorem observe (f : Machine → α) : Yields (Exec.observe f) fun _ => True :=
  fun _ hm => ⟨hm, trivial⟩

theorem fault (cause : Fault) : Yields (Exec.fault cause : Exec α) Q := fun _ hm => hm

theorem attempt {x : Exec α} (hx : Yields x Q) :
    Yields (Exec.attempt x) fun answer => ∀ a, answer = .ok a → Q a := by
  intro m hm
  have hOutcome := hx m hm
  unfold Exec.attempt
  split
  · rename_i hEq
    rw [hEq] at hOutcome
    refine ⟨hOutcome.1, fun a ha => ?_⟩
    cases ha
    exact hOutcome.2
  · rename_i hEq
    rw [hEq] at hOutcome
    exact ⟨hOutcome, fun a ha => by cases ha⟩
  · trivial

theorem inFrame {x : Exec α} (hx : Yields x Q) : Yields (framed x) Q := by
  intro m hm
  rw [framed_eq]
  exact (hx m.enter hm.enter).onMachine fun _ h => h.leave

theorem settling {x : Exec α} (hx : Yields x Q) : Yields (Exec.settling x) Q := by
  intro m hm
  rw [settling_eq]
  exact (hx m hm).onMachine fun _ h => h.settle _

end Yields

/-! ### The active frame -/

theorem pop_yields : Yields pop Cell.WellFormed := by
  intro m hm
  have hStack := hm.stack
  unfold pop
  split
  · exact hm
  · rename_i hCells
    rw [hCells, List.forall_mem_cons] at hStack
    exact ⟨hm.setStack hStack.2, hStack.1⟩

theorem push_yields {cell : Cell} (h : cell.WellFormed) : Yields (push cell) fun _ => True :=
  Yields.modify fun _ hm => hm.push h

theorem resolve_yields {cell : Cell} (h : cell.WellFormed) : Yields (resolve cell) Cell.WellFormed :=
  Yields.lift fun _ hm => hm.resolve h

theorem report_yields (d : Diagnostic) : Yields (report d) fun _ => True :=
  Yields.modify fun _ hm => hm.report d

theorem failWith_yields (d : Diagnostic) : Yields (failWith d) Cell.WellFormed :=
  (report_yields d).bind fun _ _ => Yields.pure (.leaf rfl)

theorem pushList_yields (count : Nat) : Yields (pushList count) fun _ => True := by
  intro m hm
  have hStack := hm.stack
  unfold pushList Operands.popMany
  by_cases hShort : m.stack.length < count
  · simp only [hShort, if_true]
    exact hm
  · simp only [hShort, if_false]
    have hRest : (m.setStack (m.stack.drop count)).WellFormed :=
      hm.setStack fun cell hCell => hStack cell (List.mem_of_mem_drop hCell)
    have hCells : ∀ cell ∈ (m.stack.take count).reverse, cell.WellFormed := fun cell hCell =>
      hStack cell (List.mem_of_mem_take (List.mem_reverse.1 hCell))
    obtain ⟨hAfter, hList⟩ := hRest.gather (Cell.wellFormed_nil .undetermined) hCells
    rw [List.append_nil] at hList
    exact ⟨hAfter.push hList, trivial⟩

theorem unassign_yields : Yields unassign fun _ => True := by
  refine pop_yields.bind fun cell hCell => ?_
  have hDone (answer : Bool) : Yields (Pure.pure answer : Exec Bool) fun _ => True :=
    Yields.pure trivial
  cases cell with
  | reference name =>
      refine (Yields.observe _).bind fun defined _ => ?_
      cases defined with
      | true =>
          refine (Yields.lift (Q := fun value => ∀ cell, value = some cell → cell.WellFormed)
            fun m hm => hm.remove name).bind fun value hValue => ?_
          cases value with
          | some cell => exact (push_yields (hValue cell rfl)).bind fun _ _ => hDone true
          | none => exact hDone true
      | false =>
          exact (report_yields _).bind fun _ _ => (push_yields hCell).bind fun _ _ => hDone false
  | _ => exact (push_yields hCell).bind fun _ _ => (report_yields _).bind fun _ _ => hDone false

theorem output_yields : Yields output fun _ => True := by
  refine pop_yields.bind fun top hTop => (resolve_yields hTop).bind fun cell hCell => ?_
  refine (Yields.lift_of_keeps fun m hm => hm.print _).bind fun written _ => ?_
  exact (push_yields hCell).bind fun _ _ => Yields.pure trivial

/-! ### Pending calls -/

theorem popArgument_yields : Yields popArgument fun a => a.cell.WellFormed := by
  refine pop_yields.bind fun cell hCell => ?_
  cases cell with
  | reference name => exact (resolve_yields hCell).bind fun value hValue => Yields.pure hValue
  | _ => exact Yields.pure hCell

theorem bindArgument_yields (param : Option String) (mode : PassMode) {a : Argument}
    (ha : a.cell.WellFormed) : Yields (bindArgument param mode a) fun _ => True := by
  intro m hm
  have hCalls := hm.pending
  unfold bindArgument
  cases hPending : m.pending with
  | nil => exact hm
  | cons innermost outer =>
      rw [hPending, List.forall_mem_cons] at hCalls
      have hBound : ({ m with pending := (innermost.bind Handle.valid param a mode).1 :: outer } :
          Machine).WellFormed :=
        ⟨hm.active, hm.waiting, List.forall_mem_cons.2
          ⟨hCalls.1.bind Handle.valid param mode ha, hCalls.2⟩, hm.registry⟩
      dsimp only
      split
      · exact ⟨hm, trivial⟩
      · split
        · exact ⟨hBound, trivial⟩
        · exact ⟨hBound.report _, trivial⟩

theorem bindTop_yields (param : Option String) (mode : PassMode) :
    Yields (bindTop param mode) fun _ => True := by
  intro m hm
  rw [bindTop_eq]
  split
  · exact hm
  · exact (popArgument_yields.bind fun a ha => bindArgument_yields param mode ha) m hm

theorem takePending_yields : Yields takePending PendingCall.WellFormed := by
  intro m hm
  have hCalls := hm.pending
  unfold takePending
  cases hPending : m.pending with
  | nil => exact hm
  | cons innermost outer =>
      rw [hPending, List.forall_mem_cons] at hCalls
      exact ⟨{ hm with pending := hCalls.2 }, hCalls.1⟩

end Exec

/-! ## Arguments -/

/-- The cell is well formed, and a value if it is passed by value and not a default. -/
structure Param.Passes (p : Param) (cell : Cell) : Prop where
  formed : cell.WellFormed
  byValue : p.byRef = false → p.default = none → cell.isReference = false

/-- One cell for each parameter, passed as the parameter asks. -/
def Signature.Passes (s : Signature) (cells : List Cell) : Prop :=
  List.Forall₂ Param.Passes s.params cells

theorem Signature.Passes.wellFormed {s : Signature} {cells : List Cell} (h : s.Passes cells) :
    ∀ cell ∈ cells, cell.WellFormed := by
  unfold Passes at h
  generalize s.params = params at h
  induction h with
  | nil => exact fun _ hCell => by cases hCell
  | cons hFirst _ ih => exact List.forall_mem_cons.2 ⟨hFirst.formed, ih⟩

theorem Signature.Passes.passes_get? {s : Signature} {args : Args} (h : s.Passes args.cells)
    {index : Nat} {p : Param} {cell : Cell} (hp : s.params[index]? = some p)
    (hCell : args.get? index = some cell) : p.Passes cell := by
  have hCells : args.cells[index]? = some cell := by
    unfold Args.cells
    rw [List.getElem?_map]
    exact hCell
  obtain ⟨hParam, rfl⟩ := List.getElem?_eq_some_iff.1 hp
  obtain ⟨hArg, rfl⟩ := List.getElem?_eq_some_iff.1 hCells
  exact List.Forall₂.get h hParam hArg

/-- The share of an element-wise call is an item of a well-formed list or what was passed. -/
theorem Param.Passes.element {p : Param} {cell : Cell} (h : p.Passes cell) (index : Nat) :
    p.Passes ((Spread.ofParam p cell).element index) := by
  unfold Spread.ofParam Spread.element
  dsimp only
  split
  · rename_i items _
    cases hItem : items[index]? with
    | none => exact ⟨.leaf rfl, fun _ _ => rfl⟩
    | some item =>
        obtain ⟨hValue, -, hFormed⟩ :=
          Cell.wellFormed_list_iff.1 h.formed item (List.mem_of_getElem? hItem)
        exact ⟨hFormed, fun _ _ => hValue⟩
  · exact h

/-- A call that finishes passes on what is in its slots and the defaults of its overload. -/
theorem PendingCall.WellFormed.passes {c : PendingCall} (h : c.WellFormed) {bound : BoundCall}
    (hFinish : c.finish = .ok bound) : bound.overload.signature.Passes bound.args.cells := by
  obtain ⟨hViable, -, -⟩ := finish_eq_ok hFinish
  refine forall₂_args hFinish fun position p hp => ?_
  cases hSlot : c.slot? position with
  | some a =>
      exact ⟨h.slots position a hSlot,
        fun hByValue _ => h.byValue position a hSlot _ hViable p hp hByValue⟩
  | none =>
      unfold cellFor
      cases hDefault : p.default with
      | none => exact ⟨.leaf rfl, fun _ _ => rfl⟩
      | some cell =>
          refine ⟨(h.viable _ hViable).defaults p (List.mem_of_getElem? hp) cell hDefault, ?_⟩
          intro _ hNone
          rw [hDefault] at hNone
          cases hNone

namespace Exec

/-! ## Bodies and calls -/

theorem runNative_yields {execute : Code → Exec Ending} {native : Native} (h : native.Sound) :
    Yields (runNative execute native) Answers := by
  induction native with
  | done result args => exact Yields.pure h
  | report d next ih => exact (report_yields d).bind fun _ _ => ih h
  | write stream text next ih =>
      exact (Yields.lift_of_keeps fun m hm => hm.writeStream stream text).bind fun refusal _ =>
        ih refusal (h refusal)
  | readLine next ih =>
      exact (Yields.lift_of_keeps fun m hm => hm.of_same rfl rfl rfl).bind fun line _ =>
        ih line (h line)
  | push cell next ih => exact h.elim
  | pop next ih => exact h.elim
  | define name cell next ih => exact h.elim
  | execute code next ih => exact h.elim
  | teardown next ih => exact h.elim
  | depths next ih => exact h.elim

theorem defineParams_yields {entries : List (Param × Cell)}
    (h : ∀ entry ∈ entries, entry.2.WellFormed) : Yields (defineParams entries) fun _ => True := by
  induction entries with
  | nil => exact Yields.pure trivial
  | cons entry rest ih =>
      obtain ⟨p, cell⟩ := entry
      rw [List.forall_mem_cons] at h
      rw [defineParams]
      by_cases hReference : (!cell.isReference) = true
      · rw [if_pos hReference]
        have hValue : cell.isReference = false := by simpa using hReference
        exact (Yields.lift_of_keeps fun m hm => hm.define p.name hValue h.1).bind fun _ _ => ih h.2
      · rw [if_neg hReference]
        exact ih h.2

theorem bodyResult_yields (ending : Ending) : Yields (bodyResult ending) Cell.WellFormed := by
  cases ending with
  | success =>
      refine pop_yields.attempt.bind fun top hTop => ?_
      cases top with
      | error cause => exact Yields.pure (.leaf rfl)
      | ok top =>
          refine (resolve_yields (hTop top rfl)).bind fun cell hCell => ?_
          cases cell with
          | reference name => exact Yields.pure (.leaf rfl)
          | _ => exact Yields.pure hCell
  | quit => exact Yields.pure (.leaf rfl)
  | failure line => exact Yields.pure (.leaf rfl)

/-- What is copied out of a table is a well-formed value. -/
theorem copyOut_yields (params : List Param) (index : Nat) {args : Args} (h : args.Sound) :
    Yields (copyOut params index args) Args.Sound := by
  induction params generalizing index args with
  | nil => exact Yields.pure h
  | cons p rest ih =>
      rw [copyOut]
      by_cases hByRef : p.byRef = true
      · rw [if_pos hByRef]
        refine (Yields.lift (Q := fun value => ∀ cell, value = some cell →
          cell.isReference = false ∧ cell.WellFormed) fun m hm => ?_).bind fun value hValue => ?_
        · split
          · rename_i cell scope hRemove
            obtain ⟨hScope, hCell⟩ := hm.active.scope.remove hRemove
            refine ⟨hm.setScope hScope, fun other hOther => ?_⟩
            cases hOther
            exact hCell
          · exact ⟨hm, fun cell hCell => by cases hCell⟩
        · cases value with
          | some cell => exact ih (index + 1) (h.set index (hValue cell rfl).1 (hValue cell rfl).2)
          | none => exact ih (index + 1) h
      · rw [if_neg hByRef]
        exact ih (index + 1) h

theorem runUser_yields {execute : Code → Exec Ending} {signature : Signature} {code : Code}
    {args : Args} (hExecute : Yields (execute code) fun _ => True)
    (hCells : ∀ cell ∈ args.cells, cell.WellFormed) (hArgs : args.Sound) :
    Yields (runUser execute signature code args) Answers := by
  have hCallee : Yields (inCallee execute signature code args) Answers := by
    refine (defineParams_yields fun entry hEntry => ?_).bind fun _ _ => ?_
    · exact hCells entry.2 (List.of_mem_zip hEntry).2
    · refine hExecute.bind fun ending _ => (bodyResult_yields ending).bind fun result hResult => ?_
      exact (copyOut_yields _ 0 hArgs).bind fun args hArgs => Yields.pure ⟨hResult, hArgs⟩
  intro m hm
  rw [runUser_eq]
  split
  · exact ⟨hm, .leaf rfl, hArgs⟩
  · exact hCallee.inFrame m hm

/-- Of the core functions only an assignment passes an argument on, and it takes that by value. -/
theorem runBody_yields {execute : Code → Exec Ending}
    (hExecute : ∀ code : Code, code.WellFormed → Yields (execute code) fun _ => True)
    {o : Overload} (ho : o.WellFormed) {args : Args} (hPasses : o.signature.Passes args.cells)
    (hArgs : args.Sound) : Yields (runBody execute o args) Answers := by
  unfold runBody
  cases hBody : o.body with
  | native resolve =>
      obtain ⟨f, hCore, hAssign⟩ := Core.library_isCore o (ho.native resolve hBody)
      rw [hBody] at hCore
      cases hCore
      refine runNative_yields (CoreFunction.resolve_sound hPasses.wellFormed hArgs ?_)
      intro hf cell hGet
      have hSecond : o.signature.params[1]? = some (.byValue "y" .any) := by rw [hAssign hf]; rfl
      exact (hPasses.passes_get? hSecond hGet).byValue rfl rfl
  | user code => exact runUser_yields (hExecute code (ho.user code hBody)) hPasses.wellFormed hArgs

theorem collect_yields {inner : List Cell → Exec Cell} {rows : List (List Cell)}
    (hInner : ∀ row ∈ rows, Yields (inner row) Cell.WellFormed) {element : CellType}
    {done : List Cell} (hDone : (Cell.list element done).WellFormed) :
    Yields (collect inner element done rows) Cell.WellFormed := by
  induction rows generalizing element done with
  | nil => exact Yields.pure (hDone.of_subset (List.reverse_perm done).subset)
  | cons row rest ih =>
      rw [List.forall_mem_cons] at hInner
      refine hInner.1.bind fun result hResult => ?_
      by_cases hError : result.isError = true
      · rw [if_pos hError]
        exact Yields.pure hResult
      · rw [if_neg hError]
        cases hAbsorb : element.absorb result with
        | ok merged => exact ih hInner.2 (hDone.absorb hResult hAbsorb)
        | error _ => exact failWith_yields _

theorem broadcast_yields {inner : List Cell → Exec Cell} {signature : Signature} {args : Args}
    (hPasses : signature.Passes args.cells)
    (hInner : ∀ cells, signature.Passes cells → Yields (inner cells) Cell.WellFormed) :
    Yields (broadcast inner signature args) Cell.WellFormed := by
  unfold broadcast
  dsimp only
  split
  · exact failWith_yields _
  · rename_i count hCount
    refine collect_yields (fun row hRow => hInner row ?_) (Cell.wellFormed_nil _)
    exact Spread.forall₂_rows hCount hPasses (fun p _ cell index h _ => h.element index) hRow

/-- The induction is on the levels of element-wise application; the arguments go on being passed as
their parameters ask. -/
theorem invokeWithin_yields {run : Args → Exec (Cell × Args)} {signature : Signature}
    (hRun : ∀ args, signature.Passes args.cells → args.Sound → Yields (run args) Answers)
    (levels : Nat) {args : Args} (hPasses : signature.Passes args.cells) (hArgs : args.Sound) :
    Yields (invokeWithin run signature levels args) Answers := by
  induction levels generalizing args with
  | zero =>
      rw [invokeWithin]
      split
      · exact (failWith_yields _).bind fun result hResult => Yields.pure ⟨hResult, hArgs⟩
      · split
        · exact fun _ _ => trivial
        · exact hRun args hPasses hArgs
  | succ levels ih =>
      rw [invokeWithin]
      split
      · exact (failWith_yields _).bind fun result hResult => Yields.pure ⟨hResult, hArgs⟩
      · split
        · refine (broadcast_yields hPasses fun cells hCells => ?_).bind fun result hResult =>
            Yields.pure ⟨hResult, hArgs⟩
          rw [← Args.cells_ofCells cells] at hCells
          exact (ih hCells (Args.ofCells_sound cells)).bind fun answer hAnswer =>
            Yields.pure hAnswer.1
        · exact hRun args hPasses hArgs

theorem writeBack_yields {args : Args} (h : args.Sound) (targets : List (Option String))
    (index : Nat) : Yields (writeBack args targets index) fun _ => True := by
  induction targets generalizing index with
  | nil => exact Yields.pure trivial
  | cons target rest ih =>
      cases target with
      | none => exact ih (index + 1)
      | some name =>
          rw [writeBack]
          by_cases hRebound : args.isRebound index = true
          · rw [if_pos hRebound]
            cases hGet : args.get? index with
            | some cell =>
                obtain ⟨hValue, hFormed⟩ := h.get? hRebound hGet
                exact (Yields.lift_of_keeps fun m hm => hm.define name hValue hFormed).bind
                  fun _ _ => (ih (index + 1)).bind fun _ _ => Yields.pure trivial
            | none => exact ih (index + 1)
          · rw [if_neg hRebound]
            exact ih (index + 1)

theorem call_yields {execute : Code → Exec Ending}
    (hExecute : ∀ code : Code, code.WellFormed → Yields (execute code) fun _ => True) :
    Yields (call execute) fun _ => True := by
  refine takePending_yields.bind fun pending hPending => ?_
  unfold makeCall
  cases hFinish : pending.finish with
  | error d =>
      have hPush : Yields (push (.error d.message) >>= fun _ => Pure.pure false) fun _ => True :=
        (push_yields (.leaf rfl)).bind fun _ _ => Yields.pure trivial
      by_cases hFailed : (!pending.failed) = true
      · simp only [hFailed, if_true]
        exact (report_yields d).bind fun _ _ => hPush
      · simp only [hFailed]
        exact hPush
  | ok bound =>
      obtain ⟨hViable, -, hArgs, -⟩ := PendingCall.finish_eq_ok hFinish
      have hFunction := hPending.viable _ hViable
      refine (invokeWithin_yields (fun args hPasses hArgs =>
        runBody_yields hExecute hFunction hPasses hArgs) _ (hPending.passes hFinish) ?_).bind
          fun answer hAnswer => ?_
      · rw [hArgs]
        exact Args.ofCells_sound _
      · obtain ⟨result, args⟩ := answer
        refine (push_yields hAnswer.1).bind fun _ _ => ?_
        exact (writeBack_yields hAnswer.2 _ _).bind fun _ _ => Yields.pure trivial

/-! ## Instructions -/

section Instructions

variable {execute : Code → Exec Ending}
  (hExecute : ∀ code : Code, code.WellFormed → Yields (execute code) fun _ => True)

include hExecute

/-- The program behind an operator has no constants. -/
theorem operator_yields (function : String) (operands : Nat) :
    Yields (operator execute function operands) fun _ => True := by
  refine (hExecute _ fun instruction hMember => ?_).bind fun _ _ => Yields.pure trivial
  rcases mem_operatorCode hMember with hOp | hOp | hOp
  · rw [hOp]
    trivial
  · rw [hOp]
    trivial
  · rw [hOp]
    trivial

theorem binary_yields (op : BinaryOp) : Yields (binary execute op) fun _ => True := by
  have hPlain (function : String) {first second : Cell} (hFirst : first.WellFormed)
      (hSecond : second.WellFormed) : Yields
        (push first >>= fun _ => push second >>= fun _ => operator execute function 2)
        fun _ => True :=
    (push_yields hFirst).bind fun _ _ => (push_yields hSecond).bind fun _ _ =>
      operator_yields hExecute function 2
  refine pop_yields.bind fun right hRight => pop_yields.bind fun left hLeft => ?_
  cases op with
  | subscript =>
      refine (resolve_yields hLeft).bind fun left hLeft => ?_
      exact (resolve_yields hRight).bind fun right hRight => hPlain _ hRight hLeft
  | _ => exact hPlain _ hRight hLeft

/-- Every instruction keeps the invariant if the runs do that it starts. -/
theorem step_yields {op : Op} (hOp : op.WellFormed) : Yields (step execute op) fun _ => True := by
  have hDone : Yields (Pure.pure true : Exec Bool) fun _ => True := Yields.pure trivial
  cases op with
  | push constant => exact (push_yields hOp).bind fun _ _ => hDone
  | pushRef name => exact (push_yields (.leaf rfl)).bind fun _ _ => hDone
  | pushList count => exact pushList_yields count
  | pop => exact pop_yields.attempt.bind fun _ _ => hDone
  | flush => exact (Yields.modify fun _ hm => hm.flush).bind fun _ _ => hDone
  | dump => exact Yields.lift_of_keeps fun m hm => hm.dump
  | output => exact output_yields
  | clear => exact (Yields.modify fun _ hm => hm.clear).bind fun _ _ => hDone
  | unassign => exact unassign_yields
  | unary op => exact operator_yields hExecute op.functionName 1
  | binary op => exact binary_yields hExecute op
  | initCall function => exact Yields.lift_of_keeps fun m hm => hm.initCall function
  | bind param mode => exact bindTop_yields param mode
  | call => exact call_yields hExecute
  | help function => exact Yields.lift_of_keeps fun m hm => hm.help function
  | jump target => exact hDone
  | jumpIf target => exact hDone
  | quit => exact hDone

end Instructions

/-! ## Runs -/

/-- Perform the instruction at an index: the run goes on at an index, or it ends. -/
def advance (execute : Code → Exec Ending) (code : Code) (index : Nat) : Exec (Nat ⊕ Ending) :=
  match code[index]? with
  | none => return .inr .success
  | some instruction =>
    match instruction.op with
    | .quit => return .inr .quit
    | .jump target => do return .inl (← jumpIndex target code.size)
    | .jumpIf target => do
      let condition ← pop
      match ← resolve condition with
      | .boolean true => return .inl (← jumpIndex target code.size)
      | .boolean false => return .inl (index + 1)
      | other => do
        push other
        fault (.nonBooleanCondition instruction.line)
    | op => do
      if ← step execute op then return .inl (index + 1)
      else return .inr (.failure instruction.line)

/-- Go on where an instruction leads. -/
def proceed (fuel : Nat) (code : Code) : Nat ⊕ Ending → Exec Ending
  | .inl next => runFrom fuel code next
  | .inr ending => return ending

/-- A run performs one instruction after the other. -/
theorem runFrom_succ_eq (fuel : Nat) (code : Code) (index : Nat) :
    runFrom (fuel + 1) code index = advance (execute fuel) code index >>= proceed fuel code := by
  rw [runFrom, advance]
  cases code[index]? with
  | none => rfl
  | some instruction =>
      obtain ⟨op, line⟩ := instruction
      cases op with
      | quit => rfl
      | jump target =>
          dsimp only
          rw [bind_assoc]
          rfl
      | jumpIf target =>
          dsimp only
          rw [bind_assoc]
          congr 1
          funext condition
          rw [bind_assoc]
          congr 1
          funext value
          cases value with
          | boolean b =>
              cases b with
              | true =>
                  dsimp only
                  rw [bind_assoc]
                  rfl
              | false => rfl
          | _ => rfl
      | _ =>
          dsimp only
          rw [bind_assoc]
          congr 1
          funext succeeded
          cases succeeded <;> rfl

theorem jumpIndex_yields (target length : Nat) :
    Yields (jumpIndex target length) fun _ => True := by
  unfold jumpIndex
  split
  · exact Yields.pure trivial
  · exact Yields.fault _

theorem advance_yields {execute : Code → Exec Ending}
    (hExecute : ∀ code : Code, code.WellFormed → Yields (execute code) fun _ => True) {code : Code}
    (hCode : code.WellFormed) (index : Nat) : Yields (advance execute code index) fun _ => True := by
  unfold advance
  split
  · exact Yields.pure trivial
  · rename_i instruction hAt
    have hOp : instruction.op.WellFormed := hCode instruction (Array.mem_of_getElem? hAt)
    split
    · exact Yields.pure trivial
    · exact (jumpIndex_yields _ _).bind fun _ _ => Yields.pure trivial
    · refine pop_yields.bind fun condition hCondition => ?_
      refine (resolve_yields hCondition).bind fun value hValue => ?_
      split
      · exact (jumpIndex_yields _ _).bind fun _ _ => Yields.pure trivial
      · exact Yields.pure trivial
      · exact (push_yields hValue).bind fun _ _ => Yields.fault _
    · refine (step_yields hExecute hOp).bind fun succeeded _ => ?_
      cases succeeded with
      | true => exact Yields.pure trivial
      | false => exact Yields.pure trivial

/-- The induction is on the step allowance, which the runs that an instruction starts have less
of. -/
theorem runFrom_yields (fuel : Nat) {code : Code} (hCode : code.WellFormed) (index : Nat) :
    Yields (runFrom fuel code index) fun _ => True := by
  induction fuel generalizing code index with
  | zero => exact fun _ _ => trivial
  | succ fuel ih =>
      rw [runFrom_succ_eq]
      have hNested (body : Code) (hBody : body.WellFormed) :
          Yields (execute fuel body) fun _ => True := (ih hBody 0).settling
      refine (advance_yields hNested hCode index).bind fun next _ => ?_
      cases next with
      | inl next => exact ih hCode next
      | inr ending => exact Yields.pure trivial

theorem execute_yields (fuel : Nat) {code : Code} (hCode : code.WellFormed) :
    Yields (execute fuel code) fun _ => True := (runFrom_yields fuel hCode 0).settling

end Exec

/-- From a well-formed machine every instruction of a program with well-formed constants, every run
of the program from any index on and every execution of it end in a well-formed machine, whether
they end with a value or with a fault.  The fractions in it are in lowest terms because those are
what the operations on fractions form: no result is refused for another reason than its size. -/
theorem execute_wellFormed {m : Machine} (hm : m.WellFormed) {code : Code}
    (hCode : code.WellFormed) (fuel : Nat) :
    (∀ index m', (Exec.advance (Exec.execute fuel) code index m).machine? = some m' →
        m'.WellFormed) ∧
      (∀ index m', (Exec.runFrom fuel code index m).machine? = some m' → m'.WellFormed) ∧
      (∀ m', (Exec.execute fuel code m).machine? = some m' → m'.WellFormed) ∧
      (∀ num den : Int, 0 < den → ∀ q, Rational.reduce? num den = some q ↔ q.Denotes num den) ∧
      (∀ p q : Rational, p.neg? = some q ↔ q.Denotes (-p.num.toInt) p.den.toInt) ∧
      ∀ p q : Rational, q.isZero = false → ∀ num den, p.quotient? q = some (num, den) →
        ∀ r, p.div? q = some r ↔ r.Denotes num.toInt den.toInt := by
  refine ⟨fun index m' hEnds => ?_, fun index m' hEnds => ?_, fun m' hEnds => ?_,
    fun num den hDen q => Rational.reduce?_eq_some_iff hDen, fun p q => Rational.neg?_eq_some_iff,
    fun p q hNonzero num den hQuotient r => Rational.div?_eq_some_iff hNonzero hQuotient⟩
  · have hNested (body : Code) (hBody : body.WellFormed) := Exec.execute_yields fuel hBody
    exact (Exec.advance_yields hNested hCode index m hm).wellFormed hEnds
  · exact (Exec.runFrom_yields fuel hCode index m hm).wellFormed hEnds
  · exact (Exec.execute_yields fuel hCode m hm).wellFormed hEnds

/-! ### Lists that are joined for each number in nested lists -/

/-- A listable function that appends a number to a list, which has a default. -/
def appending : Overload where
  signature := ⟨"Append", [.byValue "x" .number,
    ⟨"xs", .list .integer, some (.list .integer [.integer 1]), false, false⟩], .any, ⟨true, false⟩⟩
  body := .user #[⟨.pushRef "xs", 1⟩, ⟨.pushRef "x", 2⟩, ⟨.pushList 1, 3⟩, ⟨.binary .concat, 4⟩]

theorem integers_wellFormed (values : List Int64) :
    (Cell.list .integer (values.map .integer)).WellFormed := by
  refine Cell.wellFormed_list_iff.2 fun item hItem => ?_
  obtain ⟨value, -, rfl⟩ := List.mem_map.1 hItem
  exact ⟨rfl, rfl, .leaf rfl⟩

theorem appending_wellFormed : appending.WellFormed where
  defaults p hp cell hDefault := by
    rcases List.mem_cons.1 hp with rfl | hp
    · cases hDefault
    · obtain rfl := List.mem_singleton.1 hp
      cases hDefault
      exact integers_wellFormed [1]
  native resolve hBody := by cases hBody
  user code hBody := by
    cases hBody
    intro instruction hMember
    simp only [List.mem_toArray, List.mem_cons, List.not_mem_nil, or_false] at hMember
    rcases hMember with rfl | rfl | rfl | rfl <;> trivial

/-- A sum that waits for its second operand. -/
def awaitingOperand : PendingCall :=
  ((PendingCall.init "Plus" [Core.onTwo "Plus" .number .number true .plus]).bind (fun _ => true)
    none (.ofValue (.integer 1)) .automatic).1

/-- A machine with the core library and the function, which has a variable and a pending call. -/
def appendingMachine : Machine :=
  { (coreMachine.addFunctions [appending]).2 with
    calls := ⟨⟨⟨[("kept", .list (.list (.list .integer)) [])]⟩, []⟩, []⟩
    pending := [awaitingOperand] }

/-- A program that assigns to the variable what the function gives for nested lists. -/
def appendingProgram : Code :=
  #[⟨.pushRef "kept", 1⟩, ⟨.initCall "Append", 2⟩, ⟨.push nestedIntegers, 3⟩,
    ⟨.bind none .automatic, 4⟩, ⟨.call, 5⟩, ⟨.binary .assign, 6⟩]

theorem appendingMachine_wellFormed : appendingMachine.WellFormed := by
  have hFunctions := (Machine.bare_wellFormed 8 [] .fresh).withCore.addFunctions
    (List.forall_mem_singleton.2 appending_wellFormed)
  have hPlus : Core.onTwo "Plus" .number .number true .plus ∈ Core.library := List.mem_cons_self
  have hAwaiting : awaitingOperand.WellFormed :=
    (PendingCall.init_wellFormed "Plus"
      (List.forall_mem_singleton.2 (Core.library_wellFormed _ hPlus))).bind _ _ _ (.leaf rfl)
  have hScope : (Scope.mk [("kept", .list (.list (.list .integer)) [])]).WellFormed := by
    intro name cell hBinding
    cases List.mem_singleton.1 hBinding
    exact ⟨by decide, rfl, Cell.wellFormed_nil _⟩
  constructor
  · exact ⟨hScope, fun _ hCell => by cases hCell⟩
  · exact fun _ hFrame => by cases hFrame
  · exact List.forall_mem_singleton.2 hAwaiting
  · exact hFunctions.registry

theorem appendingProgram_wellFormed : appendingProgram.WellFormed := by
  intro instruction hMember
  simp only [appendingProgram, List.mem_toArray, List.mem_cons, List.not_mem_nil, or_false] at hMember
  rcases hMember with rfl | rfl | rfl | rfl | rfl | rfl
  · trivial
  · trivial
  · exact nestedIntegers_wellFormed
  · trivial
  · trivial
  · trivial

/-- The run ends, and what it leaves behind is well formed. -/
theorem execute_wellFormed_appending :
    (Exec.execute 40 appendingProgram appendingMachine).machine?.isSome = true ∧
      ∀ m', (Exec.execute 40 appendingProgram appendingMachine).machine? = some m' →
        m'.WellFormed := by
  refine ⟨by decide +kernel, ?_⟩
  exact (execute_wellFormed appendingMachine_wellFormed appendingProgram_wellFormed 40).2.2.1

end CellMachine
