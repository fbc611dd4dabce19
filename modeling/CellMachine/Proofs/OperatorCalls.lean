import CellMachine.Proofs.Allowance
import CellMachine.Proofs.StackEffect

/-!
# Operators are calls

A binary operator on two operands does what a call of its function with these two as arguments
does.  The operator takes both operands from the stack and runs a program of its own on them, which
opens the call, binds the operands and makes the call; the call itself binds each operand as soon as
it is pushed.  Both come to the same machine when the call is made, because opening a call and
binding an operand pass over the operands below.

The comparison is of runs with any step allowance that is enough for them (`Eventually`).  Runs
that fail do NOT leave the same operands behind: what was pushed and not yet bound stays on the
stack, and the operator had pushed both before it opened the call.  Nothing else differs.  A
subscript is excluded, since its function is chosen by what its left operand refers to.
-/

namespace CellMachine

/-! ## Runs with enough of the step allowance -/

namespace Exec

variable {α β : Type}

/-- The computation ends so, given enough of the step allowance. -/
def Eventually (x : Nat → Exec α) (m : Machine) (o : Outcome α) : Prop :=
  o ≠ .exhausted ∧ ∃ fuel, x fuel m = o

/-- A run that takes one unit of the allowance and then is another one. -/
theorem eventually_succ {x y : Nat → Exec α} {m m' : Machine} (hZero : x 0 m = .exhausted)
    (hSucc : ∀ fuel, x (fuel + 1) m = y fuel m') (o : Outcome α) :
    Eventually x m o ↔ Eventually y m' o := by
  constructor
  · rintro ⟨hEnds, fuel, hFuel⟩
    cases fuel with
    | zero => exact absurd (hFuel.symm.trans hZero) hEnds
    | succ fuel => exact ⟨hEnds, fuel, (hSucc fuel).symm.trans hFuel⟩
  · rintro ⟨hEnds, fuel, hFuel⟩
    exact ⟨hEnds, fuel + 1, (hSucc fuel).trans hFuel⟩

/-- What is done with the outcome of a run, if it ends. -/
theorem eventually_map {x : Nat → Exec α} {y : Nat → Exec β} {m m' : Machine}
    {f : Outcome α → Outcome β} (hf : ∀ o, f o = .exhausted ↔ o = .exhausted)
    (h : ∀ fuel, y fuel m' = f (x fuel m)) (o : Outcome β) :
    Eventually y m' o ↔ ∃ o', Eventually x m o' ∧ o = f o' := by
  constructor
  · rintro ⟨hEnds, fuel, hFuel⟩
    have hEq : o = f (x fuel m) := hFuel.symm.trans (h fuel)
    refine ⟨x fuel m, ⟨fun hOut => hEnds ?_, fuel, rfl⟩, hEq⟩
    rw [hEq]
    exact (hf _).2 hOut
  · rintro ⟨o', ⟨hEnds, fuel, hFuel⟩, rfl⟩
    refine ⟨fun hOut => hEnds ((hf _).1 hOut), fuel, ?_⟩
    rw [h, hFuel]

/-- The way a program can end. -/
abbrev Ends (code : Code) (m : Machine) (o : Outcome Ending) : Prop :=
  Eventually (fun fuel => execute fuel code) m o

/-- The way the rest of a program can end. -/
abbrev EndsFrom (code : Code) (index : Nat) (m : Machine) (o : Outcome Ending) : Prop :=
  Eventually (fun fuel => runFrom fuel code index) m o

/-- There is at most one way, since more of the allowance changes nothing. -/
theorem Ends.unique {code : Code} {m : Machine} {o o' : Outcome Ending} (h : Ends code m o)
    (h' : Ends code m o') : o = o' := by
  obtain ⟨hEnds, fuel, rfl⟩ := h
  obtain ⟨hEnds', fuel', rfl⟩ := h'
  have hFirst := execute_below (Nat.le_max_left fuel fuel') code m hEnds
  have hSecond := execute_below (Nat.le_max_right fuel fuel') code m hEnds'
  exact hFirst.symm.trans hSecond

theorem ends_iff (code : Code) (m : Machine) (o : Outcome Ending) :
    Ends code m o ↔
      ∃ o', EndsFrom code 0 m o' ∧ o = o'.onMachine (·.settle m.pending.length) := by
  refine eventually_map (fun o => ?_) (fun fuel => settling_eq (runFrom fuel code 0) m) o
  cases o <;> simp [Outcome.onMachine]

end Exec

/-- How a run ends whose last instruction ended so. -/
def Outcome.concluding (line : Nat) : Outcome Bool → Outcome Ending
  | ok succeeded m => ok (if succeeded then .success else .failure line) m
  | fault cause m => fault cause m
  | exhausted => exhausted

theorem Outcome.concluding_eq_exhausted_iff (line : Nat) (o : Outcome Bool) :
    o.concluding line = .exhausted ↔ o = .exhausted := by
  cases o <;> simp [concluding]

namespace Exec

section Instructions

variable {code : Code} {index line : Nat} {op : Op} {e : StackEffect}
  (hAt : code[index]? = some ⟨op, line⟩) (hEffect : op.effect? = some e) {m m' : Machine}

include hAt hEffect

theorem endsFrom_of_success
    (hStep : ∀ fuel, step (execute fuel) op m = .ok true m') (o : Outcome Ending) :
    EndsFrom code index m o ↔ EndsFrom code (index + 1) m' o := by
  refine eventually_succ rfl (fun fuel => ?_) o
  rw [runFrom_succ_of_effect hAt hEffect, bind_of_ok (hStep fuel)]
  rfl

theorem endsFrom_of_failure
    (hStep : ∀ fuel, step (execute fuel) op m = .ok false m') (o : Outcome Ending) :
    EndsFrom code index m o ↔ o = .ok (.failure line) m' := by
  have hSucc (fuel : Nat) :
      runFrom (fuel + 1) code index m = .ok (.failure line) m' := by
    rw [runFrom_succ_of_effect hAt hEffect, bind_of_ok (hStep fuel)]
    rfl
  constructor
  · rintro ⟨hEnds, fuel, hFuel⟩
    cases fuel with
    | zero => exact absurd hFuel.symm hEnds
    | succ fuel => exact hFuel.symm.trans (hSucc fuel)
  · rintro rfl
    exact ⟨by simp, 1, hSucc 0⟩

/-- Behind the last instruction a run has nothing left to do. -/
theorem endsFrom_of_last (hLast : code[index + 1]? = none) (o : Outcome Ending) :
    EndsFrom code index m o ↔
      ∃ o', Eventually (fun fuel => step (execute fuel) op) m o' ∧
        o = o'.concluding line := by
  have hSucc (fuel : Nat) : runFrom (fuel + 2) code index m =
      (step (execute (fuel + 1)) op m).concluding line := by
    rw [runFrom_succ_of_effect hAt hEffect]
    cases hOutcome : step (execute (fuel + 1)) op m with
    | ok succeeded m₁ =>
        rw [bind_of_ok hOutcome, runFrom, hLast]
        cases succeeded <;> rfl
    | fault cause m₁ => exact bind_of_fault hOutcome
    | exhausted => exact bind_of_exhausted hOutcome
  constructor
  · rintro ⟨hEnds, fuel, hFuel⟩
    -- With more of the allowance the run ends in the same way.
    have hMore : runFrom (fuel + 2) code index m = o := by
      have hBelow := (runFrom_below_succ fuel code index).trans
        (runFrom_below_succ (fuel + 1) code index)
      rw [← hFuel]
      refine hBelow m ?_
      intro hOut
      exact hEnds (hFuel.symm.trans hOut)
    rw [hSucc] at hMore
    refine ⟨_, ⟨fun hOut => hEnds ?_, fuel + 1, rfl⟩, hMore.symm⟩
    rw [← hMore]
    exact (Outcome.concluding_eq_exhausted_iff _ _).2 hOut
  · rintro ⟨o', ⟨hEnds, fuel, hFuel⟩, rfl⟩
    refine ⟨fun hOut => hEnds ((Outcome.concluding_eq_exhausted_iff _ _).1 hOut), fuel + 2, ?_⟩
    have hMore : step (execute (fuel + 1)) op m = o' := by
      rw [← hFuel]
      refine step_below (fun body => execute_below (Nat.le_succ fuel) body) _ m ?_
      intro hOut
      exact hEnds (hFuel.symm.trans hOut)
    change runFrom (fuel + 2) code index m = _
    rw [hSucc, hMore]

end Instructions

/-! ## Binding the top operand -/

theorem lift_setStack {f : Machine → α × Machine} (hf : Machine.PassesOver f) (m : Machine)
    (stack : Operands) :
    Exec.lift f (m.setStack stack) = .ok (f m).1 ((f m).2.setStack stack) := by
  unfold Exec.lift
  rw [hf m stack]
  rfl

theorem popArgument_over (m : Machine) (cell : Cell) :
    ∃ (a : Argument) (n : Machine), n.pending = m.pending ∧
      ∀ stack, popArgument (m.setStack (cell :: stack)) = .ok a (n.setStack stack) := by
  have hPop (stack : Operands) : pop (m.setStack (cell :: stack)) = .ok cell (m.setStack stack) :=
    rfl
  cases cell with
  | reference name =>
      have hPending : (m.resolve (.reference name)).2.pending = m.pending := by
        have hSame := (resolve_local (.reference name)).surroundings_eq (m := m) rfl
        injection hSame
      refine ⟨.ofVariable name (m.resolve (.reference name)).1, _, hPending, fun stack => ?_⟩
      have hPasses : Machine.PassesOver (·.resolve (.reference name)) :=
        fun m stack => m.resolve_setStack stack _
      unfold popArgument
      rw [bind_of_ok (hPop stack)]
      exact bind_of_ok (lift_setStack hPasses m stack)
  | _ => exact ⟨_, m, rfl, fun stack => bind_of_ok (hPop stack)⟩

theorem bindArgument_over {m : Machine} (hPending : m.pending ≠ []) (param : Option String)
    (mode : PassMode) (a : Argument) :
    ∃ (bound : Bool) (n : Machine), n.pending ≠ [] ∧
      ∀ stack, bindArgument param mode a (m.setStack stack) = .ok bound (n.setStack stack) := by
  obtain ⟨innermost, outer, hCons⟩ := List.exists_cons_of_ne_nil hPending
  by_cases hFailed : innermost.failed = true
  · refine ⟨false, m, hPending, fun stack => ?_⟩
    simp only [bindArgument, Machine.pending_setStack, hCons, hFailed, if_true]
  · -- What the innermost call becomes does not depend on the operands.
    generalize hBind : innermost.bind Handle.valid param a mode = answer
    obtain ⟨served, refusal⟩ := answer
    let left : Machine := { m with pending := served :: outer }
    have hServed (stack : Operands) : bindArgument param mode a (m.setStack stack) =
        match refusal with
        | none => .ok true (left.setStack stack)
        | some d => .ok false ((left.report d).setStack stack) := by
      simp only [bindArgument, Machine.pending_setStack, hCons, hFailed, hBind]
      cases refusal <;> rfl
    cases refusal with
    | none => exact ⟨true, left, List.cons_ne_nil _ _, hServed⟩
    | some d => exact ⟨false, left.report d, List.cons_ne_nil _ _, hServed⟩

/-- Binding an operand passes over the operands below it and leaves a call pending. -/
theorem step_bind_over {m : Machine} (hPending : m.pending ≠ []) (param : Option String)
    (mode : PassMode) (cell : Cell) :
    ∃ (bound : Bool) (n : Machine), n.pending ≠ [] ∧ ∀ execute stack,
      step execute (.bind param mode) (m.setStack (cell :: stack)) =
        .ok bound (n.setStack stack) := by
  obtain ⟨a, n, hSame, hPop⟩ := popArgument_over m cell
  have hPending' : n.pending ≠ [] := by rwa [hSame]
  obtain ⟨bound, n', hLeft, hBind⟩ := bindArgument_over hPending' param mode a
  refine ⟨bound, n', hLeft, fun execute stack => ?_⟩
  have hSome : ¬ (m.setStack (cell :: stack)).pending.isEmpty = true := by simpa using hPending
  calc
    step execute (.bind param mode) (m.setStack (cell :: stack)) =
        (popArgument >>= bindArgument param mode) (m.setStack (cell :: stack)) := by
      change bindTop param mode _ = _
      rw [bindTop_eq, if_neg hSome]
    _ = bindArgument param mode a (n.setStack stack) := bind_of_ok (hPop stack)
    _ = .ok bound (n'.setStack stack) := hBind stack

end Exec

/-! ## Operators and calls -/

/-- What can be pushed as an operand. -/
inductive Operand where
  | constant (cell : Cell)
  | reference (name : String)

namespace Operand

/-- The instruction that pushes the operand. -/
def op : Operand → Op
  | constant cell => .push cell
  | reference name => .pushRef name

/-- The cell that is pushed. -/
def cell : Operand → Cell
  | constant cell => cell
  | reference name => .reference name

theorem effect?_op (a : Operand) : a.op.effect? = some ⟨0, 1⟩ := by
  cases a <;> rfl

theorem step_op (execute : Code → Exec Ending) (a : Operand) (m : Machine) :
    Exec.step execute a.op m = .ok true (m.setStack (a.cell :: m.stack)) := by
  cases a <;> rfl

end Operand

/-- The operator on two operands; the instructions may come from any lines. -/
def operatorProgram (op : BinaryOp) (left right : Operand) (line : Nat → Nat) : Code :=
  #[⟨left.op, line 0⟩, ⟨right.op, line 1⟩, ⟨.binary op, line 2⟩]

/-- The call of a function with two arguments. -/
def callProgram (function : String) (left right : Operand) (line : Nat → Nat) : Code :=
  #[⟨.initCall function, line 0⟩, ⟨left.op, line 1⟩, ⟨.bind none .automatic, line 2⟩,
    ⟨right.op, line 3⟩, ⟨.bind none .automatic, line 4⟩, ⟨.call, line 5⟩]

namespace Exec

/-- Two programs from two machines fail at once in machines that differ in their operands, or both
make a call in the same machine. -/
inductive Joins (code code' : Code) (m m' : Machine) : Prop
  | stop (n : Machine) (stack stack' : Operands) (line line' : Nat)
      (h : ∀ o, EndsFrom code 0 m o ↔ o = .ok (.failure line) (n.setStack stack))
      (h' : ∀ o, EndsFrom code' 0 m' o ↔ o = .ok (.failure line') (n.setStack stack'))
  | go (n : Machine) (line line' : Nat)
      (h : ∀ o, EndsFrom code 0 m o ↔
        ∃ made, Eventually (fun fuel => call (execute fuel)) n made ∧ o = made.concluding line)
      (h' : ∀ o, EndsFrom code' 0 m' o ↔
        ∃ made, Eventually (fun fuel => call (execute fuel)) n made ∧ o = made.concluding line')

theorem initCall_pending {m m' : Machine} {function : String}
    (h : m.initCall function = (true, m')) : m'.pending ≠ [] := by
  unfold Machine.initCall at h
  split at h <;> cases h
  exact List.cons_ne_nil _ _

/-- The program of the operator, with both operands on the stack, and the call that pushes them one
by one. -/
theorem operatorCode_joins (function : String) (left right : Operand) (line : Nat → Nat)
    (m : Machine) :
    Joins (operatorCode function 2) (callProgram function left right line)
      (m.setStack (left.cell :: right.cell :: m.stack)) m := by
  have hPasses : Machine.PassesOver (·.initCall function) :=
    fun m stack => m.initCall_setStack stack function
  have hOpen (fuel : Nat) (stack : Operands) :
      step (execute fuel) (.initCall function) (m.setStack stack) =
        .ok (m.initCall function).1 ((m.initCall function).2.setStack stack) :=
    lift_setStack hPasses m stack
  generalize hInit : m.initCall function = answer at hOpen
  obtain ⟨opened, opening⟩ := answer
  dsimp only at hOpen
  cases opened with
  | false =>
      -- The operator has both operands on its stack, the call has pushed none.
      exact .stop opening (left.cell :: right.cell :: m.stack) m.stack 0 (line 0)
        (endsFrom_of_failure rfl rfl fun fuel => hOpen fuel _)
        (endsFrom_of_failure rfl rfl fun fuel => hOpen fuel m.stack)
  | true =>
      obtain ⟨first, n₁, hPending₁, hFirst⟩ :=
        step_bind_over (initCall_pending hInit) none .automatic left.cell
      obtain ⟨second, n₂, -, hSecond⟩ := step_bind_over hPending₁ none .automatic right.cell
      have hOpened (o : Outcome Ending) :
          EndsFrom (operatorCode function 2) 0 (m.setStack (left.cell :: right.cell :: m.stack)) o ↔
            EndsFrom (operatorCode function 2) 1
              (opening.setStack (left.cell :: right.cell :: m.stack)) o :=
        endsFrom_of_success rfl rfl (fun fuel => hOpen fuel _) o
      have hPushed (o : Outcome Ending) :
          EndsFrom (callProgram function left right line) 0 m o ↔
            EndsFrom (callProgram function left right line) 2
              (opening.setStack (left.cell :: m.stack)) o :=
        (endsFrom_of_success rfl rfl (fun fuel => hOpen fuel m.stack) o).trans
          (endsFrom_of_success rfl left.effect?_op (fun fuel => left.step_op (execute fuel) _) o)
      cases first with
      | false =>
          -- The right operand waits on the stack of the operator, the call has not pushed it.
          exact .stop n₁ (right.cell :: m.stack) m.stack 0 (line 2)
            (fun o => (hOpened o).trans (endsFrom_of_failure rfl rfl (fun fuel => hFirst _ _) o))
            (fun o => (hPushed o).trans (endsFrom_of_failure rfl rfl (fun fuel => hFirst _ _) o))
      | true =>
          -- Both programs are about to bind the second operand, the only one above the others.
          have hBound (o : Outcome Ending) :
              EndsFrom (operatorCode function 2) 0
                (m.setStack (left.cell :: right.cell :: m.stack)) o ↔
                EndsFrom (operatorCode function 2) 2 (n₁.setStack (right.cell :: m.stack)) o :=
            (hOpened o).trans (endsFrom_of_success rfl rfl (fun fuel => hFirst _ _) o)
          have hBound' (o : Outcome Ending) :
              EndsFrom (callProgram function left right line) 0 m o ↔
                EndsFrom (callProgram function left right line) 4
                  (n₁.setStack (right.cell :: m.stack)) o :=
            (hPushed o).trans ((endsFrom_of_success rfl rfl (fun fuel => hFirst _ m.stack) o).trans
              (endsFrom_of_success rfl right.effect?_op
                (fun fuel => right.step_op (execute fuel) _) o))
          cases second with
          | false =>
              exact .stop n₂ m.stack m.stack 0 (line 4)
                (fun o => (hBound o).trans
                  (endsFrom_of_failure rfl rfl (fun fuel => hSecond _ _) o))
                (fun o => (hBound' o).trans
                  (endsFrom_of_failure rfl rfl (fun fuel => hSecond _ _) o))
          | true =>
              have hAt : (operatorCode function 2)[3]? = some ⟨.call, 0⟩ := rfl
              have hAt' : (callProgram function left right line)[5]? = some ⟨.call, line 5⟩ := rfl
              exact .go (n₂.setStack m.stack) 0 (line 5)
                (fun o => (hBound o).trans
                  ((endsFrom_of_success rfl rfl (fun fuel => hSecond _ _) o).trans
                    (endsFrom_of_last hAt rfl rfl o)))
                (fun o => (hBound' o).trans
                  ((endsFrom_of_success rfl rfl (fun fuel => hSecond _ _) o).trans
                    (endsFrom_of_last hAt' rfl rfl o)))

end Exec

/-! ## Whole runs -/

/-- What an operator answers when its program ended so. -/
def Outcome.answer : Outcome Ending → Outcome Bool
  | ok ending m => ok (ending == .success) m
  | fault cause m => fault cause m
  | exhausted => exhausted

theorem Outcome.answer_eq_exhausted_iff (o : Outcome Ending) :
    o.answer = .exhausted ↔ o = .exhausted := by
  cases o <;> simp [answer]

theorem Outcome.eq_of_answer {o : Outcome Ending} {m : Machine} (h : o.answer = .ok true m) :
    o = .ok .success m := by
  cases o with
  | ok ending m' =>
      obtain ⟨hEnding, rfl⟩ : (ending == .success) = true ∧ m' = m := by simpa [answer] using h
      rw [eq_of_beq hEnding]
  | fault cause m' => cases h
  | exhausted => cases h

theorem Machine.settle_settle (m : Machine) (floor : Nat) :
    (m.settle floor).settle floor = m.settle floor := by
  have hFew : (m.pending.drop (m.pending.length - floor)).length - floor = 0 := by
    rw [List.length_drop]
    omega
  unfold settle
  dsimp only
  rw [hFew, List.drop_zero]

/-- Calls that are given up when the program of an operator ends need not be given up again. -/
theorem Outcome.settle_concluding (o : Outcome Ending) (floor line : Nat) :
    ((o.onMachine (·.settle floor)).answer.concluding line).onMachine (·.settle floor) =
      (o.onMachine (·.settle floor)).answer.concluding line := by
  cases o with
  | ok ending m => simp only [onMachine, answer, concluding, Machine.settle_settle]
  | fault cause m => simp only [onMachine, answer, concluding, Machine.settle_settle]
  | exhausted => rfl

/-- Two runs end alike: in the same machine if they succeed or end with a fault, and otherwise in
machines that differ in their active operands at most. -/
inductive Outcome.Alike : Outcome Ending → Outcome Ending → Prop
  | success (m : Machine) : Alike (.ok .success m) (.ok .success m)
  | failure (line line' : Nat) (m : Machine) (stack : Operands) :
      Alike (.ok (.failure line) m) (.ok (.failure line') (m.setStack stack))
  | fault (cause : Fault) (m : Machine) : Alike (.fault cause m) (.fault cause m)

theorem Outcome.alike_of_made {made : Outcome Bool} (hEnds : made ≠ .exhausted)
    (floor inner line line' : Nat) :
    (((made.concluding inner).onMachine (·.settle floor)).answer.concluding line).Alike
      ((made.concluding line').onMachine (·.settle floor)) := by
  cases made with
  | ok succeeded m =>
      cases succeeded with
      | true => exact .success _
      | false => exact .failure line line' _ m.stack
  | fault cause m => exact .fault cause _
  | exhausted => exact absurd rfl hEnds

namespace Exec

/-- The two operands change places before the program of the operator is run on them. -/
theorem binary_eq {op : BinaryOp} (hOp : op ≠ .subscript) (execute : Code → Exec Ending)
    (left right : Cell) (m : Machine) (stack : Operands) :
    binary execute op (m.setStack (right :: left :: stack)) =
      (execute (operatorCode op.functionName 2) (m.setStack (left :: right :: stack))).answer := by
  have hOperator : binary execute op (m.setStack (right :: left :: stack)) =
      operator execute op.functionName 2 (m.setStack (left :: right :: stack)) := by
    cases op with
    | subscript => exact absurd rfl hOp
    | _ => rfl
  rw [hOperator]
  unfold operator
  cases hOutcome : execute (operatorCode op.functionName 2)
      (m.setStack (left :: right :: stack)) with
  | ok ending m' => exact bind_of_ok hOutcome
  | fault cause m' => exact bind_of_fault hOutcome
  | exhausted => exact bind_of_exhausted hOutcome

/-- An operator ends as its program does, which is run with both operands on the stack. -/
theorem ends_operatorProgram_iff {op : BinaryOp} (hOp : op ≠ .subscript) (left right : Operand)
    (line : Nat → Nat) (m : Machine) (o : Outcome Ending) :
    Ends (operatorProgram op left right line) m o ↔
      ∃ o', EndsFrom (operatorCode op.functionName 2) 0
          (m.setStack (left.cell :: right.cell :: m.stack)) o' ∧
        o = (o'.onMachine (·.settle m.pending.length)).answer.concluding (line 2) := by
  have hPushed (o : Outcome Ending) : EndsFrom (operatorProgram op left right line) 0 m o ↔
      EndsFrom (operatorProgram op left right line) 2
        (m.setStack (right.cell :: left.cell :: m.stack)) o :=
    (endsFrom_of_success rfl left.effect?_op (fun fuel => left.step_op (execute fuel) _) o).trans
      (endsFrom_of_success rfl right.effect?_op (fun fuel => right.step_op (execute fuel) _) o)
  have hAt : (operatorProgram op left right line)[2]? = some ⟨.binary op, line 2⟩ := rfl
  have hLast (o : Outcome Ending) := (hPushed o).trans (endsFrom_of_last hAt rfl rfl o)
  -- The operator runs its program with what is left of the allowance, which is hidden here.
  have hBinary := eventually_map Outcome.answer_eq_exhausted_iff
    fun fuel => binary_eq hOp (execute fuel) left.cell right.cell m m.stack
  rw [ends_iff]
  constructor
  · rintro ⟨o₁, hEnds, rfl⟩
    obtain ⟨made, hMade, rfl⟩ := (hLast o₁).1 hEnds
    obtain ⟨o₂, hProgram, rfl⟩ := (hBinary made).1 hMade
    obtain ⟨o₃, hInner, rfl⟩ := (ends_iff _ _ o₂).1 hProgram
    exact ⟨o₃, hInner, Outcome.settle_concluding o₃ _ _⟩
  · rintro ⟨o₃, hInner, rfl⟩
    have hProgram := (ends_iff _ _ _).2 ⟨o₃, hInner, rfl⟩
    have hMade := (hBinary _).2 ⟨_, hProgram, rfl⟩
    exact ⟨_, (hLast _).2 ⟨_, hMade, rfl⟩, (Outcome.settle_concluding o₃ _ _).symm⟩

/-- The way one of the two runs ends, the other one ends too. -/
theorem ends_alike {op : BinaryOp} (hOp : op ≠ .subscript) (left right : Operand)
    (line line' : Nat → Nat) (m : Machine) :
    (∀ o, Ends (operatorProgram op left right line) m o →
      ∃ o', Ends (callProgram op.functionName left right line') m o' ∧ o.Alike o') ∧
    ∀ o', Ends (callProgram op.functionName left right line') m o' →
      ∃ o, Ends (operatorProgram op left right line) m o ∧ o.Alike o' := by
  have hOperator := ends_operatorProgram_iff hOp left right line m
  have hCall := ends_iff (callProgram op.functionName left right line') m
  cases operatorCode_joins op.functionName left right line' m with
  | stop n stack stack' inner outer h h' =>
      have hAlike : Outcome.Alike
          (.ok (.failure (line 2)) ((n.setStack stack).settle m.pending.length))
          (.ok (.failure outer) ((n.setStack stack').settle m.pending.length)) :=
        .failure _ _ _ stack'
      constructor
      · intro o hEnds
        obtain ⟨o₁, hStop, rfl⟩ := (hOperator o).1 hEnds
        obtain rfl := (h o₁).1 hStop
        exact ⟨_, (hCall _).2 ⟨_, (h' _).2 rfl, rfl⟩, hAlike⟩
      · intro o' hEnds
        obtain ⟨o₁, hStop, rfl⟩ := (hCall o').1 hEnds
        obtain rfl := (h' o₁).1 hStop
        exact ⟨_, (hOperator _).2 ⟨_, (h _).2 rfl, rfl⟩, hAlike⟩
  | go n inner outer h h' =>
      constructor
      · intro o hEnds
        obtain ⟨o₁, hGo, rfl⟩ := (hOperator o).1 hEnds
        obtain ⟨made, hMade, rfl⟩ := (h o₁).1 hGo
        exact ⟨_, (hCall _).2 ⟨_, (h' _).2 ⟨made, hMade, rfl⟩, rfl⟩,
          Outcome.alike_of_made hMade.1 _ _ _ _⟩
      · intro o' hEnds
        obtain ⟨o₁, hGo, rfl⟩ := (hCall o').1 hEnds
        obtain ⟨made, hMade, rfl⟩ := (h' o₁).1 hGo
        exact ⟨_, (hOperator _).2 ⟨_, (h _).2 ⟨made, hMade, rfl⟩, rfl⟩,
          Outcome.alike_of_made hMade.1 _ _ _ _⟩

end Exec

/-- A binary operator on two operands agrees with the call of its function on them, in every state
of the machine and whatever functions it has.  The one ends exactly if the other does.  The one
succeeds exactly if the other does, and ends with a fault exactly if the other ends with that fault;
then their machines are the same.  Otherwise too they have reported the same diagnostics and written
the same output: their machines differ in the operands of the active frame at most. -/
theorem operator_agrees_with_call {op : BinaryOp} (hOp : op ≠ .subscript) (left right : Operand)
    (line line' : Nat → Nat) (m : Machine) :
    ((∃ o, Exec.Ends (operatorProgram op left right line) m o) ↔
      ∃ o, Exec.Ends (callProgram op.functionName left right line') m o) ∧
    (∀ m', Exec.Ends (operatorProgram op left right line) m (.ok .success m') ↔
      Exec.Ends (callProgram op.functionName left right line') m (.ok .success m')) ∧
    (∀ cause m', Exec.Ends (operatorProgram op left right line) m (.fault cause m') ↔
      Exec.Ends (callProgram op.functionName left right line') m (.fault cause m')) ∧
    ∀ ending n ending' n', Exec.Ends (operatorProgram op left right line) m (.ok ending n) →
      Exec.Ends (callProgram op.functionName left right line') m (.ok ending' n') →
        n'.reported = n.reported ∧ n'.console = n.console ∧ n' = n.setStack n'.stack := by
  obtain ⟨hForth, hBack⟩ := Exec.ends_alike hOp left right line line' m
  refine ⟨⟨?_, ?_⟩, fun m' => ⟨fun h => ?_, fun h => ?_⟩,
    fun cause m' => ⟨fun h => ?_, fun h => ?_⟩, fun ending n ending' n' h h' => ?_⟩
  · rintro ⟨o, hEnds⟩
    exact (hForth o hEnds).imp fun _ h => h.1
  · rintro ⟨o', hEnds⟩
    exact (hBack o' hEnds).imp fun _ h => h.1
  · obtain ⟨o', hEnds, hAlike⟩ := hForth _ h
    cases hAlike
    exact hEnds
  · obtain ⟨o, hEnds, hAlike⟩ := hBack _ h
    cases hAlike
    exact hEnds
  · obtain ⟨o', hEnds, hAlike⟩ := hForth _ h
    cases hAlike
    exact hEnds
  · obtain ⟨o, hEnds, hAlike⟩ := hBack _ h
    cases hAlike
    exact hEnds
  · obtain ⟨o', hEnds, hAlike⟩ := hForth _ h
    obtain rfl := hEnds.unique h'
    cases hAlike with
    | success => exact ⟨rfl, rfl, rfl⟩
    | failure line₁ line₂ _ stack => exact ⟨rfl, rfl, rfl⟩

/-! ### A variable and a constant for a user-defined function -/

/-- The machine with the user-defined function, and a variable of the type that it takes. -/
def greetingMachine : Machine :=
  { joiningMachine with calls := ⟨⟨⟨[("name", .text "a")]⟩, [.integer 9]⟩, []⟩ }

theorem operator_agrees_with_call_greeting :
    BinaryOp.plus ≠ .subscript ∧ ∃ m',
      Exec.Ends (operatorProgram .plus (.reference "name") (.constant (.text "b")) id)
        greetingMachine (.ok .success m') ∧
      Exec.Ends (callProgram "Plus" (.reference "name") (.constant (.text "b")) id)
        greetingMachine (.ok .success m') ∧
      m'.stack = [.text "ab", .integer 9] := by
  have hOp : BinaryOp.plus ≠ .subscript := by decide
  have hMade : (Exec.execute 30
      (operatorProgram .plus (.reference "name") (.constant (.text "b")) id)
      greetingMachine).answer.made = true := by
    decide +kernel
  have hLeft : (Exec.execute 30
      (operatorProgram .plus (.reference "name") (.constant (.text "b")) id)
      greetingMachine).machine?.map (·.stack) = some [.text "ab", .integer 9] := rfl
  obtain ⟨m', hAnswer⟩ := Outcome.exists_of_made hMade
  have hRun := Outcome.eq_of_answer hAnswer
  have hEnds : Exec.Ends (operatorProgram .plus (.reference "name") (.constant (.text "b")) id)
      greetingMachine (.ok .success m') := ⟨by simp, 30, hRun⟩
  rw [hRun] at hLeft
  exact ⟨hOp, m', hEnds, ((operator_agrees_with_call hOp _ _ id id greetingMachine).2.1 m').1 hEnds,
    Option.some.inj hLeft⟩

end CellMachine
