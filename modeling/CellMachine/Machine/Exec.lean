import CellMachine.Machine.State

/-!
# Computations on a machine

A computation takes the state of a machine and ends with a value, with a fault, or by running
out of the steps it was allowed.  A fault keeps the state it arose in, because the machine stays
usable afterwards.
-/

namespace CellMachine

/-- What a computation leaves behind. -/
inductive Outcome (α : Type) where
  | ok (value : α) (machine : Machine)
  | fault (cause : Fault) (machine : Machine)
  /-- The step allowance was used up. -/
  | exhausted

/-- A computation on a machine. -/
def Exec (α : Type) := Machine → Outcome α

namespace Exec

@[inline] protected def pure {α : Type} (value : α) : Exec α := fun m => .ok value m

@[inline] protected def bind {α β : Type} (x : Exec α) (f : α → Exec β) : Exec β := fun m =>
  match x m with
  | .ok value m => f value m
  | .fault cause m => .fault cause m
  | .exhausted => .exhausted

instance : Monad Exec where
  pure := Exec.pure
  bind := Exec.bind

instance : LawfulMonad Exec := by
  refine .mk' Exec (fun x => ?_) (fun _ _ => rfl) fun x f g => ?_
  · funext m
    change Exec.bind x _ m = x m
    unfold Exec.bind
    cases x m <;> rfl
  · funext m
    change Exec.bind (Exec.bind x f) g m = Exec.bind x (fun a => Exec.bind (f a) g) m
    unfold Exec.bind
    cases x m <;> rfl

/-- Stop with a fault. -/
@[inline] def fault {α : Type} (cause : Fault) : Exec α := fun m => .fault cause m

/-- Stop because the step allowance is used up. -/
@[inline] def exhausted {α : Type} : Exec α := fun _ => .exhausted

/-- A computation that cannot fault. -/
@[inline] def lift {α : Type} (f : Machine → α × Machine) : Exec α := fun m =>
  let (value, m) := f m
  .ok value m

/-- Change the state. -/
@[inline] def modify (f : Machine → Machine) : Exec Unit := fun m => .ok () (f m)

/-- Look at the state. -/
@[inline] def observe {α : Type} (f : Machine → α) : Exec α := fun m => .ok (f m) m

/-- Turn a fault into a value. -/
@[inline] def attempt {α : Type} (x : Exec α) : Exec (Except Fault α) := fun m =>
  match x m with
  | .ok value m => .ok (.ok value) m
  | .fault cause m => .ok (.error cause) m
  | .exhausted => .exhausted

/-- Give up the pending calls that a computation opened and did not complete, however it ends. -/
@[inline] def settling {α : Type} (x : Exec α) : Exec α := fun m =>
  match x m with
  | .ok value m' => .ok value (m'.settle m.pending.length)
  | .fault cause m' => .fault cause (m'.settle m.pending.length)
  | .exhausted => .exhausted

/-- Work in a fresh frame, which is left however that ends. -/
@[inline] def framed {α : Type} (x : Exec α) : Exec α := fun m =>
  match x m.enter with
  | .ok value m' => .ok value m'.leave
  | .fault cause m' => .fault cause m'.leave
  | .exhausted => .exhausted

/-! ## Operations that may find the stack too short -/

def pop : Exec Cell := fun m =>
  match m.stack with
  | [] => .fault .stackUnderflow m
  | cell :: rest => .ok cell (m.setStack rest)

def push (cell : Cell) : Exec Unit := modify (·.push cell)

/-- Look up a reference. -/
def resolve (cell : Cell) : Exec Cell := lift (·.resolve cell)

def report (d : Diagnostic) : Exec Unit := modify (·.report d)

/-- Pop cells and push them as one list, in the order they were pushed.  The list is pushed also
when some could not be inserted; the answer tells whether all were. -/
def pushList (count : Nat) : Exec Bool := fun m =>
  match m.stack.popMany count with
  | .error cause => .fault cause m
  | .ok (cells, rest) =>
    let (complete, list, m) := (m.setStack rest).gather .undetermined cells
    .ok complete (m.push list.toCell)

/-- Pop a reference and push the value it was bound to, removing the binding. -/
def unassign : Exec Bool := do
  match ← pop with
  | .reference name =>
    if ← observe (·.isDefined name) then
      match ← lift (·.remove name) with
      | some cell => push cell
      | none => Pure.pure ()
      return true
    else
      report (.unassignUndefined name)
      push (.reference name)
      return false
  | other =>
    push other
    report .unassignNonReference
    return false

/-- Print the top operand after looking it up, and leave it on the stack. -/
def output : Exec Bool := do
  let cell ← resolve (← pop)
  let written ← lift (·.print [cell.display, "\n"])
  push cell
  return written

/-- Take the top operand as an argument. -/
def popArgument : Exec Argument := do
  match ← pop with
  | .reference name => return .ofVariable name (← resolve (.reference name))
  | cell => return .ofValue cell

/-- Bind an argument to the innermost pending call; a call that failed before takes no more
notice of it. -/
def bindArgument (param : Option String) (mode : PassMode) (a : Argument) : Exec Bool := fun m =>
  match m.pending with
  | [] => .fault .noPendingCall m
  | innermost :: outer =>
    if innermost.failed then .ok false m
    else
      let (bound, refusal) := innermost.bind Handle.valid param a mode
      let m := { m with pending := bound :: outer }
      match refusal with
      | none => .ok true m
      | some d => .ok false (m.report d)

/-- Bind the top operand to the innermost pending call. -/
def bindTop (param : Option String) (mode : PassMode) : Exec Bool := do
  if ← observe (·.pending.isEmpty) then fault .noPendingCall
  else bindArgument param mode (← popArgument)

end Exec
end CellMachine
