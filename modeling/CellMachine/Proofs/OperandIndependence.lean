import CellMachine.Proofs.Locality

/-!
# Operations that pass over the operands

Many operations of the machine neither look at the operands of the active frame nor change them:
what they do is the same whatever the operands are, and these are the same afterwards.  This is said
once for each operation, by an equation that exchanges the operands before and after it.

Nothing is said here about operations that push or pop; how these change the stack is NOT a matter
of a single equation, since they may find it too short.
-/

namespace CellMachine
namespace Machine

/-! ## The operands and the rest of the machine -/

@[simp] theorem setStack_stack (m : Machine) : m.setStack m.stack = m := rfl

@[simp] theorem scope_setStack (m : Machine) (stack : Operands) :
    (m.setStack stack).scope = m.scope := rfl

@[simp] theorem lookup_setStack (m : Machine) (stack : Operands) (name : String) :
    (m.setStack stack).lookup name = m.lookup name := rfl

@[simp] theorem registry_setStack (m : Machine) (stack : Operands) :
    (m.setStack stack).registry = m.registry := rfl

@[simp] theorem pending_setStack (m : Machine) (stack : Operands) :
    (m.setStack stack).pending = m.pending := rfl

/-! ## Operations -/

/-- The operation neither looks at the operands of the active frame nor changes them. -/
def PassesOver {α : Type} (f : Machine → α × Machine) : Prop :=
  ∀ m stack, f (m.setStack stack) = answering (·.setStack stack) (f m)

theorem PassesOver.stack_eq {α : Type} {f : Machine → α × Machine} (hf : PassesOver f)
    (m : Machine) : (f m).2.stack = m.stack := by
  have hSame := hf m m.stack
  rw [setStack_stack] at hSame
  rw [hSame]
  rfl

theorem define_setStack (m : Machine) (stack : Operands) (name : String) (cell : Cell) :
    (m.setStack stack).define name cell = answering (·.setStack stack) (m.define name cell) := by
  unfold define
  rw [scope_setStack]
  split <;> rfl

theorem remove_setStack (m : Machine) (stack : Operands) (name : String) :
    (m.setStack stack).remove name = answering (·.setStack stack) (m.remove name) := by
  unfold remove
  rw [scope_setStack]
  split <;> rfl

theorem forget_setStack (m : Machine) (stack : Operands) (name : String) :
    (m.setStack stack).forget name = (m.forget name).setStack stack := by
  unfold forget
  rw [scope_setStack]
  split <;> rfl

theorem resolve_setStack (m : Machine) (stack : Operands) (cell : Cell) :
    (m.setStack stack).resolve cell = answering (·.setStack stack) (m.resolve cell) := by
  cases cell with
  | reference name =>
      simp only [resolve]
      rw [lookup_setStack]
      cases m.lookup name with
      | none => rfl
      | some value =>
          dsimp only
          rw [forget_setStack]
          split <;> rfl
  | _ => rfl

theorem writeStream_setStack (m : Machine) (stack : Operands) (stream : Stream) (text : String) :
    (m.setStack stack).writeStream stream text =
      answering (·.setStack stack) (m.writeStream stream text) := by
  cases stream <;> rfl

theorem print_setStack (m : Machine) (stack : Operands) (texts : List String) :
    (m.setStack stack).print texts = answering (·.setStack stack) (m.print texts) := by
  rw [print_eq, print_eq]
  rfl

theorem printLines_setStack (m : Machine) (stack : Operands) (lines : List String) :
    (m.setStack stack).printLines lines =
      answering (·.setStack stack) (m.printLines lines) := m.print_setStack stack _

theorem help_setStack (m : Machine) (stack : Operands) (name : String) :
    (m.setStack stack).help name = answering (·.setStack stack) (m.help name) := by
  unfold help
  rw [registry_setStack]
  cases m.registry.get? name with
  | some overloads => exact m.printLines_setStack stack _
  | none => rfl

theorem initCall_setStack (m : Machine) (stack : Operands) (name : String) :
    (m.setStack stack).initCall name = answering (·.setStack stack) (m.initCall name) := by
  unfold initCall
  rw [registry_setStack]
  split <;> rfl

theorem gather_stack (m : Machine) (element : CellType) (cells : List Cell) :
    (m.gather element cells).2.2.stack = m.stack := by
  induction cells generalizing m element with
  | nil => rfl
  | cons cell rest ih =>
      have hResolve : PassesOver (·.resolve cell) := fun m stack => m.resolve_setStack stack cell
      have hResolved : (m.resolve cell).2.stack = m.stack := hResolve.stack_eq m
      rw [gather]
      generalize m.resolve cell = resolved at hResolved
      obtain ⟨value, m'⟩ := resolved
      cases value with
      | reference name => exact (ih _ element).trans hResolved
      | _ =>
          dsimp only
          split
          · exact (ih m' _).trans hResolved
          · exact (ih _ element).trans hResolved

end Machine
end CellMachine
