import CellMachine.Proofs.Composition

/-!
# More of the step allowance changes nothing

A run with a larger step allowance ends as the run with the smaller one does, if that one ends at
all.  So the way a program ends does not depend on the allowance, and a program either ends alike
with all allowances from some number on or with none.

The comparison is made for computations in general: `Below x y` says that `y` ends as `x` does
wherever `x` ends.  Everything that the machine puts together from two such computations is
related in the same way.
-/

namespace CellMachine
namespace Exec

variable {α β : Type}

/-- The second computation ends as the first one does, wherever the first one ends. -/
def Below (x y : Exec α) : Prop := ∀ m, x m ≠ .exhausted → y m = x m

namespace Below

theorem refl (x : Exec α) : Below x x := fun _ _ => rfl

theorem trans {x y z : Exec α} (h : Below x y) (h' : Below y z) : Below x z := by
  intro m hEnds
  have hMiddle := h m hEnds
  rw [← hMiddle]
  refine h' m ?_
  rw [hMiddle]
  exact hEnds

theorem exhausted (y : Exec α) : Below Exec.exhausted y := fun _ hEnds => absurd rfl hEnds

theorem bind {x y : Exec α} {f g : α → Exec β} (hx : Below x y) (hf : ∀ a, Below (f a) (g a)) :
    Below (x >>= f) (y >>= g) := by
  intro m hEnds
  change Exec.bind x f m ≠ .exhausted at hEnds
  change Exec.bind y g m = Exec.bind x f m
  unfold Exec.bind at hEnds ⊢
  cases hOutcome : x m with
  | ok value m' =>
      rw [hOutcome] at hEnds
      rw [hx m (by simp [hOutcome]), hOutcome]
      exact hf value m' hEnds
  | fault cause m' => rw [hx m (by simp [hOutcome]), hOutcome]
  | exhausted => exact absurd (by rw [hOutcome]) hEnds

theorem attempt {x y : Exec α} (h : Below x y) : Below (Exec.attempt x) (Exec.attempt y) := by
  intro m hEnds
  unfold Exec.attempt at hEnds ⊢
  rw [h m fun hOut => by simp [hOut] at hEnds]

theorem inFrame {x y : Exec α} (h : Below x y) : Below (framed x) (framed y) := by
  intro m hEnds
  unfold framed at hEnds ⊢
  rw [h m.enter fun hOut => by simp [hOut] at hEnds]

theorem settling {x y : Exec α} (h : Below x y) : Below (Exec.settling x) (Exec.settling y) := by
  intro m hEnds
  unfold Exec.settling at hEnds ⊢
  rw [h m fun hOut => by simp [hOut] at hEnds]

end Below

/-! ## Bodies and calls -/

section Calls

variable {execute execute' : Code → Exec Ending} (hExecute : ∀ code, Below (execute code)
  (execute' code))

include hExecute

theorem runNative_below (native : Native) :
    Below (runNative execute native) (runNative execute' native) := by
  induction native with
  | done result args => exact Below.refl _
  | report d next ih => exact (Below.refl _).bind fun _ => ih
  | write stream text next ih => exact (Below.refl _).bind ih
  | readLine next ih => exact (Below.refl _).bind ih
  | push cell next ih => exact (Below.refl _).bind fun _ => ih
  | pop next ih => exact (Below.refl _).bind fun _ => ih _
  | define name cell next ih => exact (Below.refl _).bind ih
  | execute code next ih => exact (hExecute code).attempt.bind ih
  | teardown next ih => exact (Below.refl _).bind ih
  | depths next ih => exact (Below.refl _).bind fun depth => (Below.refl _).bind (ih depth)

theorem runUser_below (signature : Signature) (code : Code) (args : Args) :
    Below (runUser execute signature code args) (runUser execute' signature code args) := by
  refine (Below.refl _).bind fun tooDeep => ?_
  cases tooDeep with
  | true => exact Below.refl _
  | false =>
      refine ((Below.refl _).bind fun _ => ?_).inFrame
      exact (hExecute code).bind fun _ => Below.refl _

theorem runBody_below (o : Overload) (args : Args) :
    Below (runBody execute o args) (runBody execute' o args) := by
  unfold runBody
  cases o.body with
  | native resolve => exact runNative_below hExecute (resolve args)
  | user code => exact runUser_below hExecute o.signature code args

end Calls

theorem collect_below {inner inner' : List Cell → Exec Cell}
    (h : ∀ cells, Below (inner cells) (inner' cells)) (element : CellType) (done : List Cell)
    (rows : List (List Cell)) :
    Below (collect inner element done rows) (collect inner' element done rows) := by
  induction rows generalizing element done with
  | nil => exact Below.refl _
  | cons row rest ih =>
      refine (h row).bind fun result => ?_
      split
      · exact Below.refl _
      · split
        · exact ih _ _
        · exact Below.refl _

theorem broadcast_below {inner inner' : List Cell → Exec Cell}
    (h : ∀ cells, Below (inner cells) (inner' cells)) (signature : Signature) (args : Args) :
    Below (broadcast inner signature args) (broadcast inner' signature args) := by
  unfold broadcast
  dsimp only
  split
  · exact Below.refl _
  · exact collect_below h _ _ _

theorem invokeWithin_below {run run' : Args → Exec (Cell × Args)}
    (h : ∀ args, Below (run args) (run' args)) (signature : Signature) (levels : Nat)
    (args : Args) :
    Below (invokeWithin run signature levels args) (invokeWithin run' signature levels args) := by
  induction levels generalizing args with
  | zero =>
      rw [invokeWithin, invokeWithin]
      split
      · exact Below.refl _
      · split
        · exact Below.refl _
        · exact h args
  | succ levels ih =>
      rw [invokeWithin, invokeWithin]
      split
      · exact Below.refl _
      · split
        · refine (broadcast_below (fun cells => ?_) signature args).bind fun _ => Below.refl _
          exact (ih (Args.ofCells cells)).bind fun _ => Below.refl _
        · exact h args

section Runs

variable {execute execute' : Code → Exec Ending} (hExecute : ∀ code, Below (execute code)
  (execute' code))

include hExecute

theorem call_below : Below (call execute) (call execute') := by
  refine (Below.refl _).bind fun pending => ?_
  unfold makeCall
  split
  · exact Below.refl _
  · rename_i bound _
    exact (invokeWithin_below (runBody_below hExecute bound.overload) _ _ _).bind fun _ =>
      Below.refl _

theorem operator_below (function : String) (operands : Nat) :
    Below (operator execute function operands) (operator execute' function operands) :=
  (hExecute _).bind fun _ => Below.refl _

theorem binary_below (op : BinaryOp) : Below (binary execute op) (binary execute' op) := by
  refine (Below.refl _).bind fun right => (Below.refl _).bind fun left => ?_
  have hPlain (function : String) (first second : Cell) :
      Below (push first >>= fun _ => push second >>= fun _ => operator execute function 2)
        (push first >>= fun _ => push second >>= fun _ => operator execute' function 2) :=
    (Below.refl _).bind fun _ => (Below.refl _).bind fun _ => operator_below hExecute function 2
  cases op with
  | subscript =>
      exact (Below.refl _).bind fun left => (Below.refl _).bind fun right =>
        hPlain (subscriptFunction left) right left
  | _ => exact hPlain _ right left

theorem step_below (op : Op) : Below (step execute op) (step execute' op) := by
  cases op with
  | unary op => exact operator_below hExecute _ 1
  | binary op => exact binary_below hExecute op
  | call => exact call_below hExecute
  | _ => exact Below.refl _

end Runs

/-! ## Runs -/

/-- One more unit of the allowance.  Nested runs are given what is left, so the induction on the
allowance goes over all programs at once. -/
theorem runFrom_below_succ (fuel : Nat) (code : Code) (index : Nat) :
    Below (runFrom fuel code index) (runFrom (fuel + 1) code index) := by
  induction fuel generalizing code index with
  | zero => exact Below.exhausted _
  | succ fuel ih =>
      rw [runFrom, runFrom]
      split
      · exact Below.refl _
      · split
        · exact Below.refl _
        · exact (Below.refl _).bind fun next => ih code next
        · refine (Below.refl _).bind fun _ => (Below.refl _).bind fun _ => ?_
          split
          · exact (Below.refl _).bind fun next => ih code next
          · exact ih code (index + 1)
          · exact Below.refl _
        · refine (step_below (fun body => (ih body 0).settling) _).bind fun succeeded => ?_
          cases succeeded with
          | true => exact ih code (index + 1)
          | false => exact Below.refl _

/-- A run that ends ends in the same way with every larger allowance. -/
theorem runFrom_below {fuel larger : Nat} (h : fuel ≤ larger) (code : Code) (index : Nat) :
    Below (runFrom fuel code index) (runFrom larger code index) := by
  induction h with
  | refl => exact Below.refl _
  | step _ ih => exact ih.trans (runFrom_below_succ _ code index)

theorem execute_below {fuel larger : Nat} (h : fuel ≤ larger) (code : Code) :
    Below (execute fuel code) (execute larger code) :=
  (runFrom_below h code 0).settling

end Exec
end CellMachine
