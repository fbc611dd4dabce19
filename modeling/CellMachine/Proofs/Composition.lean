import CellMachine.Proofs.Binding
import CellMachine.Proofs.Locality

/-!
# Properties that pass from parts to wholes

Programs, calls, element-wise calls and bodies run one another.  A property of computations is
`Chained` when reports have it and sequencing preserves it; then element-wise calls have it.  It is
`Sequential` when all local computations have it, and `Compositional` when all the ways in which
the machine puts computations together preserve it; then every call has it whose bodies have it.
It is `Running` when moreover the operations on pending calls have it; then every run of a program
has it, by an induction on the step allowance that is made here once.

The first family of such properties is `Keeps K F`: however a computation ends, it relates the
machine it starts in to the one it leaves behind by `K`, and raises its faults by `F`.  Nothing
here says that a particular `K` is kept by the operations on pending calls; relations differ in
that.
-/

namespace CellMachine

/-- The native function neither runs programs nor tears the machine down. -/
def Native.Quiet : Native → Prop
  | done _ _ => True
  | report _ next => next.Quiet
  | write _ _ next => ∀ refusal, (next refusal).Quiet
  | readLine next => ∀ line, (next line).Quiet
  | push _ next => next.Quiet
  | pop next => ∀ top, (next top).Quiet
  | define _ _ next => ∀ defined, (next defined).Quiet
  | execute _ _ => False
  | teardown _ => False
  | depths next => ∀ depth operands, (next depth operands).Quiet

/-- The native function leaves the operands alone: it neither pushes nor pops, and it has nothing
done that might. -/
def Native.Steady : Native → Prop
  | done _ _ => True
  | report _ next => next.Steady
  | write _ _ next => ∀ refusal, (next refusal).Steady
  | readLine next => ∀ line, (next line).Steady
  | push _ _ | pop _ => False
  | define _ _ next => ∀ defined, (next defined).Steady
  | execute _ _ | teardown _ => False
  | depths next => ∀ depth operands, (next depth operands).Steady

theorem Native.Steady.quiet {native : Native} (h : native.Steady) : native.Quiet := by
  induction native with
  | done result args => trivial
  | report d next ih => exact ih h
  | write stream text next ih => exact fun refusal => ih refusal (h refusal)
  | readLine next ih => exact fun line => ih line (h line)
  | push cell next ih => exact h.elim
  | pop next ih => exact h.elim
  | define name cell next ih => exact fun defined => ih defined (h defined)
  | execute code next ih => exact h.elim
  | teardown next ih => exact h.elim
  | depths next ih => exact fun depth operands => ih depth operands (h depth operands)

namespace Exec

/-- What is done in the frame of a callee: arguments are copied in, the body is run, and its
result and the by-reference parameters are taken out. -/
def inCallee (execute : Code → Exec Ending) (signature : Signature) (code : Code) (args : Args) :
    Exec (Cell × Args) := do
  defineParams (signature.params.zip args.cells)
  let ending ← execute code
  let result ← bodyResult ending
  let args ← copyOut signature.params 0 args
  return (result, args)

theorem runUser_eq (execute : Code → Exec Ending) (signature : Signature) (code : Code)
    (args : Args) (m : Machine) :
    runUser execute signature code args m =
      if m.maxCallDepth ≤ m.callDepth then .ok (.error "Error: Call stack overflow", args) m
      else framed (inCallee execute signature code args) m := by
  change (if decide (m.maxCallDepth ≤ m.callDepth) = true then
    (Pure.pure (.error "Error: Call stack overflow", args) : Exec (Cell × Args))
    else framed (inCallee execute signature code args)) m = _
  by_cases hDeep : m.maxCallDepth ≤ m.callDepth
  · rw [if_pos (decide_eq_true hDeep), if_pos hDeep]
    rfl
  · rw [if_neg (by simpa using hDeep), if_neg hDeep]

/-- The program behind an operator opens a call, binds its arguments and makes it. -/
theorem mem_operatorCode {function : String} {operands : Nat} {instruction : Instruction}
    (h : instruction ∈ operatorCode function operands) :
    instruction.op = .initCall function ∨ instruction.op = .bind none .automatic ∨
      instruction.op = .call := by
  unfold operatorCode at h
  simp only [List.mem_toArray, List.mem_map, List.mem_append, List.mem_cons, List.mem_replicate,
    List.not_mem_nil, or_false] at h
  obtain ⟨op, (rfl | ⟨-, rfl⟩) | rfl, rfl⟩ := h
  · exact Or.inl rfl
  · exact Or.inr (Or.inl rfl)
  · exact Or.inr (Or.inr rfl)

theorem size_operatorCode (function : String) (operands : Nat) :
    (operatorCode function operands).size = operands + 2 := by
  simp [operatorCode]

/-! ## Element-wise calls -/

/-- A property of computations that reports have and that sequencing preserves. -/
structure Chained (P : {α : Type} → Exec α → Prop) : Prop where
  pure : ∀ {α : Type} (value : α), P (Pure.pure value : Exec α)
  report : ∀ d, P (Exec.report d)
  bind : ∀ {α β : Type} {x : Exec α} {f : α → Exec β}, P x → (∀ a, P (f a)) → P (x >>= f)

namespace Chained

variable {P : {α : Type} → Exec α → Prop} (hP : Chained P)

include hP

theorem failWith (d : Diagnostic) : P (Exec.failWith d) := hP.bind (hP.report d) fun _ => hP.pure _

theorem collect {inner : List Cell → Exec Cell} {rows : List (List Cell)}
    (hInner : ∀ row ∈ rows, P (inner row)) (element : CellType) (done : List Cell) :
    P (Exec.collect inner element done rows) := by
  induction rows generalizing element done with
  | nil => exact hP.pure _
  | cons row rest ih =>
      rw [List.forall_mem_cons] at hInner
      refine hP.bind hInner.1 fun result => ?_
      by_cases hError : result.isError = true
      · rw [if_pos hError]
        exact hP.pure result
      · rw [if_neg hError]
        cases element.absorb result with
        | ok merged => exact ih hInner.2 merged (result :: done)
        | error _ => exact hP.failWith _

/-- Only the element-wise calls themselves need to have the property. -/
theorem broadcast {inner : List Cell → Exec Cell} {signature : Signature} {args : Args}
    (hInner : ∀ count, ∀ row ∈ Spread.rows (Spread.ofArgs signature args) count, P (inner row)) :
    P (Exec.broadcast inner signature args) := by
  unfold Exec.broadcast
  dsimp only
  split
  · exact hP.failWith _
  · exact hP.collect (hInner _) _ _

theorem invokeWithin {run : Args → Exec (Cell × Args)}
    (hExhausted : ∀ {α : Type}, P (Exec.exhausted : Exec α)) (hRun : ∀ args, P (run args))
    (signature : Signature) (levels : Nat) (args : Args) :
    P (Exec.invokeWithin run signature levels args) := by
  induction levels generalizing args with
  | zero =>
      rw [Exec.invokeWithin]
      split
      · exact hP.bind (hP.failWith _) fun _ => hP.pure _
      · split
        · exact hExhausted
        · exact hRun args
  | succ levels ih =>
      rw [Exec.invokeWithin]
      split
      · exact hP.bind (hP.failWith _) fun _ => hP.pure _
      · split
        · refine hP.bind (hP.broadcast fun _ row _ => ?_) fun _ => hP.pure _
          exact hP.bind (ih (Args.ofCells row)) fun _ => hP.pure _
        · exact hRun args

end Chained

/-! ## Calls -/

/-- A property of computations that sequencing preserves and that looking at the depth of the
calls has. -/
structure Sequential (P : {α : Type} → Exec α → Prop) : Prop where
  of_local : ∀ {α : Type} {x : Exec α}, Local x → P x
  bind : ∀ {α β : Type} {x : Exec α} {f : α → Exec β}, P x → (∀ a, P (f a)) → P (x >>= f)
  depths : ∀ {α : Type} (f : Nat → Nat → α), P (observe fun m => f m.callDepth m.maxCallDepth)

/-- A property of computations that all the machine's ways of putting them together preserve. -/
structure Compositional (P : {α : Type} → Exec α → Prop) : Prop extends Sequential P where
  exhausted : ∀ {α : Type}, P (Exec.exhausted : Exec α)
  inFrame : ∀ {α : Type} {x : Exec α}, P x → P (framed x)

/-- The instructions have the property that go beyond the active frame, where programs are run by
`execute`. -/
structure Performs (P : {α : Type} → Exec α → Prop) (execute : Code → Exec Ending) : Prop where
  initCall : ∀ name, P (Exec.lift (·.initCall name))
  help : ∀ name, P (Exec.lift (·.help name))
  bindTop : ∀ param mode, P (Exec.bindTop param mode)
  operator : ∀ function, ∀ operands ≤ 2, P (Exec.operator execute function operands)
  call : P (Exec.call execute)

namespace Sequential

variable {P : {α : Type} → Exec α → Prop} (hP : Sequential P)

include hP

theorem pure {α : Type} (value : α) : P (Pure.pure value : Exec α) := hP.of_local (Local.pure value)

theorem chained : Chained P where
  pure := hP.pure
  report d := hP.of_local (report_local d)
  bind := hP.bind

/-! ### Bodies -/

/-- A native function that re-enters the machine is no exception if the property stands that its
nested runs are watched and the machine torn down. -/
theorem runNative {execute : Code → Exec Ending} (native : Native)
    (hReentry : native.Quiet ∨
      (∀ code, P (attempt (execute code))) ∧ P (Exec.lift (·.teardown))) :
    P (Exec.runNative execute native) := by
  induction native with
  | done result args => exact hP.pure _
  | report d next ih => exact hP.bind (hP.of_local (report_local d)) fun _ => ih hReentry
  | write stream text next ih =>
      refine hP.bind (hP.of_local (Local.lift fun hg m => ?_)) fun refusal =>
        ih refusal (hReentry.imp_left fun h => h refusal)
      exact hg.writeStream m stream text
  | readLine next ih =>
      exact hP.bind (hP.of_local (Local.lift fun hg m => hg.readLine m)) fun line =>
        ih line (hReentry.imp_left fun h => h line)
  | push cell next ih => exact hP.bind (hP.of_local (push_local cell)) fun _ => ih hReentry
  | pop next ih =>
      exact hP.bind (hP.of_local pop_local.attempt) fun top =>
        ih _ (hReentry.imp_left fun h => h _)
  | define name cell next ih =>
      exact hP.bind (hP.of_local (define_local name cell)) fun defined =>
        ih defined (hReentry.imp_left fun h => h defined)
  | execute code next ih =>
      -- Only here does a function see how a run ended.
      rcases hReentry with hQuiet | hReentry
      · exact hQuiet.elim
      · exact hP.bind (hReentry.1 code) fun ending => ih ending (Or.inr hReentry)
  | teardown next ih =>
      rcases hReentry with hQuiet | hReentry
      · exact hQuiet.elim
      · exact hP.bind hReentry.2 fun fault => ih fault (Or.inr hReentry)
  | depths next ih =>
      refine hP.bind (hP.depths fun depth _ => depth) fun depth => ?_
      refine hP.bind (hP.of_local (Local.observe fun hg m => ?_)) fun operands =>
        ih depth operands (hReentry.imp_left fun h => h depth operands)
      rw [hg.stack]

/-- What is done in the frame of a callee has the property if the run of its body has it. -/
theorem inCallee {execute : Code → Exec Ending} {code : Code} (hExecute : P (execute code))
    (signature : Signature) (args : Args) : P (Exec.inCallee execute signature code args) := by
  refine hP.bind (hP.of_local (defineParams_local _)) fun _ => ?_
  refine hP.bind hExecute fun ending => ?_
  refine hP.bind (hP.of_local (bodyResult_local ending)) fun result => ?_
  exact hP.bind (hP.of_local (copyOut_local _ _ _)) fun args => hP.pure _

/-! ### Invocation -/

theorem broadcast {inner : List Cell → Exec Cell} {signature : Signature} {args : Args}
    (hInner : ∀ count, ∀ row ∈ Spread.rows (Spread.ofArgs signature args) count, P (inner row)) :
    P (Exec.broadcast inner signature args) :=
  hP.chained.broadcast hInner

/-- A call has the property if the invocation has it that the call comes down to. -/
theorem makeCall_of_invoke {run : Overload → Args → Exec (Cell × Args)} (pending : PendingCall)
    (hInvoke : ∀ bound, pending.finish = .ok bound →
      P (Exec.invoke run bound.overload bound.args)) : P (Exec.makeCall run pending) := by
  unfold Exec.makeCall
  cases hFinish : pending.finish with
  | error d =>
      have hPush : P (push (.error d.message) >>= fun _ => Pure.pure false) :=
        hP.bind (hP.of_local (push_local _)) fun _ => hP.pure false
      by_cases hFailed : (!pending.failed) = true
      · simp only [hFailed, if_true]
        exact hP.bind (hP.of_local (report_local d)) fun _ => hPush
      · simp only [hFailed]
        exact hPush
  | ok bound =>
      refine hP.bind (hInvoke bound hFinish) fun answer => ?_
      obtain ⟨result, args⟩ := answer
      refine hP.bind (hP.of_local (push_local result)) fun _ => ?_
      exact hP.bind (hP.of_local (writeBack_local args bound.targets 0)) fun _ => hP.pure _

/-! ### Instructions -/

theorem binary {execute : Code → Exec Ending}
    (hOperator : ∀ function, P (Exec.operator execute function 2)) (op : BinaryOp) :
    P (Exec.binary execute op) := by
  refine hP.bind (hP.of_local pop_local) fun right => ?_
  refine hP.bind (hP.of_local pop_local) fun left => ?_
  have hPlain (function : String) (first second : Cell) :
      P (push first >>= fun _ => push second >>= fun _ => Exec.operator execute function 2) :=
    hP.bind (hP.of_local (push_local first)) fun _ =>
      hP.bind (hP.of_local (push_local second)) fun _ => hOperator function
  cases op with
  | subscript =>
      refine hP.bind (hP.of_local (resolve_local left)) fun left => ?_
      exact hP.bind (hP.of_local (resolve_local right)) fun right =>
        hPlain (subscriptFunction left) right left
  | _ => exact hPlain _ right left

theorem step {execute : Code → Exec Ending} (h : Performs P execute) (op : Op) :
    P (Exec.step execute op) := by
  cases op with
  | push constant => exact hP.bind (hP.of_local (push_local _)) fun _ => hP.pure true
  | pushRef name => exact hP.bind (hP.of_local (push_local _)) fun _ => hP.pure true
  | pushList count => exact hP.of_local (pushList_local count)
  | pop => exact hP.bind (hP.of_local pop_local.attempt) fun _ => hP.pure true
  | flush => exact hP.bind (hP.of_local flush_local) fun _ => hP.pure true
  | dump => exact hP.of_local dump_local
  | output => exact hP.of_local output_local
  | clear => exact hP.bind (hP.of_local clear_local) fun _ => hP.pure true
  | unassign => exact hP.of_local unassign_local
  | unary op => exact h.operator _ 1 (by omega)
  | binary op => exact hP.binary (fun function => h.operator function 2 (Nat.le_refl 2)) op
  | initCall function => exact h.initCall function
  | bind param mode => exact h.bindTop param mode
  | call => exact h.call
  | help function => exact h.help function
  | jump target => exact hP.pure true
  | jumpIf target => exact hP.pure true
  | quit => exact hP.pure true

end Sequential

namespace Compositional

variable {P : {α : Type} → Exec α → Prop} (hP : Compositional P)

include hP

theorem runUser {execute : Code → Exec Ending} (hExecute : ∀ code, P (execute code))
    (signature : Signature) (code : Code) (args : Args) :
    P (Exec.runUser execute signature code args) := by
  -- The nesting is looked at before the frame is entered, so a refusal enters none.
  refine hP.bind (hP.depths fun depth limit => decide (limit ≤ depth)) fun tooDeep => ?_
  cases tooDeep with
  | true => exact hP.pure _
  | false => exact hP.inFrame (hP.inCallee (hExecute code) signature args)

theorem invokeWithin {run : Args → Exec (Cell × Args)} (hRun : ∀ args, P (run args))
    (signature : Signature) (levels : Nat) (args : Args) :
    P (Exec.invokeWithin run signature levels args) :=
  hP.chained.invokeWithin hP.exhausted hRun signature levels args

/-- Only the bodies of viable overloads are run, so only these need to have the property. -/
theorem makeCall {run : Overload → Args → Exec (Cell × Args)} (pending : PendingCall)
    (hRun : ∀ o ∈ pending.viable, ∀ args, P (run o args)) : P (Exec.makeCall run pending) := by
  refine hP.makeCall_of_invoke pending fun bound hFinish => ?_
  have hViable := (PendingCall.finish_eq_ok hFinish).1
  exact hP.invokeWithin (hRun bound.overload hViable) _ _ _

end Compositional

/-! ## Runs -/

/-- A compositional property that the operations on pending calls have, and a call if the runs
have it that its bodies start. -/
structure Running (P : {α : Type} → Exec α → Prop) : Prop extends Compositional P where
  settling : ∀ {α : Type} {x : Exec α}, P x → P (Exec.settling x)
  badTarget : ∀ {α : Type} (target length : Nat),
    P (fault (.invalidJumpTarget target length) : Exec α)
  badCondition : ∀ {α : Type} (line : Nat), P (fault (.nonBooleanCondition line) : Exec α)
  initCall : ∀ name, P (Exec.lift (·.initCall name))
  help : ∀ name, P (Exec.lift (·.help name))
  bindTop : ∀ param mode, P (Exec.bindTop param mode)
  call : ∀ {execute : Code → Exec Ending}, (∀ code, P (execute code)) → P (Exec.call execute)

namespace Running

variable {P : {α : Type} → Exec α → Prop} (hP : Running P)

include hP

theorem performs {execute : Code → Exec Ending} (hExecute : ∀ code, P (execute code)) :
    Performs P execute where
  initCall := hP.initCall
  help := hP.help
  bindTop := hP.bindTop
  operator _ _ _ := hP.bind (hExecute _) fun _ => hP.pure _
  call := hP.call hExecute

theorem jumpIndex (target length : Nat) : P (Exec.jumpIndex target length) := by
  unfold Exec.jumpIndex
  split
  · exact hP.pure _
  · exact hP.badTarget target length

/-- A run from any index has the property.  The induction is on the step allowance, which every
nested run has less of. -/
theorem runFrom (fuel : Nat) (code : Code) (index : Nat) : P (Exec.runFrom fuel code index) := by
  induction fuel generalizing code index with
  | zero => exact hP.exhausted
  | succ fuel ih =>
      rw [Exec.runFrom]
      split
      · exact hP.pure _
      · rename_i instruction _
        split
        · exact hP.pure _
        · exact hP.bind (hP.jumpIndex _ _) fun next => ih code next
        · refine hP.bind (hP.of_local pop_local) fun condition => ?_
          refine hP.bind (hP.of_local (resolve_local condition)) fun value => ?_
          split
          · exact hP.bind (hP.jumpIndex _ _) fun next => ih code next
          · exact ih code (index + 1)
          · exact hP.bind (hP.of_local (push_local _)) fun _ => hP.badCondition _
        · -- The runs that an instruction starts have what is left of the allowance.
          refine hP.bind (hP.step (hP.performs fun body => hP.settling (ih body 0)) _) fun succeeded => ?_
          cases succeeded with
          | true => exact ih code (index + 1)
          | false => exact hP.pure _

theorem execute (fuel : Nat) (code : Code) : P (Exec.execute fuel code) :=
  hP.settling (hP.runFrom fuel code 0)

end Running

/-! ## Relations that are kept -/

section Keeps

variable {α β : Type} {K : Machine → Machine → Prop} {F : Fault → Machine → Prop}

/-- The computation relates its first machine to its last by `K`, and raises its faults by `F`. -/
structure Keeps (K : Machine → Machine → Prop) (F : Fault → Machine → Prop) (x : Exec α) :
    Prop where
  relates : ∀ {m m' : Machine}, (x m).machine? = some m' → K m m'
  raises : ∀ {m m' : Machine} {cause : Fault}, x m = .fault cause m' → F cause m'

namespace Keeps

theorem exhausted : Keeps K F (Exec.exhausted : Exec α) where
  relates h := by cases h
  raises h := by cases h

theorem lift {f : Machine → α × Machine} (hf : ∀ m, K m (f m).2) : Keeps K F (Exec.lift f) where
  relates {m m'} h := by
    cases h
    exact hf m
  raises h := by cases h

theorem attempt {x : Exec α} (hx : Keeps K F x) : Keeps K F (Exec.attempt x) where
  relates {m m'} h := by
    unfold Exec.attempt at h
    apply hx.relates
    cases hOutcome : x m <;> rw [hOutcome] at h <;> exact h
  raises {m m' cause} h := by
    unfold Exec.attempt at h
    split at h <;> cases h

end Keeps

/-- What a relation and a fault condition need for computations to be put together. -/
structure Frameable (K : Machine → Machine → Prop) (F : Fault → Machine → Prop) : Prop where
  trans : ∀ {m₁ m₂ m₃ : Machine}, K m₁ m₂ → K m₂ m₃ → K m₁ m₃
  active : ∀ {m m' : Machine}, m'.surroundings = m.surroundings → K m m'
  framed : ∀ {m m' : Machine}, K m.enter m' → K m m'.leave
  underflow : ∀ m : Machine, F .stackUnderflow m
  leave : ∀ {cause : Fault} {m : Machine}, F cause m → F cause m.leave

namespace Frameable

variable (hK : Frameable K F)

include hK

theorem refl (m : Machine) : K m m := hK.active rfl

theorem of_local {x : Exec α} (hx : Local x) : Keeps K F x where
  relates h := hK.active (hx.surroundings_eq h)
  raises {m m' cause} h := by
    rw [hx.underflow m cause m' h]
    exact hK.underflow m'

theorem bind {x : Exec α} {f : α → Exec β} (hx : Keeps K F x) (hf : ∀ a, Keeps K F (f a)) :
    Keeps K F (x >>= f) where
  relates {m m'} h := by
    change (Exec.bind x f m).machine? = some m' at h
    unfold Exec.bind at h
    cases hOutcome : x m with
    | ok value m₁ =>
        rw [hOutcome] at h
        have hFirst : K m m₁ := hx.relates (by rw [hOutcome]; rfl)
        exact hK.trans hFirst ((hf value).relates h)
    | fault cause m₁ =>
        rw [hOutcome] at h
        exact hx.relates (by rw [hOutcome]; exact h)
    | exhausted => rw [hOutcome] at h; cases h
  raises {m m' cause} h := by
    change Exec.bind x f m = .fault cause m' at h
    unfold Exec.bind at h
    cases hOutcome : x m with
    | ok value m₁ =>
        rw [hOutcome] at h
        exact (hf value).raises h
    | fault cause₁ m₁ =>
        rw [hOutcome] at h
        cases h
        exact hx.raises hOutcome
    | exhausted => rw [hOutcome] at h; cases h

theorem inFrame {x : Exec α} (hx : Keeps K F x) : Keeps K F (Exec.framed x) where
  relates {m m'} h := by
    rw [framed_eq, Outcome.machine?_onMachine, Option.map_eq_some_iff] at h
    obtain ⟨m₁, hEnds, rfl⟩ := h
    exact hK.framed (hx.relates hEnds)
  raises {m m' cause} h := by
    rw [framed_eq] at h
    obtain ⟨m₁, hFault, rfl⟩ := Outcome.onMachine_eq_fault h
    exact hK.leave (hx.raises hFault)

/-- A fault that may be raised in any machine. -/
theorem fault {cause : Fault} (hCause : ∀ m, F cause m) :
    Keeps K F (Exec.fault cause : Exec α) where
  relates {m m'} h := by
    cases h
    exact hK.refl m
  raises {m m' cause} h := by
    cases h
    exact hCause m

theorem compositional : Compositional (Keeps K F) where
  of_local := hK.of_local
  bind := hK.bind
  exhausted := Keeps.exhausted
  inFrame := hK.inFrame
  depths f := Keeps.lift (f := fun m => (f m.callDepth m.maxCallDepth, m)) hK.refl

/-- Every body keeps the relation whose nested runs do. -/
theorem runBody {execute : Code → Exec Ending} (hExecute : ∀ code, Keeps K F (execute code))
    (o : Overload) (args : Args) : Keeps K F (Exec.runBody execute o args) := by
  unfold Exec.runBody
  cases o.body with
  | native resolve =>
      refine hK.compositional.runNative _ (Or.inr ⟨fun code => (hExecute code).attempt, ?_⟩)
      refine Keeps.lift fun m => ?_
      unfold Machine.teardown
      split
      · exact hK.refl m
      · split
        · exact hK.refl m
        · exact hK.active rfl
  | user code => exact hK.compositional.runUser hExecute o.signature code args

end Frameable
end Keeps
end Exec
end CellMachine
