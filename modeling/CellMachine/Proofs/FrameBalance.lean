import CellMachine.CommandLine
import CellMachine.Proofs.Composition

/-!
# Frames are balanced

Programs, operators, calls, element-wise calls and bodies run one another to any depth.  Whatever
they do and however they end, a computation leaves the frames below the active one, the registered
functions and the nesting limit as they were, and every overload it leaves in a pending call was registered or
pending before (`Machine.Evolves`).  A fault it ends with is one of four kinds, and a missing
pending call means that no call at all is pending (`Fault.ArisesIn`).  A computation with both
properties is `Orderly`; every computation of the machine is, by induction on the step allowance.

Main statement: `execute_balanced`.  It does NOT say that the active frame is kept, nor that the
pending calls of the caller are the same calls as before.
-/

namespace CellMachine

/-- The machine can come to run the overload: it is registered, or viable in a pending call. -/
def Machine.Holds (m : Machine) (o : Overload) : Prop :=
  (∃ name overloads, m.registry.get? name = some overloads ∧ o ∈ overloads) ∨
    ∃ c ∈ m.pending, o ∈ c.viable

/-- What every computation keeps of the machine it starts in. -/
structure Machine.Evolves (m m' : Machine) : Prop where
  waiting : m'.calls.waiting = m.calls.waiting
  registry : m'.registry = m.registry
  maxCallDepth : m'.maxCallDepth = m.maxCallDepth
  holds : ∀ o, m'.Holds o → m.Holds o

/-- When a fault can arise: the imbalances that are looked for at the end never do, and a pending
call is missed only if none is open. -/
def Fault.ArisesIn (m : Machine) : Fault → Prop
  | .noPendingCall => m.pending = []
  | .frameImbalance _ | .pendingCallsOutstanding _ => False
  | .stackUnderflow | .nonBooleanCondition _ | .invalidJumpTarget _ _ => True

namespace Machine

/-- A frame that is left with the frames below it untouched gives way to the frame before it. -/
theorem leave_eq {m m' : Machine} (h : m'.calls.waiting = m.enter.calls.waiting) :
    m'.leave = { m' with calls := m.calls } := by
  have hCalls : m'.calls.leave = some m.calls := by
    unfold CallStack.leave
    rw [h]
    rfl
  unfold leave
  rw [hCalls]
  rfl

theorem help_surroundings (m : Machine) (name : String) :
    (m.help name).2.surroundings = m.surroundings := by
  unfold help
  cases m.registry.get? name with
  | some overloads =>
      have hLines : Exec.Local (Exec.lift (·.printLines (overloads.map (·.signature.render)))) :=
        Exec.Local.lift fun hg m => hg.printLines m _
      exact hLines.surroundings_eq (m := m) rfl
  | none => rfl

namespace Evolves

theorem refl (m : Machine) : m.Evolves m := ⟨rfl, rfl, rfl, fun _ h => h⟩

theorem trans {m₁ m₂ m₃ : Machine} (h : m₁.Evolves m₂) (h' : m₂.Evolves m₃) : m₁.Evolves m₃ where
  waiting := h'.waiting.trans h.waiting
  registry := h'.registry.trans h.registry
  maxCallDepth := h'.maxCallDepth.trans h.maxCallDepth
  holds o ho := h.holds o (h'.holds o ho)

theorem of_surroundings {m m' : Machine} (h : m'.surroundings = m.surroundings) :
    m.Evolves m' := by
  unfold surroundings at h
  injection h with hWaiting hPending hRegistry hLimit
  refine ⟨hWaiting, hRegistry, hLimit, fun o ho => ?_⟩
  unfold Holds at ho ⊢
  rwa [hRegistry, hPending] at ho

/-- Only the pending calls change, and they hold no overload that was not held before. -/
theorem of_pending {m : Machine} {calls : List PendingCall}
    (h : ∀ c ∈ calls, ∀ o ∈ c.viable, m.Holds o) : m.Evolves { m with pending := calls } := by
  refine ⟨rfl, rfl, rfl, fun o ho => ?_⟩
  rcases ho with hRegistered | ⟨c, hc, ho⟩
  · exact Or.inl hRegistered
  · exact h c hc o ho

theorem settle (m : Machine) (floor : Nat) : m.Evolves (m.settle floor) :=
  of_pending fun c hc _ ho => Or.inr ⟨c, List.mem_of_mem_drop hc, ho⟩

/-- What happens in a frame of its own is no concern of the frames below. -/
theorem framed {m m' : Machine} (h : m.enter.Evolves m') : m.Evolves m'.leave := by
  rw [leave_eq h.waiting]
  exact ⟨rfl, h.registry, h.maxCallDepth, h.holds⟩

end Evolves
end Machine

/-- The relation and the faults of an orderly computation. -/
theorem Machine.Evolves.frameable :
    Exec.Frameable Machine.Evolves fun cause m => cause.ArisesIn m where
  trans h h' := h.trans h'
  active h := .of_surroundings h
  framed h := h.framed
  underflow _ := trivial
  leave {cause m} h := by cases cause <;> exact h

namespace Exec

variable {α : Type}

/-- The computation evolves the machine and raises only faults that can arise. -/
abbrev Orderly (x : Exec α) : Prop := Keeps Machine.Evolves (fun cause m => cause.ArisesIn m) x

theorem settling_orderly {x : Exec α} (hx : Orderly x) : Orderly (settling x) where
  relates {m m'} h := by
    rw [settling_eq, Outcome.machine?_onMachine, Option.map_eq_some_iff] at h
    obtain ⟨m₁, hEnds, rfl⟩ := h
    exact (hx.relates hEnds).trans (Machine.Evolves.settle m₁ _)
  raises {m m' cause} h := by
    rw [settling_eq] at h
    obtain ⟨m₁, hFault, rfl⟩ := Outcome.onMachine_eq_fault h
    have hArises := hx.raises hFault
    -- Only a missing pending call looks at the machine, and settling none leaves none.
    cases cause with
    | noPendingCall =>
        change (m₁.pending).drop _ = []
        rw [show m₁.pending = [] from hArises, List.drop_nil]
    | _ => exact hArises

/-! ## Calls -/

theorem initCall_orderly (name : String) : Orderly (Exec.lift (·.initCall name)) := by
  refine Keeps.lift fun m => ?_
  unfold Machine.initCall
  cases hRegistered : m.registry.get? name with
  | some overloads =>
      refine Machine.Evolves.of_pending fun c hc o ho => ?_
      rcases List.mem_cons.1 hc with rfl | hOuter
      · exact Or.inl ⟨name, overloads, hRegistered, ho⟩
      · exact Or.inr ⟨c, hOuter, ho⟩
  | none => exact Machine.Evolves.of_surroundings rfl

theorem help_orderly (name : String) : Orderly (Exec.lift (·.help name)) :=
  Keeps.lift fun m => Machine.Evolves.of_surroundings (m.help_surroundings name)

theorem bindArgument_orderly (param : Option String) (mode : PassMode) (a : Argument) :
    Orderly (bindArgument param mode a) where
  relates {m m'} h := by
    unfold bindArgument at h
    cases hPending : m.pending with
    | nil =>
        rw [hPending] at h
        cases h
        exact Machine.Evolves.refl m
    | cons innermost outer =>
        rw [hPending] at h
        -- Binding narrows the innermost call and leaves the others as they are.
        have hNarrowed : ∀ c ∈ (innermost.bind Handle.valid param a mode).1 :: outer,
            ∀ o ∈ c.viable, m.Holds o := by
          intro c hc o ho
          rcases List.mem_cons.1 hc with rfl | hOuter
          · refine Or.inr ⟨innermost, ?_, ?_⟩
            · rw [hPending]
              exact List.mem_cons_self
            · exact PendingCall.bind_viable_subset Handle.valid innermost param a mode ho
          · refine Or.inr ⟨c, ?_, ho⟩
            rw [hPending]
            exact List.mem_cons_of_mem _ hOuter
        dsimp only at h
        split at h
        · cases h
          exact Machine.Evolves.refl m
        · split at h
          · cases h
            exact Machine.Evolves.of_pending hNarrowed
          · cases h
            exact (Machine.Evolves.of_pending hNarrowed).trans
              (Machine.Evolves.of_surroundings rfl)
  raises {m m' cause} h := by
    unfold bindArgument at h
    cases hPending : m.pending with
    | nil =>
        rw [hPending] at h
        cases h
        exact hPending
    | cons innermost outer =>
        rw [hPending] at h
        dsimp only at h
        split at h
        · cases h
        · split at h <;> cases h

/-- Whether a call is pending is looked at before the operand is taken. -/
theorem bindTop_eq (param : Option String) (mode : PassMode) (m : Machine) :
    bindTop param mode m =
      if m.pending.isEmpty then .fault .noPendingCall m
      else (popArgument >>= bindArgument param mode) m := by
  change (if m.pending.isEmpty then fault .noPendingCall else _) m = _
  split <;> rfl

theorem bindTop_orderly (param : Option String) (mode : PassMode) :
    Orderly (bindTop param mode) := by
  have hBind : Orderly (popArgument >>= bindArgument param mode) :=
    Machine.Evolves.frameable.bind (Machine.Evolves.frameable.of_local popArgument_local)
      (bindArgument_orderly param mode)
  constructor
  · intro m m' h
    rw [bindTop_eq] at h
    split at h
    · cases h
      exact Machine.Evolves.refl m
    · exact hBind.relates h
  · intro m m' cause h
    rw [bindTop_eq] at h
    split at h
    · rename_i hEmpty
      cases h
      exact List.isEmpty_iff.1 hEmpty
    · exact hBind.raises h

theorem mem_of_takePending {m m' : Machine} {pending : PendingCall}
    (h : takePending m = .ok pending m') : pending ∈ m.pending := by
  unfold takePending at h
  split at h
  · cases h
  · rename_i hPending
    cases h
    rw [hPending]
    exact List.mem_cons_self

theorem takePending_orderly : Orderly takePending where
  relates {m m'} h := by
    unfold takePending at h
    cases hPending : m.pending with
    | nil =>
        rw [hPending] at h
        cases h
        exact Machine.Evolves.refl m
    | cons innermost outer =>
        rw [hPending] at h
        cases h
        refine Machine.Evolves.of_pending fun c hc o ho => Or.inr ⟨c, ?_, ho⟩
        rw [hPending]
        exact List.mem_cons_of_mem _ hc
  raises {m m' cause} h := by
    unfold takePending at h
    cases hPending : m.pending with
    | nil =>
        rw [hPending] at h
        cases h
        exact hPending
    | cons innermost outer => rw [hPending] at h; cases h

theorem call_orderly {execute : Code → Exec Ending} (hExecute : ∀ code, Orderly (execute code)) :
    Orderly (call execute) := by
  refine Machine.Evolves.frameable.bind takePending_orderly fun pending => ?_
  exact Machine.Evolves.frameable.compositional.makeCall pending fun o _ args =>
    Machine.Evolves.frameable.runBody hExecute o args

/-! ## Runs -/

/-- Every computation of the machine is orderly. -/
theorem orderly_running :
    Running fun {α} (x : Exec α) => Orderly x where
  toCompositional := Machine.Evolves.frameable.compositional
  settling := settling_orderly
  badTarget _ _ := Machine.Evolves.frameable.fault fun _ => trivial
  badCondition _ := Machine.Evolves.frameable.fault fun _ => trivial
  initCall := initCall_orderly
  help := help_orderly
  bindTop := bindTop_orderly
  call := call_orderly

theorem execute_orderly (fuel : Nat) (code : Code) : Orderly (execute fuel code) :=
  orderly_running.execute fuel code

/-- What a run does not complete it gives up, so it never adds to the pending calls. -/
theorem settling_pending_length_le {x : Exec α} {m m' : Machine}
    (h : (settling x m).machine? = some m') : m'.pending.length ≤ m.pending.length := by
  rw [settling_eq, Outcome.machine?_onMachine, Option.map_eq_some_iff] at h
  obtain ⟨m₁, -, rfl⟩ := h
  unfold Machine.settle
  simp only [List.length_drop]
  omega

end Exec

/-! ## The end of a command -/

namespace Machine

theorem teardown_eq_none {m : Machine} (hDepth : m.callDepth = 1) (hPending : m.pending = []) :
    m.teardown.1 = none := by
  simp [teardown, hDepth, hPending]

theorem dump_surroundings (m : Machine) : m.dump.2.surroundings = m.surroundings :=
  Exec.dump_local.surroundings_eq (m := m) rfl

theorem addFunction_frames (m : Machine) (o : Overload) :
    (m.addFunction o).2.calls = m.calls ∧ (m.addFunction o).2.pending = m.pending := by
  unfold addFunction
  split <;> exact ⟨rfl, rfl⟩

theorem addFunctions_frames (m : Machine) (overloads : List Overload) :
    (m.addFunctions overloads).2.calls = m.calls ∧
      (m.addFunctions overloads).2.pending = m.pending := by
  induction overloads generalizing m with
  | nil => exact ⟨rfl, rfl⟩
  | cons o rest ih =>
      obtain ⟨hCalls, hPending⟩ := addFunction_frames m o
      obtain ⟨hCalls', hPending'⟩ := ih (m.addFunction o).2
      exact ⟨hCalls'.trans hCalls, hPending'.trans hPending⟩

end Machine

/-- Installing a program touches neither frames nor pending calls. -/
theorem Program.installFunctions_frames (functions : List FunctionDef) (m : Machine) :
    (installFunctions functions m).2.calls = m.calls ∧
      (installFunctions functions m).2.pending = m.pending := by
  induction functions generalizing m with
  | nil => exact ⟨rfl, rfl⟩
  | cons f rest ih =>
      rw [installFunctions]
      have hDefine : (m.defineFunction f.signature .plain f.body).2.calls = m.calls ∧
          (m.defineFunction f.signature .plain f.body).2.pending = m.pending := by
        unfold Machine.defineFunction
        split
        · exact ⟨rfl, rfl⟩
        · exact Machine.addFunction_frames m _
      generalize m.defineFunction f.signature .plain f.body = defined at hDefine
      obtain ⟨answer, m'⟩ := defined
      split
      · rename_i hEq
        cases hEq
        exact hDefine
      · rename_i hEq
        cases hEq
        exact hDefine
      · rename_i hEq
        cases hEq
        exact ⟨(ih m').1.trans hDefine.1, (ih m').2.trans hDefine.2⟩

theorem Machine.withCore_frames (m : Machine) :
    m.withCore.calls = m.calls ∧ m.withCore.pending = m.pending := by
  unfold withCore
  exact m.addFunctions_frames Core.library

/-- A command starts its program at top level, with no call pending. -/
theorem Program.install_topLevel {program : Program} {stdin : List UInt8} {installed : Machine}
    (h : program.install (Machine.bare defaultMaxCallDepth stdin .fresh).withCore =
      (none, installed)) : installed.callDepth = 1 ∧ installed.pending = [] := by
  obtain ⟨hCore, hCore'⟩ :=
    (Machine.bare defaultMaxCallDepth stdin .fresh).withCore_frames
  obtain ⟨hInstall, hInstall'⟩ := installFunctions_frames program.functions
    (Machine.bare defaultMaxCallDepth stdin .fresh).withCore
  unfold install at h
  rw [h] at hInstall hInstall'
  rw [hCore] at hInstall
  rw [hCore'] at hInstall'
  refine ⟨?_, hInstall'⟩
  unfold Machine.callDepth
  rw [show installed.calls = .base from hInstall]
  rfl

theorem Exec.execute_callDepth_eq {fuel : Nat} {code : Code} {m m' : Machine}
    (h : (execute fuel code m).machine? = some m') : m'.callDepth = m.callDepth := by
  unfold Machine.callDepth CallStack.depth
  rw [((execute_orderly fuel code).relates h).waiting]

/-- A run that starts at top level with no call pending ends there with no call pending. -/
theorem Exec.execute_topLevel {fuel : Nat} {code : Code} {m m' : Machine}
    (h : (execute fuel code m).machine? = some m') (hDepth : m.callDepth = 1)
    (hPending : m.pending = []) : m'.callDepth = 1 ∧ m'.pending = [] := by
  have hLength := settling_pending_length_le h
  rw [hPending, List.length_nil, Nat.le_zero] at hLength
  exact ⟨(execute_callDepth_eq h).trans hDepth, List.eq_nil_of_length_eq_zero hLength⟩

/-- Printing the operands that are left changes nothing that the check at the end looks at. -/
theorem Machine.dump_teardown_eq_none {m : Machine} (hDepth : m.callDepth = 1)
    (hPending : m.pending = []) : m.dump.2.teardown.1 = none := by
  have hSame := m.dump_surroundings
  unfold surroundings at hSame
  injection hSame with hWaiting hCalls
  refine teardown_eq_none ?_ (hCalls.trans hPending)
  unfold callDepth CallStack.depth at hDepth ⊢
  rw [hWaiting]
  exact hDepth

/-- A run without a fault whose machine passes the check is reported by its ending. -/
theorem CommandLine.runProgram_code_ne_two {fuel : Nat} {m m' : Machine} {path : String}
    {code : Code} {ending : Ending} (h : Exec.execute fuel code m = .ok ending m')
    (hTeardown : m'.dump.2.teardown.1 = none) : (runProgram fuel m path code).code ≠ 2 := by
  have hEq : m'.dump.2.teardown = (none, m'.dump.2.teardown.2) := Prod.ext hTeardown rfl
  simp only [runProgram, h]
  rw [hEq]
  cases ending <;> simp

/-- Every program that ends, in whatever way, leaves the call depth and all frames below the active
one as they were and no more pending calls than before; so the check at the end succeeds after any
run at top level.  The command line in particular never ends with an imbalance: a run without a
fault is reported by its ending, and no fault of a run is one of the two that the check looks
for. -/
theorem execute_balanced (fuel : Nat) :
    (∀ (code : Code) (m m' : Machine), (Exec.execute fuel code m).machine? = some m' →
      m'.callDepth = m.callDepth ∧ m'.calls.waiting = m.calls.waiting ∧
        m'.pending.length ≤ m.pending.length ∧
        (m.callDepth = 1 → m.pending = [] → m'.teardown.1 = none)) ∧
    ∀ (program : Program) (stdin : List UInt8) (installed : Machine) (path : String),
      program.install (Machine.bare defaultMaxCallDepth stdin .fresh).withCore =
          (none, installed) →
        (∀ ending m', Exec.execute fuel program.main installed = .ok ending m' →
          m'.dump.2.teardown.1 = none ∧
            (CommandLine.runProgram fuel installed path program.main).code ≠ 2) ∧
        ∀ cause m', Exec.execute fuel program.main installed = .fault cause m' →
          ∀ n, cause ≠ .frameImbalance n ∧ cause ≠ .pendingCallsOutstanding n := by
  constructor
  · intro code m m' h
    refine ⟨Exec.execute_callDepth_eq h, ((Exec.execute_orderly fuel code).relates h).waiting,
      Exec.settling_pending_length_le h, fun hDepth hPending => ?_⟩
    obtain ⟨hDepth', hPending'⟩ := Exec.execute_topLevel h hDepth hPending
    exact Machine.teardown_eq_none hDepth' hPending'
  · -- The command starts at top level with no call pending.
    intro program stdin installed path hInstall
    obtain ⟨hDepth, hPending⟩ := Program.install_topLevel hInstall
    constructor
    · intro ending m' h
      have hEnds : (Exec.execute fuel program.main installed).machine? = some m' := by
        rw [h]
        rfl
      obtain ⟨hDepth', hPending'⟩ := Exec.execute_topLevel hEnds hDepth hPending
      have hTeardown := Machine.dump_teardown_eq_none hDepth' hPending'
      exact ⟨hTeardown, CommandLine.runProgram_code_ne_two h hTeardown⟩
    · intro cause m' h n
      have hArises := (Exec.execute_orderly fuel program.main).raises h
      constructor
      · rintro rfl
        exact hArises
      · rintro rfl
        exact hArises

end CellMachine
