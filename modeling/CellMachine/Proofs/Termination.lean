import CellMachine.Proofs.Allowance
import CellMachine.Proofs.Dispatch
import CellMachine.Proofs.Isolation

/-!
# Programs without backward jumps end

If no jump goes backwards, neither in a program nor in the bodies it can come to run, then the
program ends with some step allowance, and by what is known about larger allowances it ends in the
same way with all of them.  Recursion is not restricted: what bounds it is the nesting limit of the
machine.  So three quantities go down together: the calls that may still be nested, the instructions
that are left of each run, and the levels of lists that are left of each argument taken apart.

A computation that is `Halting size depth` ends in every machine whose bodies have at most `size`
instructions and which may nest `depth` further calls.  Main statement: `execute_terminates`.  It
does NOT bound the allowance by the size of the input alone; the nesting limit enters as a factor.
-/

namespace CellMachine

/-! ## Jumps that go forward -/

/-- Where an instruction may jump to; targets count from one. -/
def Op.target? : Op → Option Nat
  | jump target => some target
  | jumpIf target => some target
  | _ => none

/-- Every jump of the code goes to an instruction behind it. -/
def Code.Forward (code : Code) : Prop :=
  ∀ index : Fin code.size, ∀ target ∈ code[index].op.target?, index + 1 < target

instance (code : Code) : Decidable code.Forward :=
  inferInstanceAs (Decidable (∀ index : Fin code.size, ∀ target ∈ code[index].op.target?,
    index + 1 < target))

theorem Code.Forward.lt_target {code : Code} (h : code.Forward) {index target : Nat}
    {instruction : Instruction} (hAt : code[index]? = some instruction)
    (hTarget : instruction.op.target? = some target) : index + 1 < target := by
  obtain ⟨hIndex, rfl⟩ := Array.getElem?_eq_some_iff.1 hAt
  exact h ⟨index, hIndex⟩ target hTarget

/-- A body that is code jumps forward only. -/
def Overload.Forward (o : Overload) : Prop := ∀ code, o.body = .user code → code.Forward

/-- How many instructions a body has. -/
def Overload.bodySize (o : Overload) : Nat :=
  match o.body with
  | .native _ => 0
  | .user code => code.size

namespace Machine

/-- The overloads that a machine can come to run are finitely many. -/
theorem exists_held (m : Machine) : ∃ held : List Overload, ∀ o, m.Holds o → o ∈ held := by
  refine ⟨m.registry.entries.flatMap Prod.snd ++ m.pending.flatMap PendingCall.viable, ?_⟩
  rintro o (⟨name, overloads, hGet, ho⟩ | ⟨c, hc, ho⟩)
  · obtain ⟨before, after, hEntries, -⟩ := List.lookup_eq_some_iff.1 hGet
    have hEntry : (name, overloads) ∈ m.registry.entries := by simp [hEntries]
    exact List.mem_append_left _ (List.mem_flatMap.2 ⟨_, hEntry, ho⟩)
  · exact List.mem_append_right _ (List.mem_flatMap.2 ⟨c, hc, ho⟩)

theorem exists_bodySize_le (m : Machine) : ∃ size, ∀ o, m.Holds o → o.bodySize ≤ size := by
  obtain ⟨held, hHeld⟩ := m.exists_held
  refine ⟨(held.map Overload.bodySize).max?.getD 0, fun o ho => ?_⟩
  exact List.le_max?_getD_of_mem (List.mem_map_of_mem (hHeld o ho))

/-- The bodies of the machine end by themselves, none has more than `size` instructions, and at
most `depth` further calls may be nested. -/
structure Bounded (size depth : Nat) (m : Machine) : Prop where
  quiet : m.Quiet
  forward : ∀ o, m.Holds o → o.Forward
  bodies : ∀ o, m.Holds o → o.bodySize ≤ size
  nesting : m.maxCallDepth ≤ m.callDepth + depth

theorem Bounded.evolves {size depth : Nat} {m m' : Machine} (h : m.Bounded size depth)
    (hEvolves : m.Evolves m') : m'.Bounded size depth where
  quiet := hEvolves.quiet h.quiet
  forward o ho := h.forward o (hEvolves.holds o ho)
  bodies o ho := h.bodies o (hEvolves.holds o ho)
  nesting := by
    have hDepth : m'.callDepth = m.callDepth := by
      unfold callDepth CallStack.depth
      rw [hEvolves.waiting]
    rw [hEvolves.maxCallDepth, hDepth]
    exact h.nesting

/-- Entering a frame uses up one of the calls that may be nested. -/
theorem Bounded.enter {size depth : Nat} {m : Machine} (h : m.Bounded size (depth + 1)) :
    m.enter.Bounded size depth where
  quiet := h.quiet
  forward := h.forward
  bodies := h.bodies
  nesting := by
    have hNesting := h.nesting
    have hEnter : m.enter.callDepth = m.callDepth + 1 := rfl
    change m.maxCallDepth ≤ _
    omega

end Machine

/-! ## Lists that are taken apart -/

/-- Only a list is taken apart. -/
theorem Param.exists_of_spreads {p : Param} {cell : Cell} (h : p.spreads cell = true) :
    ∃ element items, cell = .list element items := by
  have hElements : p.type.acceptsElements cell.type = true := by
    unfold spreads acceptsBroadcast at h
    revert h
    cases p.byRef <;> cases p.accepts cell <;> simp
  cases cell with
  | list element items => exact ⟨element, items, rfl⟩
  | stream stream => cases stream <;> cases hElements
  | _ => cases hElements

namespace Spread

/-- What has to be taken apart is nested at most that deeply. -/
def Within (levels : Nat) (spreads : List Spread) : Prop :=
  ∀ s ∈ spreads, s.apart = true → s.cell.height ≤ levels

theorem mem_zipWith_ofParam {params : List Param} {cells : List Cell} {s : Spread}
    (h : s ∈ List.zipWith ofParam params cells) :
    s.cell ∈ cells ∧ ∃ p : Param, s.apart = p.spreads s.cell := by
  induction params generalizing cells with
  | nil => cases h
  | cons p params ih =>
      cases cells with
      | nil => cases h
      | cons cell cells =>
          rw [List.zipWith_cons_cons] at h
          rcases List.mem_cons.1 h with rfl | hRest
          · exact ⟨List.mem_cons_self, p, rfl⟩
          · exact ⟨List.mem_cons_of_mem _ (ih hRest).1, (ih hRest).2⟩

theorem ofArgs_within (signature : Signature) (args : Args) :
    Within (Cell.heights args.cells) (ofArgs signature args) :=
  fun _ hs _ => Cell.height_le_heights (mem_zipWith_ofParam hs).1

/-- As long as something has to be taken apart there is a level left. -/
theorem Within.levels_pos {levels : Nat} {signature : Signature} {args : Args}
    (h : Within levels (ofArgs signature args)) (hApart : needsBroadcast signature args = true) :
    0 < levels := by
  obtain ⟨s, hs, hsApart⟩ := List.any_eq_true.1 hApart
  obtain ⟨-, p, hSpreads⟩ := mem_zipWith_ofParam hs
  obtain ⟨element, items, hList⟩ := Param.exists_of_spreads (hSpreads.symm.trans hsApart)
  have hHeight := h s hs hsApart
  rw [hList, Cell.height] at hHeight
  omega

/-- The share of an element-wise call is nested less deeply, or is not taken apart any more. -/
theorem element_within {levels index : Nat} {p : Param} {cell : Cell}
    (h : (ofParam p cell).apart = true → cell.height ≤ levels + 1)
    (hApart : p.spreads ((ofParam p cell).element index) = true) :
    ((ofParam p cell).element index).height ≤ levels := by
  cases hSpreads : p.spreads cell with
  | false =>
      have hWhole : (ofParam p cell).element index = cell := by
        unfold ofParam element
        rw [hSpreads]
      rw [hWhole, hSpreads] at hApart
      cases hApart
  | true =>
      have hHeight := h hSpreads
      obtain ⟨element, items, rfl⟩ := Param.exists_of_spreads hSpreads
      rw [Cell.height] at hHeight
      unfold ofParam Spread.element
      rw [hSpreads]
      dsimp only
      cases hItem : items[index]? with
      | none => exact Nat.zero_le _
      | some item =>
          have hLess := Cell.height_le_heights (List.mem_of_getElem? hItem)
          change item.height ≤ levels
          omega

theorem elements_within {levels : Nat} (index : Nat) {params : List Param} {cells : List Cell}
    (h : Within (levels + 1) (List.zipWith ofParam params cells)) :
    Within levels
      (List.zipWith ofParam params ((List.zipWith ofParam params cells).map (element index))) := by
  induction params generalizing cells with
  | nil => exact fun _ hs => by cases hs
  | cons p params ih =>
      cases cells with
      | nil => exact fun _ hs => by cases hs
      | cons cell cells =>
          simp only [Within, List.zipWith_cons_cons, List.map_cons, List.forall_mem_cons] at h ⊢
          exact ⟨element_within h.1, ih h.2⟩

theorem rows_within {levels count : Nat} {signature : Signature} {args : Args}
    (h : Within (levels + 1) (ofArgs signature args)) {row : List Cell}
    (hRow : row ∈ rows (ofArgs signature args) count) :
    Within levels (ofArgs signature (Args.ofCells row)) := by
  obtain ⟨index, -, rfl⟩ := List.mem_map.1 hRow
  unfold ofArgs
  rw [Args.cells_ofCells]
  exact elements_within index h

end Spread

/-! ## Computations that end -/

namespace Exec

variable {α β : Type} {size depth : Nat}

/-- The computation ends in every machine that is bounded so. -/
structure Halting (size depth : Nat) (x : Exec α) : Prop where
  orderly : Orderly x
  ends : ∀ {m : Machine}, m.Bounded size depth → x m ≠ .exhausted

namespace Halting

/-- The second computation may depend on what is known of the first one's value. -/
theorem bind_of {x : Exec α} {f : α → Exec β} (hx : Halting size depth x)
    (hf : ∀ a, Orderly (f a))
    (hEnds : ∀ {m m' : Machine} {a : α}, m.Bounded size depth → x m = .ok a m' →
      Halting size depth (f a)) : Halting size depth (x >>= f) where
  orderly := Machine.Evolves.frameable.bind hx.orderly hf
  ends {m} hm := by
    change Exec.bind x f m ≠ .exhausted
    unfold Exec.bind
    cases hOutcome : x m with
    | ok value m' =>
        have hEvolves := hx.orderly.relates (m := m) (by rw [hOutcome]; rfl)
        exact (hEnds hm hOutcome).ends (hm.evolves hEvolves)
    | fault cause m' => simp
    | exhausted => exact absurd hOutcome (hx.ends hm)

theorem sequential : Sequential (Halting size depth) where
  of_local hx := ⟨Machine.Evolves.frameable.of_local hx, fun {m} _ => hx.ends m⟩
  bind hx hf := hx.bind_of (fun a => (hf a).orderly) fun {_ _ a} _ _ => hf a
  depths f := ⟨Machine.Evolves.frameable.compositional.depths f, fun _ h => by cases h⟩

theorem lift {f : Machine → α × Machine} (hf : Orderly (Exec.lift f)) :
    Halting size depth (Exec.lift f) := ⟨hf, fun _ h => by cases h⟩

theorem fault {cause : Fault} (h : Orderly (Exec.fault cause : Exec α)) :
    Halting size depth (Exec.fault cause : Exec α) := ⟨h, fun _ h => by cases h⟩

theorem settling {x : Exec α} (hx : Halting size depth x) :
    Halting size depth (Exec.settling x) where
  orderly := settling_orderly hx.orderly
  ends {m} hm := by
    rw [settling_eq]
    have hEnds := hx.ends hm
    cases hOutcome : x m with
    | exhausted => exact absurd hOutcome hEnds
    | _ => simp [Outcome.onMachine]

end Halting

/-! ### Calls -/

/-- A body may nest one call less than its caller; where the caller may nest none it is not run. -/
theorem runUser_halting {execute : Code → Exec Ending} {code : Code}
    (hOrderly : ∀ code, Orderly (execute code))
    (hExecute : ∀ d < depth, Halting size d (execute code)) (signature : Signature) (args : Args) :
    Halting size depth (runUser execute signature code args) where
  orderly := Machine.Evolves.frameable.compositional.runUser hOrderly signature code args
  ends {m} hm := by
    rw [runUser_eq]
    split
    · simp
    · rename_i hBelow
      have hNesting := hm.nesting
      obtain ⟨d, rfl⟩ : ∃ d, depth = d + 1 := ⟨depth - 1, by omega⟩
      have hInner : Halting size d (inCallee execute signature code args) :=
        Halting.sequential.inCallee (hExecute d (by omega)) signature args
      have hEnds := hInner.ends hm.enter
      rw [framed_eq]
      cases hOutcome : inCallee execute signature code args m.enter with
      | exhausted => exact absurd hOutcome hEnds
      | _ => simp [Outcome.onMachine]

/-- An invocation ends if the body does.  The induction is on the levels of element-wise
application, and what it carries is that the arguments are nested at most that deeply. -/
theorem invokeWithin_halting {run : Args → Exec (Cell × Args)}
    (hRun : ∀ args, Halting size depth (run args)) (signature : Signature) {levels : Nat}
    {args : Args} (hArgs : Spread.Within levels (Spread.ofArgs signature args)) :
    Halting size depth (invokeWithin run signature levels args) := by
  have hSeq : Sequential (Halting size depth) := Halting.sequential
  induction levels generalizing args with
  | zero =>
      rw [invokeWithin]
      split
      · exact hSeq.bind (hSeq.of_local (failWith_local _)) fun _ => hSeq.pure _
      · split
        · rename_i hBroadcast
          rw [Bool.and_eq_true] at hBroadcast
          exact absurd (hArgs.levels_pos hBroadcast.2) (Nat.lt_irrefl 0)
        · exact hRun args
  | succ levels ih =>
      rw [invokeWithin]
      split
      · exact hSeq.bind (hSeq.of_local (failWith_local _)) fun _ => hSeq.pure _
      · split
        · refine hSeq.bind (hSeq.broadcast fun count row hRow => ?_) fun _ => hSeq.pure _
          exact hSeq.bind (ih (Spread.rows_within hArgs hRow)) fun _ => hSeq.pure _
        · exact hRun args

theorem runBody_halting {execute : Code → Exec Ending} (hOrderly : ∀ code, Orderly (execute code))
    (hExecute : ∀ d < depth, ∀ code : Code, code.Forward → code.size ≤ size →
      Halting size d (execute code)) {m : Machine} (hm : m.Bounded size depth) {o : Overload}
    (ho : m.Holds o) (args : Args) : Halting size depth (runBody execute o args) := by
  unfold runBody
  cases hBody : o.body with
  | native resolve =>
      exact Halting.sequential.runNative _ (Or.inl (hm.quiet o ho resolve hBody args))
  | user code =>
      have hSize := hm.bodies o ho
      unfold Overload.bodySize at hSize
      rw [hBody] at hSize
      exact runUser_halting hOrderly
        (fun d hd => hExecute d hd code (hm.forward o ho code hBody) hSize) o.signature args

/-- A call ends if the runs end that its bodies may start. -/
theorem call_halting {execute : Code → Exec Ending} (hOrderly : ∀ code, Orderly (execute code))
    (hExecute : ∀ d < depth, ∀ code : Code, code.Forward → code.size ≤ size →
      Halting size d (execute code)) : Halting size depth (call execute) := by
  have hTake : Halting size depth takePending := by
    refine ⟨takePending_orderly, fun {m} _ => ?_⟩
    unfold takePending
    cases m.pending <;> simp
  refine hTake.bind_of (fun pending => ?_) fun {m m' pending} hm hTaken => ?_
  · exact Machine.Evolves.frameable.compositional.makeCall pending fun o _ args =>
      Machine.Evolves.frameable.runBody hOrderly o args
  · refine Halting.sequential.makeCall_of_invoke pending fun bound hFinish => ?_
    have hHolds : m.Holds bound.overload :=
      Or.inr ⟨pending, mem_of_takePending hTaken, (PendingCall.finish_eq_ok hFinish).1⟩
    exact invokeWithin_halting (runBody_halting hOrderly hExecute hm hHolds) _
      (Spread.ofArgs_within _ _)

/-! ### Instructions and runs -/

theorem bindTop_halting (param : Option String) (mode : PassMode) :
    Halting size depth (bindTop param mode) where
  orderly := bindTop_orderly param mode
  ends {m} hm := by
    have hBind : Halting size depth (popArgument >>= bindArgument param mode) := by
      refine Halting.sequential.bind (Halting.sequential.of_local popArgument_local) fun a => ?_
      refine ⟨bindArgument_orderly param mode a, fun {m} _ => ?_⟩
      unfold bindArgument
      split
      · simp
      · dsimp only
        split
        · simp
        · split <;> simp
    rw [bindTop_eq]
    split
    · simp
    · exact hBind.ends hm

theorem performs_halting {execute : Code → Exec Ending}
    (hCall : Halting size depth (call execute))
    (hOperator : ∀ function, ∀ operands ≤ 2,
      Halting size depth (execute (operatorCode function operands))) :
    Performs (Halting size depth) execute where
  initCall name := Halting.lift (initCall_orderly name)
  help name := Halting.lift (help_orderly name)
  bindTop := bindTop_halting
  operator function operands h :=
    Halting.sequential.bind (hOperator function operands h) fun _ => Halting.sequential.pure _
  call := hCall

/-- A jump that goes forward leads to an index behind it or to a fault. -/
theorem jump_halting {index target length : Nat} (hTarget : index + 1 < target)
    {f : Nat → Exec α} (hf : ∀ next, index < next → Halting size depth (f next)) :
    Halting size depth (jumpIndex target length >>= f) := by
  unfold jumpIndex
  split
  · exact hf (target - 1) (by omega)
  · have hFault : Orderly (Exec.fault (.invalidJumpTarget target length) : Exec α) :=
      orderly_running.badTarget target length
    exact ⟨hFault, fun _ h => by cases h⟩

/-- A run ends if its instructions do from some allowance on.  The induction is on the allowance;
it goes down by one with every instruction, and so do the instructions that are left. -/
theorem runFrom_halting {code : Code} (hForward : code.Forward) {enough : Nat}
    (hStep : ∀ instruction ∈ code, ∀ fuel, enough ≤ fuel →
      Halting size depth (step (execute fuel) instruction.op)) {fuel index : Nat}
    (hFuel : enough + (code.size - index) < fuel) :
    Halting size depth (runFrom fuel code index) := by
  have hSeq : Sequential (Halting size depth) := Halting.sequential
  induction fuel generalizing index with
  | zero => omega
  | succ fuel ih =>
      rw [runFrom]
      split
      · exact hSeq.pure _
      · rename_i instruction hAt
        obtain ⟨hIndex, hInstruction⟩ := Array.getElem?_eq_some_iff.1 hAt
        have hNext (next : Nat) (h : index < next) : Halting size depth (runFrom fuel code next) :=
          ih (by omega)
        split
        · exact hSeq.pure _
        · rename_i target hOp
          refine jump_halting (hForward.lt_target hAt ?_) hNext
          rw [hOp, Op.target?]
        · rename_i target hOp
          refine hSeq.bind (hSeq.of_local pop_local) fun condition => ?_
          refine hSeq.bind (hSeq.of_local (resolve_local condition)) fun value => ?_
          split
          · refine jump_halting (hForward.lt_target hAt ?_) hNext
            rw [hOp, Op.target?]
          · exact hNext (index + 1) (Nat.lt_succ_self index)
          · refine hSeq.bind (hSeq.of_local (push_local _)) fun _ => ?_
            exact Halting.fault (orderly_running.badCondition _)
        · have hMember : instruction ∈ code := Array.mem_of_getElem? hAt
          refine hSeq.bind (hStep instruction hMember fuel (by omega)) fun succeeded => ?_
          cases succeeded with
          | true => exact hNext (index + 1) (Nat.lt_succ_self index)
          | false => exact hSeq.pure _

theorem execute_halting (enough : Nat) {code : Code} (hForward : code.Forward) {fuel : Nat}
    (hStep : ∀ instruction ∈ code, ∀ fuel, enough ≤ fuel →
      Halting size depth (step (execute fuel) instruction.op))
    (hFuel : enough + code.size < fuel) : Halting size depth (execute fuel code) :=
  (runFrom_halting hForward hStep (by omega)).settling

theorem operatorCode_forward (function : String) (operands : Nat) :
    (operatorCode function operands).Forward := by
  intro index target hTarget
  rcases mem_operatorCode (Array.getElem_mem index.isLt) with hOp | hOp | hOp <;>
    simp [hOp, Op.target?] at hTarget

/-- Where calls end from some allowance on, so do all instructions: an operator takes two
instructions more than it has operands. -/
theorem step_halting {enough : Nat}
    (hCall : ∀ fuel, enough ≤ fuel → Halting size depth (call (execute fuel))) {fuel : Nat}
    (hFuel : enough + 5 ≤ fuel) (op : Op) : Halting size depth (step (execute fuel) op) := by
  refine Halting.sequential.step (performs_halting (hCall fuel (by omega)) ?_) op
  intro function operands hOperands
  have hSize := size_operatorCode function operands
  refine execute_halting enough (operatorCode_forward function operands)
    (fun instruction hMember fuel hEnough => ?_) (by omega)
  rcases mem_operatorCode hMember with hOp | hOp | hOp
  · rw [hOp]
    exact Halting.lift (initCall_orderly function)
  · rw [hOp]
    exact bindTop_halting none .automatic
  · rw [hOp]
    exact hCall fuel hEnough

/-- A program whose jumps go forward ends where calls do. -/
theorem execute_halting_of_call (enough : Nat) {fuel : Nat}
    (hCall : ∀ fuel, enough ≤ fuel → Halting size depth (call (execute fuel))) {code : Code}
    (hForward : code.Forward) (hFuel : enough + code.size + 5 < fuel) :
    Halting size depth (execute fuel code) :=
  execute_halting (enough + 5) hForward
    (fun instruction _ _ hEnough => step_halting hCall hEnough instruction.op) (by omega)

/-- The allowance from which on calls end, where `depth` further ones may be nested.  The induction
is on the calls that may be nested, each of which needs a whole body and an operator in it. -/
theorem call_halting_of_le (size depth : Nat) {fuel : Nat} (hFuel : depth * (size + 6) ≤ fuel) :
    Halting size depth (call (execute fuel)) := by
  induction depth using Nat.strongRecOn generalizing fuel with
  | ind depth ih =>
      refine call_halting (execute_orderly fuel) fun d hd code hForward hSize => ?_
      have hLevel : (d + 1) * (size + 6) ≤ depth * (size + 6) := Nat.mul_le_mul_right _ hd
      rw [Nat.succ_mul] at hLevel
      exact execute_halting_of_call _ (fun fuel hEnough => ih d hd hEnough) hForward (by omega)

end Exec

/-- A program without backward jumps terminates in every machine whose functions have none either
and re-enter the machine by their code only: from some allowance on it ends, and always in the same
way. -/
theorem execute_terminates {code : Code} {m : Machine} (hCode : code.Forward) (hQuiet : m.Quiet)
    (hBodies : ∀ o, m.Holds o → o.Forward) :
    ∃ outcome bound, outcome ≠ .exhausted ∧
      ∀ fuel, bound ≤ fuel → Exec.execute fuel code m = outcome := by
  obtain ⟨size, hSize⟩ := m.exists_bodySize_le
  have hBounded : m.Bounded size m.maxCallDepth :=
    ⟨hQuiet, hBodies, hSize, Nat.le_add_left _ _⟩
  let enough := m.maxCallDepth * (size + 6)
  let bound := enough + code.size + 6
  have hHalting : Exec.Halting size m.maxCallDepth (Exec.execute bound code) :=
    Exec.execute_halting_of_call enough
      (fun fuel hEnough => Exec.call_halting_of_le size _ hEnough) hCode (by omega)
  have hEnds := hHalting.ends hBounded
  exact ⟨Exec.execute bound code m, bound, hEnds,
    fun fuel hFuel => Exec.execute_below hFuel code m hEnds⟩

/-! ### Recursion without an end of its own -/

/-- A listable function that calls itself on its argument, and jumps over nothing. -/
def descending : Overload where
  signature := ⟨"Descend", [.byValue "x" .number], .any, ⟨true, false⟩⟩
  body := .user #[⟨.initCall "Descend", 1⟩, ⟨.pushRef "x", 2⟩, ⟨.bind none .automatic, 3⟩,
    ⟨.jump 5, 4⟩, ⟨.call, 5⟩]

/-- A program that applies the function to the numbers in nested lists. -/
def descendingProgram : Code :=
  #[⟨.initCall "Descend", 1⟩, ⟨.push nestedIntegers, 2⟩, ⟨.bind none .automatic, 3⟩, ⟨.call, 4⟩]

/-- A machine with the core library and the function. -/
def descendingMachine : Machine := (coreMachine.addFunction descending).2

theorem descendingMachine_holds {o : Overload} (h : descendingMachine.Holds o) :
    o = descending ∨ o ∈ Core.library := by
  rcases Machine.addFunction_holds h with hAdded | hCore
  · exact Or.inl hAdded
  · rcases Machine.withCore_holds hCore with hCore | ⟨name, overloads, hGet, -⟩ | ⟨c, hc, -⟩
    · exact Or.inr hCore
    · cases hGet
    · cases hc

/-- Nothing but the nesting limit stops this program. -/
theorem execute_terminates_descending :
    ∃ outcome bound, outcome ≠ .exhausted ∧
      ∀ fuel, bound ≤ fuel → Exec.execute fuel descendingProgram descendingMachine = outcome := by
  refine execute_terminates (by decide) (fun o ho => ?_) fun o ho code hBody => ?_
  · rcases descendingMachine_holds ho with rfl | hCore
    · intro resolve hBody
      cases hBody
    · exact Core.library_quiet o hCore
  · rcases descendingMachine_holds ho with rfl | hCore
    · cases hBody
      decide
    · obtain ⟨f, hNative, -⟩ := Core.library_isCore o hCore
      rw [hNative] at hBody
      cases hBody

end CellMachine
