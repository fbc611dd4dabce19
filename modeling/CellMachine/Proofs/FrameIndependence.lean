import CellMachine.Proofs.Isolation

/-!
# A body does not see the frames around it

Variables are looked up in the frame of the running body only.  Two machines are compared whose
frames have nothing in common but their number, and which have written and reported different
things before; otherwise they agree (`Machine.Agrees`).  Main statement: a user-defined body ends
alike in both, with the same result, the same rebound arguments and the same effects on the
streams, or it runs out of its step allowance in both.

The streams may be of any kind: they may fill up, or take a part of a text only.  What counts is
that the streams of both machines do the same from now on, whatever was written to each before.

Two observations are put together.  No computation looks back at what was written or reported
(`Oblivious`), so both machines may as well start with a clean record; and then the frame that the
body runs in is the same in both, only its surroundings differ, which an isolated computation does
not notice.

It does NOT hold without that: a body can find out whether its output was refused, and what is left
on the error stream depends on that stream (`runUser_notices_refusal`).
-/

namespace CellMachine

/-! ## What was written before -/

/-- The streams with further bytes taken before their own. -/
def Console.after (c : Console) (output errors : ByteArray) : Console :=
  { c with output := output ++ c.output, errors := errors ++ c.errors }

theorem Console.write_after (c : Console) (output errors : ByteArray) (outlet : Outlet)
    (text : String) :
    (c.after output errors).write outlet text =
      ((c.write outlet text).1, (c.write outlet text).2.after output errors) := by
  cases outlet <;> simp only [write, after, take, hear, ByteArray.append_assoc]

theorem Console.writeAll_after (c : Console) (output errors : ByteArray) (outlet : Outlet)
    (texts : List String) :
    (c.after output errors).writeAll outlet texts =
      ((c.writeAll outlet texts).1, (c.writeAll outlet texts).2.after output errors) := by
  induction texts generalizing c with
  | nil => rfl
  | cons text rest ih =>
      rw [writeAll, writeAll, write_after]
      generalize c.write outlet text = written
      obtain ⟨refusal, c'⟩ := written
      cases refusal with
      | none => exact ih c'
      | some reason => rfl

/-- What a machine has written and reported. -/
structure History where
  output : ByteArray
  errors : ByteArray
  reported : Array Diagnostic

namespace Machine

def history (m : Machine) : History := ⟨m.console.output, m.console.errors, m.reported⟩

/-- The machine with a further history before its own. -/
def since (m : Machine) (h : History) : Machine :=
  { m with
    console := m.console.after h.output h.errors
    reported := h.reported ++ m.reported }

/-- The machine with nothing written and nothing reported. -/
def anew (m : Machine) : Machine :=
  { m with
    console := { m.console with output := .empty, errors := .empty }
    reported := #[] }

theorem anew_since (m : Machine) : m.anew.since m.history = m := by
  simp [since, anew, history, Console.after]

theorem since_report (m : Machine) (h : History) (d : Diagnostic) :
    (m.since h).report d = (m.report d).since h := by
  simp [since, report, Console.writeAll_after]

theorem since_exchange (h : History) : Exchange (·.since h) where
  stack _ := rfl
  scope _ := rfl
  setStack _ _ := rfl
  setScope _ _ := rfl
  report m d := m.since_report h d
  writeStream m stream text := by
    cases stream with
    | output =>
        have hWrite := m.console.write_after h.output h.errors .output text
        simp only [since, writeStream, hWrite, answering]
    | input => rfl
    | discard => rfl
  readLine _ := rfl

end Machine

namespace Exec

variable {α β : Type}

/-- The computation does not look back: a history before the machine's own is still there
afterwards and makes no other difference. -/
def Oblivious (x : Exec α) : Prop :=
  ∀ (m : Machine) (h : History), x (m.since h) = (x m).onMachine (·.since h)

namespace Oblivious

theorem bind {x : Exec α} {f : α → Exec β} (hx : Oblivious x) (hf : ∀ a, Oblivious (f a)) :
    Oblivious (x >>= f) := by
  intro m h
  change Exec.bind x f _ = (Exec.bind x f m).onMachine _
  unfold Exec.bind
  rw [hx m h]
  cases x m with
  | ok value m' => exact hf value m' h
  | fault cause m' => rfl
  | exhausted => rfl

theorem attempt {x : Exec α} (hx : Oblivious x) : Oblivious (Exec.attempt x) := by
  intro m h
  unfold Exec.attempt
  rw [hx m h]
  cases x m <;> rfl

theorem inFrame {x : Exec α} (hx : Oblivious x) : Oblivious (framed x) := by
  intro m h
  have hEnter : (m.since h).enter = m.enter.since h := rfl
  rw [framed_eq, framed_eq, hEnter, hx m.enter h]
  cases x m.enter <;> rfl

theorem settling {x : Exec α} (hx : Oblivious x) : Oblivious (Exec.settling x) := by
  intro m h
  rw [settling_eq, settling_eq, hx m h]
  cases x m <;> rfl

theorem compositional : Compositional fun {α} (x : Exec α) => Oblivious x where
  of_local hx m h := hx.commutes (Machine.since_exchange h) m
  bind := bind
  depths _ _ _ := rfl
  exhausted _ _ := rfl
  inFrame := inFrame

end Oblivious

theorem initCall_oblivious (name : String) : Oblivious (Exec.lift (·.initCall name)) := by
  intro m h
  have hRegistry : (m.since h).registry = m.registry := rfl
  simp only [Exec.lift, Machine.initCall, hRegistry]
  cases m.registry.get? name with
  | none => simp only [Machine.since_report, Outcome.onMachine]
  | some overloads => rfl

theorem help_oblivious (name : String) : Oblivious (Exec.lift (·.help name)) := by
  intro m h
  have hRegistry : (m.since h).registry = m.registry := rfl
  simp only [Exec.lift, Machine.help, hRegistry]
  cases m.registry.get? name with
  | none => simp only [Machine.since_report, Outcome.onMachine]
  | some overloads =>
      simp only [(Machine.since_exchange h).printLines, Machine.answering, Outcome.onMachine]

theorem bindArgument_oblivious (param : Option String) (mode : PassMode) (a : Argument) :
    Oblivious (bindArgument param mode a) := by
  intro m h
  have hPending : (m.since h).pending = m.pending := rfl
  simp only [bindArgument, hPending]
  cases m.pending with
  | nil => rfl
  | cons innermost outer =>
      by_cases hFailed : innermost.failed = true
      · simp only [hFailed, if_true]
        rfl
      · simp only [hFailed]
        -- What is reported of a refusal comes behind the history.
        cases (innermost.bind Handle.valid param a mode).2 with
        | none => rfl
        | some d =>
            have hReport := Machine.since_report
              { m with pending := (innermost.bind Handle.valid param a mode).1 :: outer } h d
            exact congrArg (Outcome.ok false) hReport

theorem bindTop_oblivious (param : Option String) (mode : PassMode) :
    Oblivious (bindTop param mode) := by
  intro m h
  have hPending : (m.since h).pending = m.pending := rfl
  rw [bindTop_eq, bindTop_eq, hPending]
  split
  · rfl
  · have hPop : Oblivious popArgument := Oblivious.compositional.of_local popArgument_local
    exact hPop.bind (bindArgument_oblivious param mode) m h

theorem takePending_oblivious : Oblivious takePending := by
  intro m h
  have hPending : (m.since h).pending = m.pending := rfl
  simp only [takePending, hPending]
  cases m.pending <;> rfl

theorem teardown_oblivious : Oblivious (Exec.lift (·.teardown)) := by
  intro m h
  have hPending : (m.since h).pending = m.pending := rfl
  have hDepth : (m.since h).callDepth = m.callDepth := rfl
  simp only [Exec.lift, Machine.teardown, hPending, hDepth]
  split
  · rfl
  · split <;> rfl

theorem call_oblivious {execute : Code → Exec Ending}
    (hExecute : ∀ code, Oblivious (execute code)) : Oblivious (call execute) := by
  refine takePending_oblivious.bind fun pending => ?_
  refine Oblivious.compositional.makeCall pending fun o _ args => ?_
  unfold runBody
  cases o.body with
  | native resolve =>
      refine Oblivious.compositional.runNative _ (Or.inr ⟨fun code => ?_, teardown_oblivious⟩)
      exact (hExecute code).attempt
  | user code => exact Oblivious.compositional.runUser hExecute o.signature code args

/-- No run looks back. -/
theorem oblivious_running : Running fun {α} (x : Exec α) => Oblivious x where
  toCompositional := Oblivious.compositional
  settling := Oblivious.settling
  badTarget _ _ _ _ := rfl
  badCondition _ _ _ := rfl
  initCall := initCall_oblivious
  help := help_oblivious
  bindTop := bindTop_oblivious
  call := call_oblivious

end Exec

/-! ## Machines with different frames -/

/-- The streams do the same with whatever is asked of them from now on. -/
def Console.Alike (c d : Console) : Prop :=
  ∀ earlier outlet text, d.receive earlier outlet text = c.receive earlier outlet text

/-- The machines agree on all but the contents of their frames and what they have written and
reported. -/
structure Machine.Agrees (m n : Machine) : Prop where
  registry : n.registry = m.registry
  pending : n.pending = m.pending
  input : n.input = m.input
  callDepth : n.callDepth = m.callDepth
  maxCallDepth : n.maxCallDepth = m.maxCallDepth
  console : m.console.Alike n.console

/-- With a clean record and a fresh frame, only what surrounds the frame tells such machines
apart. -/
theorem Machine.Agrees.enter_anew {m n : Machine} (h : m.Agrees n) :
    n.anew.enter = m.anew.enter.within n.enter.surroundings := by
  have hReceive : n.console.receive = m.console.receive := by
    funext earlier outlet text
    exact h.console earlier outlet text
  simp only [anew, enter, within, surroundings, h.input, hReceive, CallStack.enter]

theorem Machine.Agrees.surroundings {m n : Machine} (h : m.Agrees n) :
    m.anew.enter.surroundings.Agree [] n.enter.surroundings where
  pending := by
    rw [List.append_nil]
    exact h.pending
  registry := h.registry
  maxCallDepth := h.maxCallDepth
  depth := h.callDepth

/-- What two machines do on the way to two others looks the same from outside: their streams take
the same bytes and are alike then, they report the same, and they leave the same to be read. -/
structure Machine.SameEffects (m n m' n' : Machine) : Prop where
  output : ∃ bytes, m'.console.output = m.console.output ++ bytes ∧
    n'.console.output = n.console.output ++ bytes
  errors : ∃ bytes, m'.console.errors = m.console.errors ++ bytes ∧
    n'.console.errors = n.console.errors ++ bytes
  console : m'.console.Alike n'.console
  reported : ∃ diagnostics, m'.reported = m.reported ++ diagnostics ∧
    n'.reported = n.reported ++ diagnostics
  input : n'.input = m'.input

/-- Two outcomes, started in two machines, are the same but for the machines left behind, and
those are reached with the same effects. -/
inductive Outcome.SameFrom {α : Type} (m n : Machine) : Outcome α → Outcome α → Prop
  | ok {value : α} {m' n' : Machine} (h : m.SameEffects n m' n') :
      SameFrom m n (.ok value m') (.ok value n')
  | fault {cause : Fault} {m' n' : Machine} (h : m.SameEffects n m' n') :
      SameFrom m n (.fault cause m') (.fault cause n')
  | exhausted : SameFrom m n .exhausted .exhausted

/-- Leaving the frame does not touch the streams, on which only the histories differ. -/
theorem Machine.sameEffects_leave (m n ended : Machine) (s : Surroundings) :
    m.SameEffects n (ended.since m.history).leave ((ended.within s).since n.history).leave where
  output := ⟨ended.console.output, rfl, rfl⟩
  errors := ⟨ended.console.errors, rfl, rfl⟩
  console _ _ _ := rfl
  reported := ⟨ended.reported, rfl, rfl⟩
  input := rfl

namespace Exec

theorem framed_sameFrom {α : Type} {x : Exec α} (hIsolated : Isolated [] x)
    (hOblivious : Oblivious x) {m n : Machine} (hQuiet : m.Quiet) (hAgrees : m.Agrees n) :
    (framed x m).SameFrom m n (framed x n) := by
  -- Both start from the same frame once their histories are set aside.
  have hFirst : m.enter = m.anew.enter.since m.history := by
    change m.enter = (m.anew.since m.history).enter
    rw [m.anew_since]
  have hSecond : n.enter = (m.anew.enter.within n.enter.surroundings).since n.history := by
    rw [← hAgrees.enter_anew]
    change n.enter = (n.anew.since n.history).enter
    rw [n.anew_since]
  have hMatches : (x m.anew.enter).Matches [] (x (m.anew.enter.within n.enter.surroundings)) :=
    hIsolated.alike hQuiet hAgrees.surroundings
  rw [framed_eq, framed_eq, hFirst, hSecond, hOblivious, hOblivious]
  generalize x m.anew.enter = first at hMatches
  generalize x (m.anew.enter.within n.enter.surroundings) = second at hMatches
  cases hMatches with
  | ok _ => exact .ok (m.sameEffects_leave n _ _)
  | fault _ => exact .fault (m.sameEffects_leave n _ _)
  | exhausted => exact .exhausted
  | missed hNone => exact absurd rfl hNone

end Exec

/-- A user-defined body does not see the frames of its callers: in two machines that agree apart
from their frames and histories it gives the same result or fault and the same rebound arguments
with the same effects, or it ends in neither. -/
theorem runUser_independent_of_frames (fuel : Nat) {m n : Machine} (hQuiet : m.Quiet)
    (hAgrees : m.Agrees n) (signature : Signature) (code : Code) (args : Args) :
    (Exec.runUser (Exec.execute fuel) signature code args m).SameFrom m n
      (Exec.runUser (Exec.execute fuel) signature code args n) := by
  rw [Exec.runUser_eq, Exec.runUser_eq, hAgrees.callDepth, hAgrees.maxCallDepth]
  split
  · refine .ok ⟨⟨.empty, ?_, ?_⟩, ⟨.empty, ?_, ?_⟩, hAgrees.console, ⟨#[], ?_, ?_⟩,
      hAgrees.input⟩ <;> simp
  · exact Exec.framed_sameFrom
      (Exec.Isolated.compositional.inCallee (Exec.execute_isolated fuel code) signature args)
      (Exec.Oblivious.compositional.inCallee (Exec.oblivious_running.execute fuel code) signature
        args) hQuiet hAgrees

/-! ### A stream of limited room, and streams that differ -/

/-- Two streams into one place that has room for so many more bytes. -/
def Console.bounded (output : ByteArray) (room : Nat) : Console :=
  .ofState (fun room _ text =>
    if text.utf8ByteSize ≤ room then (.whole, room - text.utf8ByteSize)
    else (.cut room "failed to write whole buffer", 0)) (fun room _ => room) output .empty room

/-- A body that prints the variable `x`, which it does not bind. -/
def printingVariable : Code := #[⟨.pushRef "x", combinedLine 1 1⟩, ⟨.output, combinedLine 1 2⟩]

/-- A machine that has room for five more bytes. -/
def narrowMachine : Machine := { coreMachine with console := .bounded .empty 5 }

/-- A machine with the same room that has printed before, and whose top level binds `x` and has an
operand. -/
def bindingMachine : Machine :=
  { coreMachine with
    calls := ⟨⟨⟨[("x", .integer 5)]⟩, [.integer 7]⟩, []⟩
    console := .bounded "7\n".toUTF8 5 }

theorem narrowMachine_agrees : narrowMachine.Agrees bindingMachine :=
  ⟨rfl, rfl, rfl, rfl, rfl, fun _ _ _ => rfl⟩

theorem narrowMachine_quiet : narrowMachine.Quiet := coreMachine_quiet

theorem runUser_hides_variable :
    narrowMachine.Quiet ∧ narrowMachine.Agrees bindingMachine ∧
      (Exec.runUser (Exec.execute 8) ⟨"Show", [], .any, .plain⟩ printingVariable (.ofCells [])
        narrowMachine).SameFrom narrowMachine bindingMachine
        (Exec.runUser (Exec.execute 8) ⟨"Show", [], .any, .plain⟩ printingVariable (.ofCells [])
          bindingMachine) ∧
      (∃ answer m', Exec.runUser (Exec.execute 8) ⟨"Show", [], .any, .plain⟩ printingVariable
        (.ofCells []) narrowMachine = .ok answer m' ∧ m'.console.output = "x (un".toUTF8) ∧
      ∃ answer m', Exec.runUser (Exec.execute 8) ⟨"Show", [], .any, .plain⟩ printingVariable
        (.ofCells []) bindingMachine = .ok answer m' ∧ m'.console.output = "7\nx (un".toUTF8 :=
  ⟨narrowMachine_quiet, narrowMachine_agrees,
    runUser_independent_of_frames 8 narrowMachine_quiet narrowMachine_agrees _ _ _,
    ⟨_, _, rfl, by decide⟩, ⟨_, _, rfl, by decide⟩⟩

/-- A body that prints its result. -/
def printingBody : Code := #[⟨.push (.integer 1), combinedLine 1 1⟩, ⟨.output, combinedLine 1 2⟩]

/-- A machine of which one stream refuses every text. -/
def machineWithout (outlet : Outlet) : Machine :=
  { coreMachine with
    console := .ofClosed fun other =>
      match outlet, other with
      | .output, .output | .errors, .errors => some "sink closed"
      | _, _ => none }

/-- A body that has something reported. -/
def callingNobody : Code := #[⟨.initCall "Nobody", combinedLine 1 1⟩]

/-- Machines that agree on functions, pending calls, input and both depths, but not on what their
streams do: a body that prints has a result in one and fails in the other, and of one that has
something reported there are bytes on the error stream of one and none on that of the other. -/
theorem runUser_notices_refusal :
    (∀ outlet, (machineWithout outlet).registry = coreMachine.registry ∧
      (machineWithout outlet).pending = coreMachine.pending ∧
      (machineWithout outlet).input = coreMachine.input ∧
      (machineWithout outlet).callDepth = coreMachine.callDepth ∧
      (machineWithout outlet).maxCallDepth = coreMachine.maxCallDepth) ∧
    (∃ args m', Exec.runUser (Exec.execute 8) ⟨"Show", [], .any, .plain⟩ printingBody (.ofCells [])
      coreMachine = .ok (.integer 1, args) m') ∧
    (∃ message args m', Exec.runUser (Exec.execute 8) ⟨"Show", [], .any, .plain⟩ printingBody
      (.ofCells []) (machineWithout .output) = .ok (.error message, args) m') ∧
    (∃ answer m', Exec.runUser (Exec.execute 8) ⟨"Call", [], .any, .plain⟩ callingNobody
      (.ofCells []) coreMachine = .ok answer m' ∧ m'.console.errors.size ≠ 0) ∧
    ∃ answer m', Exec.runUser (Exec.execute 8) ⟨"Call", [], .any, .plain⟩ callingNobody
      (.ofCells []) (machineWithout .errors) = .ok answer m' ∧ m'.console.errors.size = 0 :=
  ⟨fun _ => ⟨rfl, rfl, rfl, rfl, rfl⟩, ⟨_, _, rfl⟩, ⟨_, _, _, rfl⟩, ⟨_, _, rfl, by decide⟩,
    ⟨_, _, rfl, by decide⟩⟩

end CellMachine
