import CellMachine.Machine.Run

/-!
# Local computations

Most operations of the machine work on the active frame and on the streams alone.  They neither
read nor change what surrounds these: the frames that wait, the calls under construction, the
registered functions and the nesting limit; nor do they look back at what has been written.  An
`Exchange` is a change of the machine that such operations cannot tell.  A computation is `Local`
when it always ends, commutes with every exchange, and its only possible fault is a stack that is
too short.

Locality is stated once for each operation.  That an operation keeps the waiting frames, that it
keeps the pending calls, and that it behaves alike whatever calls are pending all follow from it.
Nothing is said here about operations that open, bind or make calls; those are NOT local.
-/

namespace CellMachine

/-- What surrounds the active frame and the streams of a machine. -/
structure Surroundings where
  waiting : List Frame
  pending : List PendingCall
  registry : Registry
  maxCallDepth : Nat

namespace Machine

def surroundings (m : Machine) : Surroundings :=
  ⟨m.calls.waiting, m.pending, m.registry, m.maxCallDepth⟩

/-- The machine with its surroundings exchanged. -/
def within (m : Machine) (s : Surroundings) : Machine :=
  { m with
    calls := ⟨m.calls.active, s.waiting⟩
    pending := s.pending
    registry := s.registry
    maxCallDepth := s.maxCallDepth }

@[simp] theorem within_surroundings (m : Machine) : m.within m.surroundings = m := rfl

@[simp] theorem surroundings_within (m : Machine) (s : Surroundings) :
    (m.within s).surroundings = s := rfl

/-- Printing is writing one text after the other, and touches the streams alone. -/
theorem print_eq (m : Machine) (texts : List String) :
    m.print texts = ((m.console.writeAll .output texts).1.isNone,
      { m with console := (m.console.writeAll .output texts).2 }) := by
  induction texts generalizing m with
  | nil => rfl
  | cons text rest ih =>
      simp only [print, writeStream, Console.writeAll]
      generalize m.console.write .output text = written
      obtain ⟨refusal, console⟩ := written
      cases refusal with
      | none => exact ih { m with console := console }
      | some reason => rfl

/-! ## Exchanges -/

/-- An answer together with a machine that is exchanged. -/
def answering {α : Type} (g : Machine → Machine) (r : α × Machine) : α × Machine := (r.1, g r.2)

/-- A change of the machine that keeps the active frame, and that may as well be made after the frame
is changed, a diagnostic reported, or a stream used. -/
structure Exchange (g : Machine → Machine) : Prop where
  stack : ∀ m, (g m).stack = m.stack
  scope : ∀ m, (g m).scope = m.scope
  setStack : ∀ m stack, (g m).setStack stack = g (m.setStack stack)
  setScope : ∀ m scope, (g m).setScope scope = g (m.setScope scope)
  report : ∀ m d, (g m).report d = g (m.report d)
  writeStream : ∀ m stream text,
    (g m).writeStream stream text = answering g (m.writeStream stream text)
  readLine : ∀ m, (g m).readLine = answering g m.readLine

theorem within_exchange (s : Surroundings) : Exchange (·.within s) where
  stack _ := rfl
  scope _ := rfl
  setStack _ _ := rfl
  setScope _ _ := rfl
  report _ _ := rfl
  writeStream _ stream _ := by cases stream <;> rfl
  readLine _ := rfl

namespace Exchange

variable {g : Machine → Machine} (hg : Exchange g)

include hg

theorem push (m : Machine) (cell : Cell) : (g m).push cell = g (m.push cell) := by
  unfold Machine.push
  rw [hg.stack, hg.setStack]

theorem flush (m : Machine) : (g m).flush = g m.flush := hg.setStack m []

theorem clear (m : Machine) : (g m).clear = g m.clear := by
  unfold Machine.clear
  rw [hg.flush, hg.setScope]

/-! ### Operations on the state that answer -/

theorem define (m : Machine) (name : String) (cell : Cell) :
    (g m).define name cell = answering g (m.define name cell) := by
  unfold Machine.define
  rw [hg.scope]
  split
  · rw [hg.setScope]
    rfl
  · rw [hg.report]
    rfl
  · rw [hg.report]
    rfl
  · rfl

theorem remove (m : Machine) (name : String) :
    (g m).remove name = answering g (m.remove name) := by
  unfold Machine.remove
  rw [hg.scope]
  split
  · rw [hg.setScope]
    rfl
  · rw [hg.report]
    rfl
  · rfl

theorem forget (m : Machine) (name : String) : (g m).forget name = g (m.forget name) := by
  unfold Machine.forget
  rw [hg.scope]
  split
  · rw [hg.setScope]
  · rfl

theorem resolve (m : Machine) (cell : Cell) :
    (g m).resolve cell = answering g (m.resolve cell) := by
  cases cell with
  | reference name =>
      have hLookup : (g m).lookup name = m.lookup name := by
        unfold Machine.lookup
        rw [hg.scope]
      simp only [Machine.resolve, hLookup]
      cases m.lookup name with
      | none => rfl
      | some value =>
          -- A binding whose object is gone is dropped from the active frame only.
          by_cases hValid : value.isValid Handle.valid = true
          · simp [hValid, answering]
          · simp [hValid, answering, hg.forget]
  | _ => rfl

theorem gather (m : Machine) (element : CellType) (cells : List Cell) :
    (g m).gather element cells =
      ((m.gather element cells).1, (m.gather element cells).2.1,
        g (m.gather element cells).2.2) := by
  -- Looking up a cell may change the machine and the tag that the next one finds.
  induction cells generalizing m element with
  | nil => rfl
  | cons cell rest ih =>
      rw [Machine.gather, Machine.gather, hg.resolve]
      generalize m.resolve cell = resolved
      obtain ⟨value, m'⟩ := resolved
      cases value with
      | reference name => simp only [answering, hg.report, ih]
      | _ =>
          simp only [answering]
          split <;> simp only [hg.report, ih]

theorem print (m : Machine) (texts : List String) :
    (g m).print texts = answering g (m.print texts) := by
  induction texts generalizing m with
  | nil => rfl
  | cons text rest ih =>
      rw [Machine.print, Machine.print, hg.writeStream]
      generalize m.writeStream .output text = written
      obtain ⟨refusal, m'⟩ := written
      cases refusal with
      | none => exact ih m'
      | some reason => rfl

theorem dumpCells (m : Machine) (cells : Operands) :
    (g m).dumpCells cells = answering g (m.dumpCells cells) := by
  induction cells generalizing m with
  | nil => rfl
  | cons cell below ih =>
      rw [Machine.dumpCells, Machine.dumpCells, hg.resolve]
      simp only [answering, hg.print, ih]

theorem dump (m : Machine) : (g m).dump = answering g m.dump := by
  unfold Machine.dump
  rw [hg.stack]
  cases m.stack with
  | nil => simp only [hg.flush, hg.print, answering]
  | cons cell below => simp only [hg.flush, hg.dumpCells, answering, hg.print]

theorem printLines (m : Machine) (lines : List String) :
    (g m).printLines lines = answering g (m.printLines lines) := hg.print m _

end Exchange
end Machine

/-! ## Outcomes -/

namespace Outcome

/-- The machine that a computation leaves behind, however it ends. -/
def machine? {α : Type} : Outcome α → Option Machine
  | ok _ m => some m
  | fault _ m => some m
  | exhausted => none

/-- Change the machine that is left behind. -/
def onMachine {α : Type} (f : Machine → Machine) : Outcome α → Outcome α
  | ok value m => ok value (f m)
  | fault cause m => fault cause (f m)
  | exhausted => exhausted

theorem machine?_onMachine {α : Type} (f : Machine → Machine) (o : Outcome α) :
    (o.onMachine f).machine? = o.machine?.map f := by
  cases o <;> rfl

theorem onMachine_eq_fault {α : Type} {f : Machine → Machine} {o : Outcome α} {cause : Fault}
    {m' : Machine} (h : o.onMachine f = .fault cause m') :
    ∃ m, o = .fault cause m ∧ f m = m' := by
  cases o with
  | ok value m => cases h
  | fault cause m =>
      cases h
      exact ⟨m, rfl, rfl⟩
  | exhausted => cases h

end Outcome

namespace Exec

variable {α β : Type}

/-- A frame that is left and calls that are given up are the last thing that happens. -/
theorem framed_eq (x : Exec α) (m : Machine) :
    framed x m = (x m.enter).onMachine Machine.leave := by
  unfold framed
  cases x m.enter <;> rfl

theorem settling_eq (x : Exec α) (m : Machine) :
    settling x m = (x m).onMachine (·.settle m.pending.length) := by
  unfold settling
  cases x m <;> rfl

/-! ### Sequences -/

theorem bind_of_ok {x : Exec α} {f : α → Exec β} {m m' : Machine} {value : α}
    (h : x m = .ok value m') : (x >>= f) m = f value m' := by
  change Exec.bind x f m = _
  unfold Exec.bind
  rw [h]

theorem bind_of_fault {x : Exec α} {f : α → Exec β} {m m' : Machine} {cause : Fault}
    (h : x m = .fault cause m') : (x >>= f) m = .fault cause m' := by
  change Exec.bind x f m = _
  unfold Exec.bind
  rw [h]

theorem bind_of_exhausted {x : Exec α} {f : α → Exec β} {m : Machine} (h : x m = .exhausted) :
    (x >>= f) m = .exhausted := by
  change Exec.bind x f m = _
  unfold Exec.bind
  rw [h]

/-- A sequence that ends with a value has gone through both of its parts. -/
theorem bind_eq_ok {x : Exec α} {f : α → Exec β} {m m' : Machine} {value : β}
    (h : (x >>= f) m = .ok value m') : ∃ a m₁, x m = .ok a m₁ ∧ f a m₁ = .ok value m' := by
  cases hFirst : x m with
  | ok a m₁ =>
      rw [bind_of_ok hFirst] at h
      exact ⟨a, m₁, rfl, h⟩
  | fault cause m₁ => rw [bind_of_fault hFirst] at h; cases h
  | exhausted => rw [bind_of_exhausted hFirst] at h; cases h

/-! ## Local computations -/

/-- The computation works on the active frame and the streams alone, and it always ends. -/
structure Local (x : Exec α) : Prop where
  commutes : ∀ {g : Machine → Machine}, Machine.Exchange g → ∀ m, x (g m) = (x m).onMachine g
  underflow : ∀ m cause m', x m = .fault cause m' → cause = .stackUnderflow
  ends : ∀ m, x m ≠ .exhausted

/-- A local computation leaves the surroundings as they are. -/
theorem Local.surroundings_eq {x : Exec α} (hx : Local x) {m m' : Machine}
    (h : (x m).machine? = some m') : m'.surroundings = m.surroundings := by
  have hSelf := hx.commutes (Machine.within_exchange m.surroundings) m
  rw [Machine.within_surroundings] at hSelf
  cases hOutcome : x m with
  | ok value m₁ =>
      rw [hOutcome] at h hSelf
      obtain rfl := Option.some.inj h
      injection hSelf with _ hMachine
      rw [hMachine, Machine.surroundings_within]
  | fault cause m₁ =>
      rw [hOutcome] at h hSelf
      obtain rfl := Option.some.inj h
      injection hSelf with _ hMachine
      rw [hMachine, Machine.surroundings_within]
  | exhausted => rw [hOutcome] at h; cases h

theorem Local.pure (value : α) : Local (Pure.pure value : Exec α) where
  commutes _ _ := rfl
  underflow _ _ _ h := by cases h
  ends _ h := by cases h

theorem Local.bind {x : Exec α} {f : α → Exec β} (hx : Local x) (hf : ∀ a, Local (f a)) :
    Local (x >>= f) where
  commutes hg m := by
    change Exec.bind x f _ = (Exec.bind x f m).onMachine _
    unfold Exec.bind
    rw [hx.commutes hg]
    cases x m with
    | ok value m₁ => exact (hf value).commutes hg m₁
    | fault cause m₁ => rfl
    | exhausted => rfl
  underflow m cause m' h := by
    change Exec.bind x f m = _ at h
    unfold Exec.bind at h
    cases hOutcome : x m with
    | ok value m₁ =>
        rw [hOutcome] at h
        exact (hf value).underflow m₁ cause m' h
    | fault cause₁ m₁ =>
        rw [hOutcome] at h
        cases h
        exact hx.underflow m cause m' hOutcome
    | exhausted => rw [hOutcome] at h; cases h
  ends m h := by
    change Exec.bind x f m = _ at h
    unfold Exec.bind at h
    cases hOutcome : x m with
    | ok value m₁ =>
        rw [hOutcome] at h
        exact (hf value).ends m₁ h
    | fault cause₁ m₁ => rw [hOutcome] at h; cases h
    | exhausted => exact hx.ends m hOutcome

theorem Local.lift {f : Machine → α × Machine}
    (hf : ∀ {g : Machine → Machine}, Machine.Exchange g →
      ∀ m, f (g m) = Machine.answering g (f m)) : Local (Exec.lift f) where
  commutes hg m := by
    unfold Exec.lift
    rw [hf hg]
    rfl
  underflow _ _ _ h := by cases h
  ends _ h := by cases h

theorem Local.modify {f : Machine → Machine}
    (hf : ∀ {g : Machine → Machine}, Machine.Exchange g → ∀ m, f (g m) = g (f m)) :
    Local (Exec.modify f) where
  commutes hg m := by
    unfold Exec.modify
    rw [hf hg]
    rfl
  underflow _ _ _ h := by cases h
  ends _ h := by cases h

theorem Local.observe {f : Machine → α}
    (hf : ∀ {g : Machine → Machine}, Machine.Exchange g → ∀ m, f (g m) = f m) :
    Local (Exec.observe f) where
  commutes hg m := by
    unfold Exec.observe
    rw [hf hg]
    rfl
  underflow _ _ _ h := by cases h
  ends _ h := by cases h

theorem Local.attempt {x : Exec α} (hx : Local x) : Local (Exec.attempt x) where
  commutes hg m := by
    unfold Exec.attempt
    rw [hx.commutes hg]
    cases x m <;> rfl
  underflow m cause m' h := by
    unfold Exec.attempt at h
    split at h <;> cases h
  ends m h := by
    unfold Exec.attempt at h
    cases hOutcome : x m with
    | ok value m₁ => rw [hOutcome] at h; cases h
    | fault cause m₁ => rw [hOutcome] at h; cases h
    | exhausted => exact hx.ends m hOutcome

/-! ## Local operations -/

theorem pop_local : Local pop where
  commutes hg m := by
    unfold pop
    rw [hg.stack]
    cases m.stack with
    | nil => rfl
    | cons cell rest =>
        dsimp only
        rw [hg.setStack]
        rfl
  underflow m cause m' h := by
    unfold pop at h
    split at h <;> cases h
    rfl
  ends m h := by
    unfold pop at h
    split at h <;> cases h

theorem push_local (cell : Cell) : Local (push cell) :=
  Local.modify fun hg m => hg.push m cell

theorem resolve_local (cell : Cell) : Local (resolve cell) :=
  Local.lift fun hg m => hg.resolve m cell

theorem report_local (d : Diagnostic) : Local (report d) :=
  Local.modify fun hg m => hg.report m d

theorem define_local (name : String) (cell : Cell) : Local (Exec.lift (·.define name cell)) :=
  Local.lift fun hg m => hg.define m name cell

theorem flush_local : Local (Exec.modify (·.flush)) := Local.modify fun hg m => hg.flush m

theorem clear_local : Local (Exec.modify (·.clear)) := Local.modify fun hg m => hg.clear m

theorem dump_local : Local (Exec.lift (·.dump)) := Local.lift fun hg m => hg.dump m

theorem pushList_local (count : Nat) : Local (pushList count) where
  commutes hg m := by
    unfold pushList
    rw [hg.stack]
    cases m.stack.popMany count with
    | error cause => rfl
    | ok popped =>
        obtain ⟨cells, rest⟩ := popped
        simp only [hg.setStack, hg.gather, hg.push]
        rfl
  underflow m cause m' h := by
    unfold pushList Operands.popMany at h
    split at h
    · rename_i hPop
      split at hPop <;> cases hPop
      cases h
      rfl
    · cases h
  ends m h := by
    unfold pushList at h
    split at h <;> cases h

theorem unassign_local : Local unassign := by
  refine pop_local.bind fun cell => ?_
  cases cell with
  | reference name =>
      refine (Local.observe fun hg m => ?_).bind fun defined => ?_
      · unfold Machine.isDefined
        rw [hg.scope]
      · cases defined with
        | true =>
            refine (Local.lift fun hg m => hg.remove m name).bind fun value => ?_
            cases value with
            | some cell => exact (push_local cell).bind fun _ => Local.pure true
            | none => exact Local.pure true
        | false =>
            exact (report_local _).bind fun _ => (push_local _).bind fun _ => Local.pure false
  | _ => exact (push_local _).bind fun _ => (report_local _).bind fun _ => Local.pure false

theorem output_local : Local output := by
  refine pop_local.bind fun top => (resolve_local top).bind fun cell => ?_
  refine (Local.lift fun hg m => ?_).bind fun written => ?_
  · exact hg.print m _
  · exact (push_local cell).bind fun _ => Local.pure written

theorem popArgument_local : Local popArgument := by
  refine pop_local.bind fun cell => ?_
  cases cell with
  | reference name => exact (resolve_local _).bind fun value => Local.pure _
  | _ => exact Local.pure _

theorem failWith_local (d : Diagnostic) : Local (failWith d) :=
  (report_local d).bind fun _ => Local.pure _

theorem defineParams_local (params : List (Param × Cell)) : Local (defineParams params) := by
  induction params with
  | nil => exact Local.pure ()
  | cons entry rest ih =>
      obtain ⟨p, cell⟩ := entry
      rw [defineParams]
      by_cases hReference : (!cell.isReference) = true
      · rw [if_pos hReference]
        exact (define_local p.name cell).bind fun _ => ih
      · rw [if_neg hReference]
        exact ih

theorem bodyResult_local (ending : Ending) : Local (bodyResult ending) := by
  cases ending with
  | success =>
      refine pop_local.attempt.bind fun top => ?_
      cases top with
      | error cause => exact Local.pure _
      | ok top =>
          refine (resolve_local top).bind fun cell => ?_
          cases cell <;> exact Local.pure _
  | quit => exact Local.pure _
  | failure line => exact Local.pure _

theorem copyOut_local (params : List Param) (index : Nat) (args : Args) :
    Local (copyOut params index args) := by
  induction params generalizing index args with
  | nil => exact Local.pure args
  | cons p rest ih =>
      rw [copyOut]
      by_cases hByRef : p.byRef = true
      · rw [if_pos hByRef]
        refine (Local.lift fun hg m => ?_).bind fun value => ?_
        · rw [hg.scope]
          cases m.scope.remove p.name with
          | ok removed =>
              dsimp only
              rw [hg.setScope]
              rfl
          | error _ => rfl
        · cases value with
          | some cell => exact ih (index + 1) (args.set index cell)
          | none => exact ih (index + 1) args
      · rw [if_neg hByRef]
        exact ih (index + 1) args

theorem writeBack_local (args : Args) (targets : List (Option String)) (index : Nat) :
    Local (writeBack args targets index) := by
  induction targets generalizing index with
  | nil => exact Local.pure true
  | cons target rest ih =>
      cases target with
      | none => exact ih (index + 1)
      | some name =>
          rw [writeBack]
          by_cases hRebound : args.isRebound index = true
          · rw [if_pos hRebound]
            cases args.get? index with
            | some cell =>
                exact (define_local name cell).bind fun _ => (ih (index + 1)).bind fun _ =>
                  Local.pure _
            | none => exact ih (index + 1)
          · rw [if_neg hRebound]
            exact ih (index + 1)

end Exec
end CellMachine
