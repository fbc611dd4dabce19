import CellMachine.Proofs.Isolation

/-!
# A failed binding is reported once

Between opening a call and making it, operands are pushed and bound, also after an argument was
refused.  Main statement: if every bind succeeds and the call finishes, nothing is reported before
the chosen overload is invoked; in every other case one diagnostic is reported from the opening to
the end of the call, no body is run, and the call leaves an error as its result.

The first refused argument is reported when it is bound, a missing one when the call is made.  A
call that has failed takes its operands and says nothing more, so the refusal is all that is ever
reported (`Machine.Prepares`).  The message of the error that the call leaves need NOT be that of
the diagnostic: a refused argument always leaves that no overload matches.
-/

namespace CellMachine

/-! ## Preparing a call -/

/-- What is done between opening a call and making it. -/
inductive Preparation where
  | push (cell : Cell)
  | bind (param : Option String) (mode : PassMode)

namespace Exec

/-- Make some preparations, whether or not arguments are refused; the answers are those of the
binds. -/
def prepare : List Preparation → Exec (List Bool)
  | [] => return []
  | .push cell :: rest => do
    push cell
    prepare rest
  | .bind param mode :: rest => do
    let bound ← bindTop param mode
    return bound :: (← prepare rest)

end Exec

namespace Machine

/-- The machine after a diagnostic was reported, if there is one. -/
def reportAny (m : Machine) (refusal : Option Diagnostic) : Machine := refusal.elim m m.report

/-- The second machine prepares a call on top of some other calls.  The call has failed exactly if
an argument was refused, and that refusal is all that was reported since the first machine. -/
structure Prepares (m : Machine) (outer : List PendingCall) (refusal : Option Diagnostic)
    (m' : Machine) : Prop where
  pending : ∃ c, m'.pending = c :: outer ∧ c.failed = refusal.isSome
  reported : m'.reported = (m.reportAny refusal).reported
  console : m'.console = (m.reportAny refusal).console

theorem initCall_prepares {m opened : Machine} {name : String}
    (h : m.initCall name = (true, opened)) : m.Prepares m.pending none opened := by
  unfold initCall at h
  split at h
  · cases h
    exact ⟨⟨_, rfl, rfl⟩, rfl, rfl⟩
  · cases h

theorem forget_reports (m : Machine) (name : String) :
    (m.forget name).reported = m.reported ∧ (m.forget name).console = m.console := by
  unfold forget
  split
  · exact ⟨rfl, rfl⟩
  · exact ⟨rfl, rfl⟩

/-- Looking up a reference reports nothing, also where it drops a binding. -/
theorem resolve_reports (m : Machine) (cell : Cell) :
    (m.resolve cell).2.reported = m.reported ∧ (m.resolve cell).2.console = m.console := by
  unfold resolve
  split
  · split
    · exact ⟨rfl, rfl⟩
    · split
      · exact ⟨rfl, rfl⟩
      · exact m.forget_reports _
  · exact ⟨rfl, rfl⟩

end Machine

namespace Exec

variable {m m₁ m₂ : Machine} {outer : List PendingCall} {refusal : Option Diagnostic}

theorem popArgument_reports {a : Argument} (h : popArgument m₁ = .ok a m₂) :
    m₂.reported = m₁.reported ∧ m₂.console = m₁.console := by
  obtain ⟨cell, m', hPop, hRest⟩ := bind_eq_ok h
  have hSame : m'.reported = m₁.reported ∧ m'.console = m₁.console := by
    unfold pop at hPop
    split at hPop
    · cases hPop
    · cases hPop
      exact ⟨rfl, rfl⟩
  cases cell with
  | reference name =>
      obtain ⟨value, m'', hResolve, hDone⟩ := bind_eq_ok hRest
      cases hResolve
      cases hDone
      have hLookup := m'.resolve_reports (.reference name)
      exact ⟨hLookup.1.trans hSame.1, hLookup.2.trans hSame.2⟩
  | _ =>
      cases hRest
      exact hSame

/-- A call that has failed takes its operands without a word; one that has not reports the argument
that it refuses. -/
theorem bindArgument_prepares (h : m.Prepares outer refusal m₁) {param : Option String}
    {mode : PassMode} {a : Argument} {bound : Bool}
    (hBind : bindArgument param mode a m₁ = .ok bound m₂) :
    ∃ refusal', m.Prepares outer refusal' m₂ ∧ (refusal.isSome = true → refusal' = refusal) ∧
      (bound = true ↔ refusal' = none) := by
  obtain ⟨⟨c, hPending, hFailed⟩, hReported, hConsole⟩ := h
  unfold bindArgument at hBind
  rw [hPending] at hBind
  dsimp only at hBind
  cases refusal with
  | some d =>
      have hClosed : c.failed = true := hFailed
      rw [if_pos hClosed] at hBind
      cases hBind
      exact ⟨some d, ⟨⟨c, hPending, hFailed⟩, hReported, hConsole⟩, fun _ => rfl, by simp⟩
  | none =>
      have hOpen : ¬c.failed = true := by simp [hFailed]
      rw [if_neg hOpen] at hBind
      have hAfter := c.bind_failed Handle.valid param a mode
      -- The flag of the call and the report come from the same refusal.
      generalize c.bind Handle.valid param a mode = served at hBind hAfter
      obtain ⟨next, refused⟩ := served
      rw [hFailed] at hAfter
      cases refused with
      | none =>
          cases hBind
          exact ⟨none, ⟨⟨next, rfl, hAfter⟩, hReported, hConsole⟩, by simp, by simp⟩
      | some d =>
          cases hBind
          refine ⟨some d, ⟨⟨next, rfl, hAfter⟩, ?_, ?_⟩, by simp, by simp⟩
          · exact congrArg (·.push d) hReported
          · exact congrArg (fun c => (Console.writeAll c .errors [d.render, "\n"]).2) hConsole

theorem bindTop_prepares (h : m.Prepares outer refusal m₁) {param : Option String}
    {mode : PassMode} {bound : Bool} (hBind : bindTop param mode m₁ = .ok bound m₂) :
    ∃ refusal', m.Prepares outer refusal' m₂ ∧ (refusal.isSome = true → refusal' = refusal) ∧
      (bound = true ↔ refusal' = none) := by
  obtain ⟨c, hPending, hFailed⟩ := h.pending
  rw [bindTop_eq, hPending, if_neg (by simp)] at hBind
  obtain ⟨a, m', hPop, hBound⟩ := bind_eq_ok hBind
  obtain ⟨hReported, hConsole⟩ := popArgument_reports hPop
  have hSame : m'.pending = m₁.pending := by
    have hLeft : (popArgument m₁).machine? = some m' := by
      rw [hPop]
      rfl
    injection popArgument_local.surroundings_eq hLeft
  refine bindArgument_prepares ⟨⟨c, hSame.trans hPending, hFailed⟩, ?_, ?_⟩ hBound
  · exact hReported.trans h.reported
  · exact hConsole.trans h.console

/-- Preparations go on after a refusal, and add nothing to it. -/
theorem prepare_prepares (h : m.Prepares outer refusal m₁) {preparations : List Preparation}
    {answers : List Bool} (hPrepare : prepare preparations m₁ = .ok answers m₂) :
    ∃ refusal', m.Prepares outer refusal' m₂ ∧
      (refusal' = none ↔ refusal = none ∧ ∀ answer ∈ answers, answer = true) := by
  induction preparations generalizing refusal m₁ answers with
  | nil =>
      cases hPrepare
      exact ⟨refusal, h, by simp⟩
  | cons preparation rest ih =>
      cases preparation with
      | push cell =>
          have hPushed : m.Prepares outer refusal (m₁.push cell) :=
            ⟨h.pending, h.reported, h.console⟩
          exact ih hPushed hPrepare
      | bind param mode =>
          obtain ⟨bound, m', hBind, hRest⟩ := bind_eq_ok hPrepare
          obtain ⟨others, m'', hOthers, hDone⟩ := bind_eq_ok hRest
          cases hDone
          obtain ⟨refused, hNext, hKept, hBound⟩ := bindTop_prepares h hBind
          obtain ⟨refusal', hEnd, hAll⟩ := ih hNext hOthers
          refine ⟨refusal', hEnd, ?_⟩
          rw [hAll, ← hBound, List.forall_mem_cons]
          constructor
          · rintro ⟨hFirst, hLater⟩
            -- An argument that is bound shows that none was refused before.
            have hOpen : refusal = none := by
              cases refusal with
              | none => rfl
              | some d => exact absurd (hKept rfl) (by simp [hBound.1 hFirst])
            exact ⟨hOpen, hFirst, hLater⟩
          · rintro ⟨-, hFirst, hLater⟩
            exact ⟨hFirst, hLater⟩

/-! ## Making the call -/

/-- What a call does with the answer of the invocation. -/
def conclude (bound : BoundCall) (answer : Cell × Args) : Exec Bool := do
  push answer.1
  let written ← writeBack answer.2 bound.targets 0
  return !answer.1.isError && written

theorem makeCall_of_ok {c : PendingCall} {bound : BoundCall} (hFinish : c.finish = .ok bound)
    (run : Overload → Args → Exec (Cell × Args)) :
    makeCall run c = invoke run bound.overload bound.args >>= conclude bound := by
  unfold makeCall
  rw [hFinish]
  rfl

/-- A call that does not finish reports why, unless a refused argument was reported before. -/
theorem makeCall_of_error {c : PendingCall} {d : Diagnostic} (hFinish : c.finish = .error d)
    (run : Overload → Args → Exec (Cell × Args)) (m : Machine) :
    makeCall run c m =
      .ok false ((m.reportAny (if c.failed then none else some d)).push (.error d.message)) := by
  unfold makeCall
  rw [hFinish]
  cases c.failed <;> rfl

end Exec

theorem PendingCall.finish_of_failed {c : PendingCall} (h : c.failed = true) :
    c.finish = .error (.noMatchingOverload c.name) := by
  unfold finish
  rw [if_pos h]

/-- One diagnostic for each failed binding, and no invocation.  Whatever is pushed and bound after a
call is opened: if no argument is refused and the call finishes, nothing has been reported when the
chosen overload is invoked.  Otherwise one diagnostic is reported from the opening to the end of the
call, which is why the call does not finish unless an argument was refused.  Whatever is done in
place of bodies, the call then does the same: it defines no variable, pushes an error and answers
that it did not succeed. -/
theorem failed_binding_reported_once {m opened prepared : Machine} {name : String}
    {preparations : List Preparation} {answers : List Bool}
    (hOpen : m.initCall name = (true, opened))
    (hPrepare : Exec.prepare preparations opened = .ok answers prepared) :
    ∃ c, prepared.pending = c :: m.pending ∧
      (∀ bound, (∀ answer ∈ answers, answer = true) → c.finish = .ok bound →
        prepared.reported = m.reported ∧ prepared.console = m.console ∧
          ∀ run, (Exec.takePending >>= Exec.makeCall run) prepared =
            (Exec.invoke run bound.overload bound.args >>= Exec.conclude bound)
              { prepared with pending := m.pending }) ∧
      (¬((∀ answer ∈ answers, answer = true) ∧ ∃ bound, c.finish = .ok bound) →
        ∃ d message after,
          ((∀ answer ∈ answers, answer = true) → c.finish = .error d) ∧
          after.reported = m.reported.push d ∧ after.console = (m.report d).console ∧
          after.stack = .error message :: prepared.stack ∧ after.scope = prepared.scope ∧
          after.calls.waiting = prepared.calls.waiting ∧ after.pending = m.pending ∧
          (∀ run, (Exec.takePending >>= Exec.makeCall run) prepared = .ok false after) ∧
          ∀ execute, Exec.call execute prepared = .ok false after) := by
  obtain ⟨refusal, ⟨⟨c, hPending, hFailed⟩, hReported, hConsole⟩, hAnswers⟩ :=
    Exec.prepare_prepares (Machine.initCall_prepares hOpen) hPrepare
  simp only [true_and] at hAnswers
  refine ⟨c, hPending, fun bound hAll hFinish => ?_, fun hIncomplete => ?_⟩
  · obtain rfl := hAnswers.2 hAll
    refine ⟨hReported, hConsole, fun run => ?_⟩
    rw [Exec.takePending_bind hPending, Exec.makeCall_of_ok hFinish]
  · -- A refused argument keeps the call from finishing, so it does not finish in any case.
    obtain ⟨d, hFinish⟩ : ∃ d, c.finish = .error d := by
      cases hFinish : c.finish with
      | error d => exact ⟨d, rfl⟩
      | ok bound =>
          cases refusal with
          | none => exact absurd ⟨hAnswers.1 rfl, bound, hFinish⟩ hIncomplete
          | some d =>
              rw [PendingCall.finish_of_failed hFailed] at hFinish
              cases hFinish
    have hMake (run : Overload → Args → Exec (Cell × Args)) :
        (Exec.takePending >>= Exec.makeCall run) prepared = .ok false
          ((({ prepared with pending := m.pending } : Machine).reportAny
            (if c.failed then none else some d)).push (.error d.message)) := by
      rw [Exec.takePending_bind hPending, Exec.makeCall_of_error hFinish]
    rw [hFailed] at hMake
    cases refusal with
    | some refused =>
        refine ⟨refused, d.message,
          ({ prepared with pending := m.pending } : Machine).push (.error d.message),
          fun hAll => ?_, hReported, hConsole, rfl, rfl, rfl, rfl, hMake,
          fun execute => hMake (Exec.runBody execute)⟩
        exact absurd (hAnswers.2 hAll) (by simp)
    | none =>
        refine ⟨d, d.message,
          (({ prepared with pending := m.pending } : Machine).report d).push (.error d.message),
          fun _ => hFinish, congrArg (·.push d) hReported, ?_, rfl, rfl, rfl, rfl, hMake,
          fun execute => hMake (Exec.runBody execute)⟩
        exact congrArg (fun c => (Console.writeAll c .errors [d.render, "\n"]).2) hConsole

/-! ### Arguments that are taken, and one that no overload takes -/

/-- Two numbers for a sum, the second by name. -/
def fittingPreparations : List Preparation :=
  [.push (.integer 1), .bind none .automatic, .push (.integer 3), .bind (some "y") .value]

/-- Two numbers and a text for a sum: the text is refused, and the number behind it is ignored. -/
def mixedPreparations : List Preparation :=
  [.push (.integer 1), .bind none .automatic, .push (.text "two"), .bind none .automatic,
    .push (.integer 3), .bind (some "y") .value]

theorem failed_binding_reported_once_mixed :
    ∃ opened,
      ({ coreMachine with pending := [awaiting] } : Machine).initCall "Plus" = (true, opened) ∧
      (∃ prepared c d after,
        Exec.prepare mixedPreparations opened = .ok [true, false, false] prepared ∧
        prepared.pending = [c, awaiting] ∧ after.reported = coreMachine.reported.push d ∧
        after.pending = [awaiting] ∧
        ∀ execute, Exec.call execute prepared = .ok false after) ∧
      ∃ prepared c bound,
        Exec.prepare fittingPreparations opened = .ok [true, true] prepared ∧
        prepared.pending = [c, awaiting] ∧ c.finish = .ok bound ∧
        bound.args = Args.ofCells [.integer 1, .integer 3] ∧
        prepared.reported = coreMachine.reported ∧
        ∀ run, (Exec.takePending >>= Exec.makeCall run) prepared =
          (Exec.invoke run bound.overload bound.args >>= Exec.conclude bound)
            { prepared with pending := [awaiting] } := by
  obtain ⟨c, hPending, -, hFailed⟩ := @failed_binding_reported_once
    { coreMachine with pending := [awaiting] } _ _ "Plus" mixedPreparations _ rfl rfl
  obtain ⟨d, message, after, -, hReported, -, -, -, -, hOuter, -, hCall⟩ :=
    hFailed fun hBoth => absurd (hBoth.1 false (by simp)) (by decide)
  obtain ⟨c', hPending', hBound, -⟩ := @failed_binding_reported_once
    { coreMachine with pending := [awaiting] } _ _ "Plus" fittingPreparations _ rfl rfl
  obtain ⟨bound, hFinish, hArgs⟩ : ∃ bound, c'.finish = .ok bound ∧
      bound.args = Args.ofCells [.integer 1, .integer 3] := by
    rw [← (List.cons.inj hPending').1]
    exact ⟨_, rfl, rfl⟩
  obtain ⟨hSilent, -, hInvoke⟩ := hBound bound (by simp) hFinish
  exact ⟨_, rfl, ⟨_, c, d, after, rfl, hPending, hReported, hOuter, hCall⟩,
    _, c', bound, rfl, hPending', hFinish, hArgs, hSilent, hInvoke⟩

end CellMachine
