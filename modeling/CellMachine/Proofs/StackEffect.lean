import CellMachine.Proofs.Isolation
import CellMachine.Proofs.OperandIndependence

/-!
# What instructions do to the operand stack

Most instructions take a fixed number of operands off the active stack and leave a fixed number in
their place, whatever the operands are and whatever functions they call.  `Op.effect?` gives the
two numbers, and effects of computations that follow one another add up by
`StackEffect.andThen`.

A computation has an effect (`HasEffect`) if it turns the stack accordingly whenever its answer is
a good one, and if it never touches the operands below those it takes, however it ends.  Calls have
one because a body that is user-defined works in a frame of its own, and because no function of the
core library touches the operands.  A host function that does is excluded; so are the instructions
that clear the stack.

Main statement: `step_stackEffect`.  It does NOT say how many cells are on top of the operands that
are left alone when an instruction fails.
-/

namespace CellMachine

/-! ## Effects -/

/-- How many operands are taken, and how many are left in their place. -/
structure StackEffect where
  consumed : Nat
  produced : Nat
  deriving DecidableEq

namespace StackEffect

def neutral : StackEffect := ⟨0, 0⟩

/-- One effect after another: the second one takes what the first one left before it takes more. -/
def andThen (e f : StackEffect) : StackEffect where
  consumed := e.consumed + (f.consumed - e.produced)
  produced := f.produced + (e.produced - f.consumed)

@[simp] theorem neutral_andThen (e : StackEffect) : neutral.andThen e = e := by
  simp [andThen, neutral]

/-- The stack had enough operands, and those taken were replaced by as many as are left. -/
def Turns (e : StackEffect) (before after : Operands) : Prop :=
  e.consumed ≤ before.length ∧ ∃ results : List Cell, results.length = e.produced ∧
    after = results ++ before.drop e.consumed

/-- The operands below those taken are still there. -/
def Spares (e : StackEffect) (before after : Operands) : Prop := before.drop e.consumed <:+ after

theorem turns_neutral (stack : Operands) : neutral.Turns stack stack :=
  ⟨Nat.zero_le _, [], rfl, rfl⟩

theorem Turns.spares {e : StackEffect} {before after : Operands} (h : e.Turns before after) :
    e.Spares before after := by
  obtain ⟨-, results, -, rfl⟩ := h
  exact List.suffix_append _ _

theorem Spares.of_suffix {e : StackEffect} {before after : Operands} (h : before <:+ after) :
    e.Spares before after := (List.drop_suffix _ _).trans h

/-- What a first computation spares, one after it would have to reach through to touch. -/
theorem Spares.andThen {e : StackEffect} {before after : Operands} (h : e.Spares before after)
    (f : StackEffect) : (e.andThen f).Spares before after := by
  unfold Spares StackEffect.andThen
  rw [← List.drop_drop]
  exact (List.drop_suffix _ _).trans h

theorem Turns.drop_eq {e : StackEffect} {before middle : Operands} (h : e.Turns before middle)
    (count : Nat) : ∃ kept : List Cell, kept.length = e.produced - count ∧
      middle.drop count = kept ++ before.drop (e.consumed + (count - e.produced)) := by
  obtain ⟨-, results, hLength, rfl⟩ := h
  refine ⟨results.drop count, by rw [List.length_drop, hLength], ?_⟩
  rw [List.drop_append, List.drop_drop, hLength]

theorem Turns.andThen_spares {e f : StackEffect} {before middle after : Operands}
    (h : e.Turns before middle) (h' : f.Spares middle after) :
    (e.andThen f).Spares before after := by
  obtain ⟨kept, -, hKept⟩ := h.drop_eq f.consumed
  have hSuffix : (before.drop (e.andThen f).consumed) <:+ middle.drop f.consumed := by
    rw [hKept]
    exact List.suffix_append _ _
  exact hSuffix.trans h'

theorem Turns.andThen {e f : StackEffect} {before middle after : Operands}
    (h : e.Turns before middle) (h' : f.Turns middle after) : (e.andThen f).Turns before after := by
  obtain ⟨kept, hLength, hKept⟩ := h.drop_eq f.consumed
  obtain ⟨hEnough, results, hResults, rfl⟩ := h
  obtain ⟨hEnough', results', hResults', rfl⟩ := h'
  refine ⟨?_, results' ++ kept, ?_, ?_⟩
  · rw [List.length_append, List.length_drop] at hEnough'
    simp only [StackEffect.andThen]
    omega
  · rw [List.length_append, hResults', hLength]
    rfl
  · rw [hKept, List.append_assoc]
    rfl

end StackEffect

/-- The effect of an instruction that has one. -/
def Op.effect? : Op → Option StackEffect
  | .push _ | .pushRef _ => some ⟨0, 1⟩
  | .pushList count => some ⟨count, 1⟩
  | .output | .unassign | .unary _ => some ⟨1, 1⟩
  | .binary _ => some ⟨2, 1⟩
  | .initCall _ | .help _ => some ⟨0, 0⟩
  | .bind _ _ => some ⟨1, 0⟩
  | .call => some ⟨0, 1⟩
  | .pop | .flush | .dump | .clear | .jump _ | .jumpIf _ | .quit => none

/-- The effect of instructions that are performed one after the other. -/
def Op.totalEffect? : List Op → Option StackEffect
  | [] => some .neutral
  | op :: rest => do return (← op.effect?).andThen (← totalEffect? rest)

/-! ## Steady machines -/

/-- The body leaves the operands of its caller alone. -/
def Overload.Steady (o : Overload) : Prop :=
  ∀ resolve, o.body = .native resolve → ∀ args, (resolve args).Steady

/-- No function that the machine can come to run touches the operands of its caller. -/
def Machine.Steady (m : Machine) : Prop := ∀ o, m.Holds o → o.Steady

theorem Machine.Evolves.steady {m m' : Machine} (h : m.Evolves m') (hSteady : m.Steady) :
    m'.Steady := fun o ho => hSteady o (h.holds o ho)

/-- Every function that the machine can come to run belongs to the core library or is
user-defined. -/
def Machine.Scripted (m : Machine) : Prop :=
  ∀ o, m.Holds o → o ∈ Core.library ∨ ∃ code, o.body = .user code

theorem Machine.Scripted.steady {m : Machine} (h : m.Scripted) : m.Steady := by
  intro o ho resolve hBody args
  rcases h o ho with hCore | ⟨code, hUser⟩
  · obtain ⟨f, hf, -⟩ := Core.library_isCore o hCore
    rw [hf] at hBody
    cases hBody
    exact f.resolve_steady args
  · rw [hUser] at hBody
    cases hBody

/-! ## Computations with an effect -/

namespace Exec

variable {α β : Type} {good : α → Prop} {good' : β → Prop} {e f : StackEffect}

/-- In a steady machine the computation turns the operand stack by the effect if its answer is a
good one, and in any case spares the operands below. -/
structure HasEffect (good : α → Prop) (e : StackEffect) (x : Exec α) : Prop where
  orderly : Orderly x
  turns : ∀ {m m' : Machine} {a : α}, m.Steady → x m = .ok a m' → good a →
    e.Turns m.stack m'.stack
  spares : ∀ {m m' : Machine}, m.Steady → (x m).machine? = some m' → e.Spares m.stack m'.stack

/-- The computation leaves the operands as they are. -/
abbrev Still (x : Exec α) : Prop := HasEffect (fun _ => True) .neutral x

namespace HasEffect

/-- The first computation may be known to have been made by a steady machine. -/
theorem bind_of {x : Exec α} {next : α → Exec β} (hx : HasEffect good e x)
    (hOrderly : ∀ a, Orderly (next a))
    (hNext : ∀ {m m' : Machine} {a : α}, m.Steady → x m = .ok a m' → good a →
      HasEffect good' f (next a))
    (hStop : ∀ a, ¬ good a → ∃ b, next a = Pure.pure b ∧ ¬ good' b) :
    HasEffect good' (e.andThen f) (x >>= next) where
  orderly := Machine.Evolves.frameable.bind hx.orderly hOrderly
  turns {m m' b} hm h hb := by
    cases hOutcome : x m with
    | ok a m₁ =>
        rw [bind_of_ok hOutcome] at h
        by_cases ha : good a
        · -- A steady machine stays steady, so the second computation has its effect.
          have hSteady := (hx.orderly.relates (m := m) (by rw [hOutcome]; rfl)).steady hm
          exact (hx.turns hm hOutcome ha).andThen ((hNext hm hOutcome ha).turns hSteady h hb)
        · obtain ⟨b', hPure, hBad⟩ := hStop a ha
          rw [hPure] at h
          cases h
          exact absurd hb hBad
    | fault cause m₁ => rw [bind_of_fault hOutcome] at h; cases h
    | exhausted => rw [bind_of_exhausted hOutcome] at h; cases h
  spares {m m'} hm h := by
    cases hOutcome : x m with
    | ok a m₁ =>
        rw [bind_of_ok hOutcome] at h
        by_cases ha : good a
        · have hSteady := (hx.orderly.relates (m := m) (by rw [hOutcome]; rfl)).steady hm
          exact (hx.turns hm hOutcome ha).andThen_spares
            ((hNext hm hOutcome ha).spares hSteady h)
        · -- What stops leaves the machine of the first computation behind.
          obtain ⟨b', hPure, -⟩ := hStop a ha
          rw [hPure] at h
          cases h
          exact (hx.spares (m := m) hm (by rw [hOutcome]; rfl)).andThen f
    | fault cause m₁ =>
        rw [bind_of_fault hOutcome] at h
        exact (hx.spares (m := m) hm (by rw [hOutcome]; exact h)).andThen f
    | exhausted => rw [bind_of_exhausted hOutcome] at h; cases h

/-- Any answer of the first computation is a good one. -/
theorem seq {x : Exec α} {next : α → Exec β} (hx : HasEffect (fun _ => True) e x)
    (hNext : ∀ a, HasEffect good' f (next a)) : HasEffect good' (e.andThen f) (x >>= next) :=
  hx.bind_of (fun a => (hNext a).orderly) (fun {_ _ a} _ _ _ => hNext a)
    fun _ h => absurd trivial h

/-- A computation that leaves the operands as they are adds nothing to the effect. -/
theorem after_still {x : Exec α} {next : α → Exec β} (hx : Still x)
    (hNext : ∀ a, HasEffect good' f (next a)) : HasEffect good' f (x >>= next) := by
  have hSeq := hx.seq hNext
  rwa [StackEffect.neutral_andThen] at hSeq

theorem of_stack_eq {x : Exec α} (hx : Orderly x)
    (hStack : ∀ {m m' : Machine}, m.Steady → (x m).machine? = some m' → m'.stack = m.stack) :
    HasEffect good .neutral x where
  orderly := hx
  turns {m m' a} hm h _ := by
    have hEnds : (x m).machine? = some m' := by
      rw [h]
      rfl
    rw [hStack hm hEnds]
    exact StackEffect.turns_neutral m.stack
  spares {m m'} hm h := by
    rw [hStack hm h]
    exact List.suffix_rfl

theorem pure (value : α) : HasEffect good .neutral (Pure.pure value : Exec α) :=
  of_stack_eq (Machine.Evolves.frameable.of_local (Local.pure value)) fun _ h => by cases h; rfl

theorem exhausted : HasEffect good e (Exec.exhausted : Exec α) where
  orderly := Keeps.exhausted
  turns _ h := by cases h
  spares _ h := by cases h

theorem lift {op : Machine → α × Machine} (hOp : Orderly (Exec.lift op))
    (hPasses : Machine.PassesOver op) : HasEffect good .neutral (Exec.lift op) :=
  of_stack_eq hOp fun {m m'} _ h => by
    cases h
    exact hPasses.stack_eq m

theorem settling {x : Exec α} (hx : HasEffect good e x) : HasEffect good e (Exec.settling x) where
  orderly := settling_orderly hx.orderly
  turns {m m' a} hm h ha := by
    rw [settling_eq] at h
    cases hOutcome : x m <;> rw [hOutcome] at h <;> cases h
    -- Giving up pending calls changes no operand.
    rename_i m₁
    have hTurns : e.Turns m.stack m₁.stack := hx.turns hm hOutcome ha
    exact hTurns
  spares {m m'} hm h := by
    rw [settling_eq, Outcome.machine?_onMachine, Option.map_eq_some_iff] at h
    obtain ⟨m₁, hEnds, rfl⟩ := h
    have hSpares : e.Spares m.stack m₁.stack := hx.spares hm hEnds
    exact hSpares

end HasEffect

/-! ### Single operations -/

theorem lift_still {op : Machine → α × Machine} (hLocal : Local (Exec.lift op))
    (hPasses : Machine.PassesOver op) : Still (Exec.lift op) :=
  .lift (Machine.Evolves.frameable.of_local hLocal) hPasses

theorem report_still (d : Diagnostic) : Still (report d) :=
  .of_stack_eq (Machine.Evolves.frameable.of_local (report_local d)) fun _ h => by cases h; rfl

theorem define_still (name : String) (cell : Cell) : Still (Exec.lift (·.define name cell)) :=
  lift_still (define_local name cell) fun m stack => m.define_setStack stack name cell

theorem resolve_still (cell : Cell) : Still (resolve cell) :=
  lift_still (resolve_local cell) fun m stack => m.resolve_setStack stack cell

theorem still_chained : Chained fun {α} (x : Exec α) => Still x where
  pure := .pure
  report := report_still
  bind := .after_still

theorem push_effect (cell : Cell) : HasEffect (fun _ => True) ⟨0, 1⟩ (push cell) where
  orderly := Machine.Evolves.frameable.of_local (push_local cell)
  turns {m m' _} _ h _ := by
    cases h
    exact ⟨Nat.zero_le _, [cell], rfl, rfl⟩
  spares {m m'} _ h := by
    cases h
    exact List.suffix_cons cell m.stack

theorem pop_effect : HasEffect (fun _ => True) ⟨1, 0⟩ pop where
  orderly := Machine.Evolves.frameable.of_local pop_local
  turns {m m' cell} _ h _ := by
    unfold pop at h
    split at h <;> cases h
    rename_i rest hStack
    rw [hStack]
    exact ⟨Nat.succ_pos _, [], rfl, rfl⟩
  spares {m m'} _ h := by
    unfold pop at h
    split at h
    · cases h
      exact List.drop_suffix 1 m.stack
    · rename_i rest hStack
      cases h
      rw [hStack]
      exact List.suffix_rfl

theorem pushList_effect (count : Nat) : HasEffect (· = true) ⟨count, 1⟩ (pushList count) := by
  -- The list is pushed also when it is not complete.
  have hTurns {m m' : Machine} {complete : Bool} (h : pushList count m = .ok complete m') :
      (StackEffect.mk count 1).Turns m.stack m'.stack := by
    unfold pushList Operands.popMany at h
    by_cases hShort : m.stack.length < count
    · simp [hShort] at h
    · simp only [hShort, if_false] at h
      cases h
      refine ⟨Nat.le_of_not_lt hShort, [((m.setStack (m.stack.drop count)).gather .undetermined
        (m.stack.take count).reverse).2.1.toCell], rfl, ?_⟩
      exact congrArg (List.cons _) (Machine.gather_stack _ _ _)
  refine ⟨Machine.Evolves.frameable.of_local (pushList_local count), fun _ h _ => hTurns h,
    fun {m m'} _ h => ?_⟩
  cases hOutcome : pushList count m with
  | ok complete m₁ =>
      rw [hOutcome] at h
      cases h
      exact (hTurns hOutcome).spares
  | fault cause m₁ =>
      rw [hOutcome] at h
      cases h
      unfold pushList at hOutcome
      split at hOutcome <;> cases hOutcome
      exact .of_suffix List.suffix_rfl
  | exhausted => rw [hOutcome] at h; cases h

/-- What is defined can be removed, or else handed out. -/
theorem remove_isSome {m : Machine} {name : String} (h : m.isDefined name = true) :
    (m.remove name).1.isSome = true := by
  unfold Machine.isDefined Scope.isDefined Scope.lookup at h
  unfold Machine.remove Scope.remove isProtected
  cases hProtected : protectedValue? name with
  | some cell => simp [hProtected]
  | none =>
      simp only [hProtected] at h
      obtain ⟨cell, hCell⟩ := Option.isSome_iff_exists.1 h
      simp [hCell]

/-- Whatever becomes of the operand, one cell stands in its place. -/
theorem unassign_stack {m : Machine} {top : Cell} {below : Operands}
    (hStack : m.stack = top :: below) :
    ∃ succeeded m' value, unassign m = .ok succeeded m' ∧ m'.stack = value :: below := by
  have hPop : pop m = .ok top (m.setStack below) := by
    unfold pop
    rw [hStack]
  unfold unassign
  rw [bind_of_ok hPop]
  cases top with
  | reference name =>
      change ∃ _ _ _, (if (m.setStack below).isDefined name = true then
        (Exec.lift (·.remove name) >>= _ : Exec Bool) else _) _ = _ ∧ _
      split
      · -- A protected name stays, but its stream is handed out like a value that is removed.
        rename_i hDefined
        obtain ⟨cell, hCell⟩ := Option.isSome_iff_exists.1 (remove_isSome hDefined)
        have hRemove : Exec.lift (·.remove name) (m.setStack below) =
            .ok (some cell) ((m.setStack below).remove name).2 := by
          rw [← hCell]
          rfl
        rw [bind_of_ok hRemove]
        refine ⟨true, _, cell, rfl, ?_⟩
        change cell :: Machine.stack _ = _
        have hPasses : Machine.PassesOver (·.remove name) :=
          fun m stack => m.remove_setStack stack name
        rw [hPasses.stack_eq (m.setStack below)]
        rfl
      · exact ⟨false, _, _, rfl, rfl⟩
  | _ => exact ⟨false, _, _, rfl, rfl⟩

theorem unassign_effect : HasEffect (· = true) ⟨1, 1⟩ unassign := by
  have hTurns {m m' : Machine} {top : Cell} {below : Operands} (hStack : m.stack = top :: below)
      (h : (unassign m).machine? = some m') : (StackEffect.mk 1 1).Turns m.stack m'.stack := by
    obtain ⟨succeeded, m₁, value, hOutcome, hStack'⟩ := unassign_stack hStack
    rw [hOutcome] at h
    cases h
    rw [hStack, hStack']
    exact ⟨Nat.succ_pos _, [value], rfl, rfl⟩
  have hUnderflow {m : Machine} (hStack : m.stack = []) :
      unassign m = .fault .stackUnderflow m := by
    refine bind_of_fault ?_
    unfold pop
    rw [hStack]
  refine ⟨Machine.Evolves.frameable.of_local unassign_local, fun {m m' _} _ h _ => ?_,
    fun {m m'} _ h => ?_⟩
  · cases hStack : m.stack with
    | nil => rw [hUnderflow hStack] at h; cases h
    | cons top below =>
        rw [← hStack]
        exact hTurns hStack (by rw [h]; rfl)
  · cases hStack : m.stack with
    | nil => exact List.nil_suffix
    | cons top below =>
        rw [← hStack]
        exact (hTurns hStack h).spares

theorem output_effect : HasEffect (· = true) ⟨1, 1⟩ output := by
  refine pop_effect.seq (f := ⟨0, 1⟩) fun top => (resolve_still top).after_still fun cell => ?_
  have hPrint : Still (Exec.lift (·.print [cell.display, "\n"])) :=
    lift_still (Local.lift fun hg m => hg.print m _) fun m stack => m.print_setStack stack _
  exact hPrint.after_still fun written => (push_effect cell).seq fun _ => .pure written

/-! ### Arguments -/

theorem popArgument_effect : HasEffect (fun _ => True) ⟨1, 0⟩ popArgument := by
  refine pop_effect.seq (f := .neutral) fun cell => ?_
  cases cell with
  | reference name => exact (resolve_still _).after_still fun _ => .pure _
  | _ => exact .pure _

theorem bindArgument_still (param : Option String) (mode : PassMode) (a : Argument) :
    HasEffect (· = true) .neutral (bindArgument param mode a) := by
  refine .of_stack_eq (bindArgument_orderly param mode a) fun {m m'} _ h => ?_
  unfold bindArgument at h
  split at h
  · cases h
    rfl
  · dsimp only at h
    split at h
    · cases h
      rfl
    · split at h <;> cases h <;> rfl

theorem bindTop_effect (param : Option String) (mode : PassMode) :
    HasEffect (· = true) ⟨1, 0⟩ (bindTop param mode) := by
  have hBind : HasEffect (· = true) ⟨1, 0⟩ (popArgument >>= bindArgument param mode) :=
    popArgument_effect.seq (f := .neutral) fun a => bindArgument_still param mode a
  refine ⟨bindTop_orderly param mode, fun {m m' _} hm h hTrue => ?_, fun {m m'} hm h => ?_⟩
  · rw [bindTop_eq] at h
    split at h
    · cases h
    · exact hBind.turns hm h hTrue
  · rw [bindTop_eq] at h
    split at h
    · -- A missing call is noticed before the operand is taken.
      cases h
      exact .of_suffix List.suffix_rfl
    · exact hBind.spares hm h

/-! ### Bodies -/

theorem runNative_still {execute : Code → Exec Ending} {native : Native} (h : native.Steady) :
    Still (runNative execute native) := by
  induction native with
  | done result args => exact .pure _
  | report d next ih => exact (report_still d).after_still fun _ => ih h
  | write stream text next ih =>
      refine HasEffect.after_still (lift_still (Local.lift fun hg m => ?_) ?_) fun refusal =>
        ih refusal (h refusal)
      · exact hg.writeStream m stream text
      · exact fun m stack => m.writeStream_setStack stack stream text
  | readLine next ih =>
      refine HasEffect.after_still (lift_still (Local.lift fun hg m => hg.readLine m) ?_)
        fun line => ih line (h line)
      exact fun _ _ => rfl
  | push cell next ih => exact h.elim
  | pop next ih => exact h.elim
  | define name cell next ih =>
      exact (define_still name cell).after_still fun defined => ih defined (h defined)
  | execute code next ih => exact h.elim
  | teardown next ih => exact h.elim
  | depths next ih =>
      have hObserve (observed : Machine → Nat) : Still (observe observed) :=
        .of_stack_eq (Keeps.lift (f := fun m => (observed m, m)) Machine.Evolves.refl)
          fun _ h => by cases h; rfl
      exact (hObserve _).after_still fun depth => (hObserve _).after_still fun operands =>
        ih depth operands (h depth operands)

/-- The frame of the caller is back when a user-defined body has ended, in whatever way. -/
theorem runUser_still {execute : Code → Exec Ending} (hExecute : ∀ code, Orderly (execute code))
    (signature : Signature) (code : Code) (args : Args) :
    Still (runUser execute signature code args) := by
  have hOrderly := Machine.Evolves.frameable.compositional.runUser hExecute signature code args
  refine .of_stack_eq hOrderly fun {m m'} _ h => ?_
  rw [runUser_eq] at h
  split at h
  · cases h
    rfl
  · rw [framed_eq, Outcome.machine?_onMachine, Option.map_eq_some_iff] at h
    obtain ⟨m₁, hEnds, rfl⟩ := h
    -- Whatever the callee did to its own operands goes with its frame.
    have hCallee : Orderly (inCallee execute signature code args) :=
      Machine.Evolves.frameable.compositional.inCallee (hExecute code) signature args
    rw [Machine.leave_eq (hCallee.relates hEnds).waiting]
    rfl

theorem runBody_still {execute : Code → Exec Ending} (hExecute : ∀ code, Orderly (execute code))
    {o : Overload} (ho : o.Steady) (args : Args) : Still (runBody execute o args) := by
  unfold runBody
  cases hBody : o.body with
  | native resolve => exact runNative_still (ho resolve hBody args)
  | user code => exact runUser_still hExecute o.signature code args

/-! ### Calls -/

theorem writeBack_still (args : Args) (targets : List (Option String)) (index : Nat) :
    Still (writeBack args targets index) := by
  induction targets generalizing index with
  | nil => exact .pure true
  | cons target rest ih =>
      cases target with
      | none => exact ih (index + 1)
      | some name =>
          rw [writeBack]
          by_cases hRebound : args.isRebound index = true
          · rw [if_pos hRebound]
            cases args.get? index with
            | some cell =>
                exact (define_still name cell).after_still fun _ =>
                  (ih (index + 1)).after_still fun _ => .pure _
            | none => exact ih (index + 1)
          · rw [if_neg hRebound]
            exact ih (index + 1)

theorem makeCall_effect {run : Overload → Args → Exec (Cell × Args)} (pending : PendingCall)
    (hRun : ∀ o ∈ pending.viable, ∀ args, Still (run o args)) :
    HasEffect (· = true) ⟨0, 1⟩ (makeCall run pending) := by
  unfold makeCall
  cases hFinish : pending.finish with
  | error d =>
      have hPush : HasEffect (· = true) ⟨0, 1⟩
          (push (.error d.message) >>= fun _ => Pure.pure false) :=
        (push_effect _).seq fun _ => .pure false
      by_cases hFailed : (!pending.failed) = true
      · simp only [hFailed, if_true]
        exact (report_still d).after_still fun _ => hPush
      · simp only [hFailed]
        exact hPush
  | ok bound =>
      have hViable := (PendingCall.finish_eq_ok hFinish).1
      have hInvoke : Still (invoke run bound.overload bound.args) :=
        still_chained.invokeWithin .exhausted (hRun bound.overload hViable) _ _ _
      refine hInvoke.after_still fun answer => ?_
      obtain ⟨result, args⟩ := answer
      -- Write-backs come after the result and bind variables only, also when one is refused.
      refine (push_effect result).seq (f := .neutral) fun _ => ?_
      exact (writeBack_still args bound.targets 0).after_still fun _ => .pure _

theorem takePending_still : Still takePending := by
  refine .of_stack_eq takePending_orderly fun {m m'} _ h => ?_
  unfold takePending at h
  split at h <;> cases h <;> rfl

/-- The overloads of the call that is taken were held by the machine, so they are steady. -/
theorem call_effect {execute : Code → Exec Ending} (hExecute : ∀ code, Orderly (execute code)) :
    HasEffect (· = true) ⟨0, 1⟩ (call execute) := by
  have hOrderly (pending : PendingCall) : Orderly (makeCall (runBody execute) pending) :=
    Machine.Evolves.frameable.compositional.makeCall pending fun o _ args =>
      Machine.Evolves.frameable.runBody hExecute o args
  refine takePending_still.bind_of (f := ⟨0, 1⟩) hOrderly (fun {m m' pending} hm hTake _ => ?_)
    fun _ h => absurd trivial h
  have hTaken := mem_of_takePending hTake
  exact makeCall_effect pending fun o ho args =>
    runBody_still hExecute (hm o (Or.inr ⟨pending, hTaken, ho⟩)) args

/-! ## Instructions and runs -/

theorem totalEffect?_operatorCode (function : String) (operands : Nat) :
    Op.totalEffect? (((operatorCode function operands).toList.drop 0).map Instruction.op) =
      some ⟨operands, 1⟩ := by
  have hOps : ((operatorCode function operands).toList.drop 0).map Instruction.op =
      .initCall function :: (List.replicate operands (.bind none .automatic) ++ [.call]) := by
    simp [operatorCode]
  have hBinds : Op.totalEffect? (List.replicate operands (.bind none .automatic) ++ [.call]) =
      some ⟨operands, 1⟩ := by
    induction operands with
    | zero => rfl
    | succ operands ih =>
        rw [List.replicate_succ, List.cons_append, Op.totalEffect?, ih (by simp [operatorCode])]
        simp [Op.effect?, StackEffect.andThen]
        omega
  rw [hOps, Op.totalEffect?, hBinds]
  exact congrArg some (StackEffect.neutral_andThen _)

section Steps

variable {execute : Code → Exec Ending} (hOperator : ∀ function operands,
  HasEffect (· = true) ⟨operands, 1⟩ (operator execute function operands))

include hOperator

/-- The two operands change places before the call takes them. -/
theorem binary_effect (op : BinaryOp) : HasEffect (· = true) ⟨2, 1⟩ (binary execute op) := by
  refine pop_effect.seq (f := ⟨1, 1⟩) fun right => pop_effect.seq (f := ⟨0, 1⟩) fun left => ?_
  have hPlain (function : String) (first second : Cell) : HasEffect (· = true) ⟨0, 1⟩
      (push first >>= fun _ => push second >>= fun _ => operator execute function 2) :=
    (push_effect first).seq (f := ⟨1, 1⟩) fun _ => (push_effect second).seq (f := ⟨2, 1⟩) fun _ =>
      hOperator function 2
  cases op with
  | subscript =>
      refine (resolve_still left).after_still fun left => ?_
      exact (resolve_still right).after_still fun right =>
        hPlain (subscriptFunction left) right left
  | _ => exact hPlain _ right left

theorem step_effect (hExecute : ∀ code, Orderly (execute code)) {op : Op} {e : StackEffect}
    (h : op.effect? = some e) :
    HasEffect (· = true) e (step execute op) := by
  cases op with
  | push constant =>
      cases h
      exact (push_effect constant).seq fun _ => .pure true
  | pushRef name =>
      cases h
      exact (push_effect _).seq fun _ => .pure true
  | pushList count =>
      cases h
      exact pushList_effect count
  | output =>
      cases h
      exact output_effect
  | unassign =>
      cases h
      exact unassign_effect
  | unary op =>
      cases h
      exact hOperator op.functionName 1
  | binary op =>
      cases h
      exact binary_effect hOperator op
  | initCall function =>
      cases h
      exact .lift (initCall_orderly function) fun m stack => m.initCall_setStack stack function
  | bind param mode =>
      cases h
      exact bindTop_effect param mode
  | call =>
      cases h
      exact call_effect hExecute
  | help function =>
      cases h
      exact .lift (help_orderly function) fun m stack => m.help_setStack stack function
  | _ => cases h

end Steps

/-- An operator has an effect if the run of its program has one. -/
theorem operator_effect {fuel : Nat} {function : String} {operands : Nat}
    (h : HasEffect (· = .success) ⟨operands, 1⟩
      (runFrom fuel (operatorCode function operands) 0)) :
    HasEffect (· = true) ⟨operands, 1⟩ (operator (execute fuel) function operands) := by
  refine h.settling.bind_of (f := .neutral) (fun _ => ?_) (fun _ _ _ => .pure _)
    fun ending hEnding => ?_
  · exact Machine.Evolves.frameable.of_local (Local.pure _)
  · exact ⟨_, rfl, by simpa using hEnding⟩

/-- An instruction that has an effect is performed, and the run goes on behind it if it
succeeded. -/
theorem runFrom_succ_of_effect {code : Code} {index : Nat} {instruction : Instruction}
    {e : StackEffect} (hAt : code[index]? = some instruction)
    (hEffect : instruction.op.effect? = some e) (fuel : Nat) :
    runFrom (fuel + 1) code index = step (execute fuel) instruction.op >>= fun succeeded =>
      if succeeded then runFrom fuel code (index + 1) else return .failure instruction.line := by
  rw [runFrom, hAt]
  obtain ⟨op, line⟩ := instruction
  cases op with
  | quit => cases hEffect
  | jump target => cases hEffect
  | jumpIf target => cases hEffect
  | _ => rfl

/-- A run over instructions that all have an effect has their total effect if it succeeds.  The
induction is on the step allowance: the program behind an operator is run with less of it. -/
theorem runFrom_effect (fuel : Nat) {code : Code} {index : Nat} {e : StackEffect}
    (h : Op.totalEffect? ((code.toList.drop index).map Instruction.op) = some e) :
    HasEffect (· = .success) e (runFrom fuel code index) := by
  induction fuel generalizing code index e with
  | zero => exact .exhausted
  | succ fuel ih =>
      cases hAt : code[index]? with
      | none =>
          have hEnd : code.toList.drop index = [] := by
            rw [List.drop_eq_nil_iff]
            simpa using hAt
          rw [hEnd] at h
          cases h
          rw [runFrom, hAt]
          exact .pure _
      | some instruction =>
          obtain ⟨hIndex, hHere⟩ := Array.getElem?_eq_some_iff.1 hAt
          have hDrop : code.toList.drop index = instruction :: code.toList.drop (index + 1) := by
            rw [← hHere]
            exact List.drop_eq_getElem_cons hIndex
          rw [hDrop, List.map_cons, Op.totalEffect?] at h
          obtain ⟨first, hFirst, h⟩ := Option.bind_eq_some_iff.1 h
          obtain ⟨rest, hRest, h⟩ := Option.bind_eq_some_iff.1 h
          cases h
          have hStep := step_effect (fun function operands =>
            operator_effect (ih (totalEffect?_operatorCode function operands)))
            (execute_orderly fuel) hFirst
          rw [runFrom_succ_of_effect hAt hFirst]
          -- A run stops at the first instruction that does not succeed, and then is no success.
          refine hStep.bind_of (fun succeeded => ?_) (fun {_ _ succeeded} _ _ hTrue => ?_)
            fun succeeded hFalse => ?_
          · split
            · exact orderly_running.runFrom fuel code (index + 1)
            · exact orderly_running.pure _
          · rw [if_pos hTrue]
            exact ih hRest
          · exact ⟨_, if_neg hFalse, by simp⟩

end Exec

/-- The effect of every instruction that has one is static.  In a machine with the core library and
any user-defined functions, an instruction that succeeds replaces the operands it takes by exactly
as many as it leaves; one that fails or ends with a fault leaves the operands below those it takes
where they are, in their order. -/
theorem step_stackEffect {m : Machine} (hScripted : m.Scripted) {op : Op}
    {consumed produced : Nat} (hOp : op.effect? = some ⟨consumed, produced⟩) (fuel : Nat) :
    (∀ m', Exec.step (Exec.execute fuel) op m = .ok true m' →
      consumed ≤ m.stack.length ∧ ∃ results : List Cell, results.length = produced ∧
        m'.stack = results ++ m.stack.drop consumed) ∧
    ∀ m', (Exec.step (Exec.execute fuel) op m = .ok false m' ∨
        ∃ cause, Exec.step (Exec.execute fuel) op m = .fault cause m') →
      m.stack.drop consumed <:+ m'.stack := by
  have hOperator (function : String) (operands : Nat) := Exec.operator_effect
    (Exec.runFrom_effect fuel (Exec.totalEffect?_operatorCode function operands))
  have hStep := Exec.step_effect hOperator (Exec.execute_orderly fuel) hOp
  refine ⟨fun m' h => hStep.turns hScripted.steady h rfl, fun m' h => ?_⟩
  have hEnds : (Exec.step (Exec.execute fuel) op m).machine? = some m' := by
    rcases h with h | ⟨cause, h⟩ <;> rw [h] <;> rfl
  exact hStep.spares hScripted.steady hEnds

/-! ### An operator that runs a user-defined function -/

/-- A function under the name of an operator.  Its body leaves an operand behind below its
result. -/
def joining : Overload where
  signature := ⟨"Plus", [.byValue "x" .text, .byValue "y" .text], .text, .plain⟩
  body := .user #[⟨.push (.integer 1), 1⟩, ⟨.pushRef "x", 2⟩, ⟨.pushRef "y", 3⟩,
    ⟨.binary .concat, 4⟩]

def joiningMachine : Machine :=
  (coreMachine.addFunction joining).2.setStack [.text "b", .text "a", .integer 9]

theorem joiningMachine_scripted : joiningMachine.Scripted := by
  intro o ho
  rcases Machine.addFunction_holds (m := coreMachine) ho with rfl | hCore
  · exact Or.inr ⟨_, rfl⟩
  · rcases Machine.withCore_holds hCore with hCore | ⟨name, overloads, hGet, -⟩ | ⟨c, hc, -⟩
    · exact Or.inl hCore
    · cases hGet
    · cases hc

theorem step_stackEffect_joining :
    joiningMachine.Scripted ∧ (Op.binary .plus).effect? = some ⟨2, 1⟩ ∧
      ∃ m' result, Exec.step (Exec.execute 20) (.binary .plus) joiningMachine = .ok true m' ∧
        m'.stack = [result, .integer 9] := by
  have hMade : (Exec.step (Exec.execute 20) (.binary .plus) joiningMachine).made = true := by
    decide +kernel
  obtain ⟨m', hStep⟩ := Outcome.exists_of_made hMade
  have hEffect : (Op.binary .plus).effect? = some ⟨2, 1⟩ := rfl
  obtain ⟨-, results, hLength, hStack⟩ :=
    (step_stackEffect joiningMachine_scripted hEffect 20).1 m' hStep
  obtain ⟨result, rfl⟩ := List.length_eq_one_iff.1 hLength
  exact ⟨joiningMachine_scripted, hEffect, m', result, hStep, hStack⟩

end CellMachine
