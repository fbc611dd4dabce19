import CellMachine.Proofs.CopyInOut
import CellMachine.Proofs.DataInvariant
import CellMachine.Proofs.OperatorCalls
import CellMachine.Proofs.Registration
import CellMachine.Proofs.Signature.Words

/-!
# Line numbers survive encoding

An instruction of a function body has one line, into which the line of the function and that of its
entry in the program file are combined; the message for a body that fails takes them apart again.
Main statement: a file is refused for a line exactly when one is too large to be combined, and a
failure in the body of an installed function is reported with the two lines that the file gives to
the instruction at which the body halts.

Where a body halts is stated by going through its instructions (`Exec.Reaches`).  An instruction may
run programs of its own, behind an operator or in a call, and fail because these do.  Their lines do
NOT show: an operator's program has line zero throughout, and a callee's line is spent on a message
of its own.  Lines in the main program are NOT combined and have no bound.
-/

namespace CellMachine

/-! ## What a program file says -/

/-- The line of an entry at a position counted from zero, in a body of fewer than `2 ^ 32` entries. -/
def Entry.lineAt (entry : Entry) (position : Nat) : Nat := entry.line.getD (position + 1)

/-- What an entry says to do is this instruction. -/
inductive EntryOp.Means : EntryOp → Op → Prop
  | plain (op : Op) : Means (.plain op) op
  | push {constant : Constant} {cell : Cell} (h : constant.toCell = .ok cell) :
      Means (.push constant) (.push cell)

/-- A constant that the entry pushes has a cell. -/
def Entry.Converts (entry : Entry) : Prop := ∃ op, entry.op.Means op

/-- All constants of the file have cells. -/
structure ProgramFile.Converts (file : ProgramFile) : Prop where
  body : ∀ f ∈ file.functions, ∀ entry ∈ f.body, entry.Converts
  main : ∀ entry ∈ file.main, entry.Converts

/-- The line of the function, or that of an entry of its body, is too large to be combined. -/
def FunctionFile.OutOfRange (f : FunctionFile) : Prop :=
  65536 ≤ f.line ∨
    ∃ (index : Nat) (entry : Entry), f.body[index]? = some entry ∧ 65536 ≤ entry.lineAt index

/-- The definition has the instructions of the function as written, each with the line of the
function and its own line, combined into a word. -/
structure FunctionFile.Carries (f : FunctionFile) (d : FunctionDef) : Prop where
  signature : d.signature = f.signature
  size : d.body.size = f.body.length
  instruction : ∀ (index : Nat) (entry : Entry), f.body[index]? = some entry →
    ∃ op, entry.op.Means op ∧
      d.body[index]? = some ⟨op, f.line * 65536 + entry.lineAt index⟩ ∧
      f.line < 65536 ∧ entry.lineAt index < 65536 ∧
      f.line * 65536 + entry.lineAt index < 2 ^ 32

/-! ## Conversion -/

theorem Entry.compile_of_means {entry : Entry} {op : Op} (h : entry.op.Means op)
    (position : Nat) : entry.compile position = .ok ⟨op, entry.lineAt position⟩ := by
  obtain ⟨line, written⟩ := entry
  cases h with
  | plain => rfl
  | push hCell =>
      unfold compile
      dsimp only
      rw [hCell]
      rfl

/-- The instructions are those that the entries say, in the same places; the first entry has the
given position. -/
structure Entry.Compiled (entries : List Entry) (position : Nat) (body : List Instruction) :
    Prop where
  length : body.length = entries.length
  instruction : ∀ (index : Nat) (entry : Entry), entries[index]? = some entry →
    ∃ op, entry.op.Means op ∧ body[index]? = some ⟨op, entry.lineAt (position + index)⟩

/-- Entries whose constants have cells are converted. -/
theorem Entry.exists_compileAll {entries : List Entry} (h : ∀ entry ∈ entries, entry.Converts)
    (position : Nat) :
    ∃ body, compileAll entries position = .ok body ∧ Compiled entries position body := by
  induction entries generalizing position with
  | nil => exact ⟨[], rfl, rfl, fun index entry hAt => by simp at hAt⟩
  | cons first rest ih =>
      obtain ⟨⟨op, hMeans⟩, hRest⟩ := List.forall_mem_cons.1 h
      obtain ⟨body, hBody, hCompiled⟩ := ih hRest (position + 1)
      refine ⟨⟨op, first.lineAt position⟩ :: body, ?_, by simp [hCompiled.length], ?_⟩
      · rw [compileAll, compile_of_means hMeans, hBody]
        rfl
      · intro index entry hAt
        cases index with
        | zero =>
            obtain rfl : first = entry := by simpa using hAt
            exact ⟨op, hMeans, rfl⟩
        | succ index =>
            obtain ⟨op, hOp, hInstruction⟩ := hCompiled.instruction index entry (by simpa using hAt)
            refine ⟨op, hOp, ?_⟩
            rw [List.getElem?_cons_succ, hInstruction, Nat.add_assoc, Nat.add_comm 1 index]

/-- Every instruction comes from an entry. -/
theorem Entry.Compiled.exists_entry {entries : List Entry} {position : Nat}
    {body : List Instruction} (h : Compiled entries position body) {i : Instruction}
    (hi : i ∈ body) :
    ∃ (index : Nat) (entry : Entry), entries[index]? = some entry ∧
      i.line = entry.lineAt (position + index) := by
  obtain ⟨index, hIndex, hAt⟩ := List.getElem_of_mem hi
  have hLength := h.length
  have hEntry : entries[index]? = some entries[index] := List.getElem?_eq_getElem (by omega)
  obtain ⟨op, -, hInstruction⟩ := h.instruction index _ hEntry
  rw [List.getElem?_eq_getElem hIndex, hAt, Option.some.injEq] at hInstruction
  exact ⟨index, _, hEntry, congrArg Instruction.line hInstruction⟩

theorem combinedLine_div {F B : Nat} (h : B < lineScale) : combinedLine F B / lineScale = F := by
  unfold combinedLine lineScale at *
  omega

theorem combinedLine_mod {F B : Nat} (h : B < lineScale) : combinedLine F B % lineScale = B := by
  unfold combinedLine lineScale at *
  omega

theorem combinedLine_lt {F B : Nat} (hF : F < lineScale) (hB : B < lineScale) :
    combinedLine F B < 2 ^ 32 := by
  unfold combinedLine lineScale at *
  omega

/-- Lines that are in range are combined without loss. -/
theorem Entry.Compiled.carries {f : FunctionFile} {body : List Instruction}
    (h : Compiled f.body 0 body) (hLine : f.line < lineScale)
    (hSmall : ∀ i ∈ body, i.line < lineScale) :
    f.Carries ⟨f.signature,
      (body.map fun i => Instruction.mk i.op (combinedLine f.line i.line)).toArray⟩ where
  signature := rfl
  size := by simp [h.length]
  instruction index entry hAt := by
    obtain ⟨op, hMeans, hInstruction⟩ := h.instruction index entry hAt
    rw [Nat.zero_add] at hInstruction
    have hEntry : entry.lineAt index < lineScale := hSmall _ (List.mem_of_getElem? hInstruction)
    refine ⟨op, hMeans, ?_, hLine, hEntry, combinedLine_lt hLine hEntry⟩
    simp [hInstruction, combinedLine, lineScale]

/-- A function is converted, or one of its lines is out of range. -/
theorem FunctionFile.compile_cases {f : FunctionFile}
    (h : ∀ entry ∈ f.body, entry.Converts) :
    (f.OutOfRange ∧ ∃ line, f.compile = .error (.lineOutOfRange f.signature line)) ∨
      ¬ f.OutOfRange ∧ ∃ d, f.compile = .ok d ∧ f.Carries d := by
  obtain ⟨body, hBody, hCompiled⟩ := Entry.exists_compileAll h 0
  by_cases hLine : lineScale ≤ f.line
  · refine Or.inl ⟨Or.inl hLine, f.line, ?_⟩
    rw [compile, if_pos hLine]
  · cases hFind : body.find? fun i => decide (lineScale ≤ i.line) with
    | some i =>
        have hLarge : lineScale ≤ i.line := by simpa using List.find?_some hFind
        obtain ⟨index, entry, hEntry, hSame⟩ :=
          hCompiled.exists_entry (List.mem_of_find?_eq_some hFind)
        rw [hSame, Nat.zero_add] at hLarge
        refine Or.inl ⟨Or.inr ⟨index, entry, hEntry, hLarge⟩, i.line, ?_⟩
        simp only [compile, hLine, if_false, hBody, bind, Except.bind, hFind]
    | none =>
        have hSmall : ∀ i ∈ body, i.line < lineScale := by simpa using hFind
        have hCarries := hCompiled.carries (Nat.lt_of_not_le hLine) hSmall
        refine Or.inr ⟨?_, _, ?_, hCarries⟩
        · rintro (hFunction | ⟨index, entry, hAt, hEntry⟩)
          · exact hLine hFunction
          · obtain ⟨op, -, -, -, hBelow, -⟩ := hCarries.instruction index entry hAt
            omega
        · simp only [compile, hLine, if_false, hBody, bind, Except.bind, hFind]
          rfl

/-- A file is converted, or one of its functions has a line that is out of range. -/
theorem Program.ofFile_cases {file : ProgramFile} (h : file.Converts) :
    ((∃ f ∈ file.functions, f.OutOfRange) ∧
        ∃ description line, ofFile file = .error (.lineOutOfRange description line)) ∨
      (¬ ∃ f ∈ file.functions, f.OutOfRange) ∧
        ∃ program, ofFile file = .ok program ∧
          List.Forall₂ FunctionFile.Carries file.functions program.functions := by
  cases hFunctions : file.functions.mapM FunctionFile.compile with
  | error e =>
      obtain ⟨f, hMem, hError⟩ := exists_of_mapM_error hFunctions
      rcases FunctionFile.compile_cases (h.body f hMem) with ⟨hOut, line, hLine⟩ | ⟨-, d, hOk, -⟩
      · refine Or.inl ⟨⟨f, hMem, hOut⟩, f.signature, line, ?_⟩
        obtain rfl : e = .lineOutOfRange f.signature line :=
          Except.error.inj (hError.symm.trans hLine)
        rw [ofFile, hFunctions]
        rfl
      · rw [hOk] at hError
        cases hError
  | ok functions =>
      obtain ⟨main, hMain, -⟩ := Entry.exists_compileAll h.main 0
      have hCarries : List.Forall₂ (fun f d => ¬ f.OutOfRange ∧ FunctionFile.Carries f d)
          file.functions functions := by
        refine ((List.forall₂_and_left _ _).2 ⟨h.body, mapM_eq_ok_iff.1 hFunctions⟩).imp ?_
        rintro f d ⟨hConverts, hOk⟩
        rcases FunctionFile.compile_cases hConverts with
          ⟨-, line, hLine⟩ | ⟨hIn, d', hOk', hCarries⟩
        · rw [hLine] at hOk
          cases hOk
        · obtain rfl : d = d' := Except.ok.inj (hOk.symm.trans hOk')
          exact ⟨hIn, hCarries⟩
      obtain ⟨hIn, hCarries⟩ := (List.forall₂_and_left _ _).1 hCarries
      refine Or.inr ⟨?_, ⟨functions, main.toArray⟩, ?_, hCarries⟩
      · rintro ⟨f, hMem, hOut⟩
        exact hIn f hMem hOut
      · rw [ofFile, hFunctions, hMain]
        rfl

/-! ## Runs that halt with a failure -/

namespace Exec

section Runs

variable {execute execute' : Code → Exec Ending} {code : Code} {index : Nat} {m m' : Machine}

theorem advance_below (h : ∀ code, Below (execute code) (execute' code)) (code : Code)
    (index : Nat) : Below (advance execute code index) (advance execute' code index) := by
  unfold advance
  split
  · exact Below.refl _
  · split
    · exact Below.refl _
    · exact Below.refl _
    · exact Below.refl _
    · exact (step_below h _).bind fun _ => Below.refl _

theorem advance_of_step_false {op : Op} {line : Nat} (hAt : code[index]? = some ⟨op, line⟩)
    (hStep : step execute op m = .ok false m') :
    advance execute code index m = .ok (.inr (.failure line)) m' := by
  unfold advance
  rw [hAt]
  cases op with
  | quit => cases hStep
  | jump target => cases hStep
  | jumpIf target => cases hStep
  | _ => exact bind_of_ok hStep

/-- Only an instruction that does not succeed ends a run with a failure. -/
theorem step_false_of_advance {line : Nat}
    (h : advance execute code index m = .ok (.inr (.failure line)) m') :
    ∃ op, code[index]? = some ⟨op, line⟩ ∧ step execute op m = .ok false m' := by
  unfold advance at h
  cases hAt : code[index]? with
  | none => rw [hAt] at h; cases h
  | some instruction =>
      obtain ⟨op, written⟩ := instruction
      rw [hAt] at h
      cases op with
      -- A jump goes on or ends with a fault; it has no way to fail.
      | quit => cases h
      | jump target =>
          obtain ⟨next, m₁, -, h⟩ := bind_eq_ok h
          cases h
      | jumpIf target =>
          obtain ⟨condition, m₁, -, h⟩ := bind_eq_ok h
          obtain ⟨value, m₂, -, h⟩ := bind_eq_ok h
          cases value with
          | boolean b =>
              cases b with
              | true =>
                  obtain ⟨next, m₃, -, h⟩ := bind_eq_ok h
                  cases h
              | false => cases h
          | _ =>
              obtain ⟨_, m₃, -, h⟩ := bind_eq_ok h
              cases h
      | _ =>
          obtain ⟨succeeded, m₁, hStep, h⟩ := bind_eq_ok h
          cases succeeded with
          | true => cases h
          | false =>
              cases h
              exact ⟨_, rfl, hStep⟩

end Runs

/-- A run that starts with the first instruction comes to an index in some state. -/
inductive Reaches (code : Code) (start : Machine) : Nat → Machine → Prop
  | first : Reaches code start 0 start
  | next {index next fuel : Nat} {m m' : Machine} (h : Reaches code start index m)
      (hNext : advance (execute fuel) code index m = .ok (.inl next) m') :
      Reaches code start next m'

/-- A run halts with a failure at an index: it comes there, and the instruction does not succeed.
The instruction may fail by itself, in the program behind an operator, or in a call that it
makes. -/
def HaltsAt (code : Code) (start : Machine) (index : Nat) : Prop :=
  ∃ op line fuel m m', Reaches code start index m ∧ code[index]? = some ⟨op, line⟩ ∧
    step (execute fuel) op m = .ok false m'

variable {code : Code} {start : Machine}

/-- How a run ends is settled by how it ends from any point that it comes to. -/
theorem Reaches.endsFrom {index : Nat} {m : Machine} (h : Reaches code start index m)
    {o : Outcome Ending} (hEnds : EndsFrom code index m o) : EndsFrom code 0 start o := by
  induction h with
  | first => exact hEnds
  | @next index next fuel m m' _ hNext ih =>
      obtain ⟨hDone, rest, hRest⟩ := hEnds
      -- The step and the rest of the run have allowances of their own; the larger serves both.
      have hStep : advance (execute (max fuel rest)) code index m = .ok (.inl next) m' := by
        rw [← hNext]
        refine advance_below (execute_below (Nat.le_max_left fuel rest)) code index m ?_
        simp [hNext]
      have hLater : runFrom (max fuel rest) code next m' = o := by
        rw [← hRest]
        refine runFrom_below (Nat.le_max_right fuel rest) code next m' ?_
        exact fun hOut => hDone (hRest.symm.trans hOut)
      refine ih ⟨hDone, max fuel rest + 1, ?_⟩
      change runFrom (max fuel rest + 1) code index m = o
      rw [runFrom_succ_eq, bind_of_ok hStep]
      exact hLater

/-- A program that halts with a failure ends with the line of the instruction where it does. -/
theorem HaltsAt.ends {index : Nat} (h : HaltsAt code start index) :
    ∃ op line finished, code[index]? = some ⟨op, line⟩ ∧
      Ends code start (.ok (.failure line) finished) := by
  obtain ⟨op, line, fuel, m, m', hReaches, hAt, hStep⟩ := h
  have hRest : EndsFrom code index m (.ok (.failure line) m') := by
    refine ⟨by simp, fuel + 1, ?_⟩
    change runFrom (fuel + 1) code index m = _
    rw [runFrom_succ_eq, bind_of_ok (advance_of_step_false hAt hStep)]
    rfl
  exact ⟨op, line, _, hAt, (ends_iff code start _).2 ⟨_, hReaches.endsFrom hRest, rfl⟩⟩

/-- The induction is on the step allowance, over the rest of the run. -/
theorem Reaches.haltsAt {fuel index line : Nat} {m m' : Machine} (h : Reaches code start index m)
    (hFailure : runFrom fuel code index m = .ok (.failure line) m') :
    ∃ last op, code[last]? = some ⟨op, line⟩ ∧ HaltsAt code start last := by
  induction fuel generalizing index m with
  | zero => cases hFailure
  | succ fuel ih =>
      rw [runFrom_succ_eq] at hFailure
      obtain ⟨target, m₁, hAdvance, hRest⟩ := bind_eq_ok hFailure
      cases target with
      | inl next => exact ih (h.next hAdvance) hRest
      | inr ending =>
          cases hRest
          obtain ⟨op, hAt, hStep⟩ := step_false_of_advance hAdvance
          exact ⟨index, op, hAt, op, line, fuel, m, m', h, hAt, hStep⟩

/-- A program that ends with a failure has halted at an instruction with that line. -/
theorem exists_haltsAt {fuel line : Nat} {finished : Machine}
    (h : execute fuel code start = .ok (.failure line) finished) :
    ∃ index op, code[index]? = some ⟨op, line⟩ ∧ HaltsAt code start index := by
  rw [execute, settling_eq] at h
  cases hRun : runFrom fuel code 0 start with
  | ok ending m' =>
      rw [hRun] at h
      cases h
      exact Reaches.first.haltsAt hRun
  | fault cause m' => rw [hRun] at h; cases h
  | exhausted => rw [hRun] at h; cases h

end Exec

/-! ## What is reported -/

/-- The message for a failure in a line of the body of a function. -/
def failureMessage (functionLine bodyLine : Nat) : String :=
  "Error at line " ++ Integer.renderNat functionLine ++ " in function, line " ++
    Integer.renderNat bodyLine ++ " in source code"

theorem blank_not_mem_toDigits (n : Nat) : ' ' ∉ Nat.toDigits 10 n := by
  intro hMem
  exact absurd (Nat.isDigit_of_mem_toDigits (by decide) (by decide) hMem) (by decide)

/-- A number is read off a text by cutting it at the first blank. -/
theorem toDigits_blank_inj {n n' : Nat} {rest rest' : List Char}
    (h : Nat.toDigits 10 n ++ ' ' :: rest = Nat.toDigits 10 n' ++ ' ' :: rest') :
    n = n' ∧ rest = rest' := by
  have hCut := congrArg (Literal.cut? ' ') h
  rw [Literal.cut?_append (blank_not_mem_toDigits n),
    Literal.cut?_append (blank_not_mem_toDigits n')] at hCut
  obtain ⟨hDigits, hRest⟩ := Prod.mk.inj (Option.some.inj hCut)
  have hRead := congrArg Integer.natural? hDigits
  rw [Integer.natural?_toDigits, Integer.natural?_toDigits] at hRead
  exact ⟨Option.some.inj hRead, hRest⟩

theorem failureMessage_toList (F B : Nat) :
    (failureMessage F B).toList = "Error at line ".toList ++ (Nat.toDigits 10 F ++
      (" in function, line ".toList ++ (Nat.toDigits 10 B ++ " in source code".toList))) := by
  unfold failureMessage
  simp only [Integer.renderNat, String.toList_append, String.toList_ofList, List.append_assoc]

/-- Different lines have different messages. -/
theorem failureMessage_inj {F B F' B' : Nat} (h : failureMessage F B = failureMessage F' B') :
    F = F' ∧ B = B' := by
  have hText := congrArg String.toList h
  rw [failureMessage_toList, failureMessage_toList] at hText
  obtain ⟨hFunction, hRest⟩ := toDigits_blank_inj (List.append_cancel_left hText)
  obtain ⟨hBody, -⟩ := toDigits_blank_inj (List.append_cancel_left hRest)
  exact ⟨hFunction, hBody⟩

namespace Exec

/-- Copying out never fails, whatever the arguments. -/
theorem exists_copyOut (params : List Param) (index : Nat) (args : Args) (m : Machine) :
    ∃ args' m', copyOut params index args m = .ok args' m' := by
  induction params generalizing index args m with
  | nil => exact ⟨args, m, rfl⟩
  | cons p rest ih =>
      rw [copyOut]
      cases p.byRef with
      | false => exact ih (index + 1) args m
      | true =>
          cases hRemove : m.scope.remove p.name with
          | ok removed =>
              obtain ⟨cell, scope⟩ := removed
              rw [if_pos rfl, @bind_of_ok _ _ _ _ m (m.setScope scope) (some cell)
                (by simp only [lift, hRemove])]
              exact ih (index + 1) (args.set index cell) (m.setScope scope)
          | error e =>
              rw [if_pos rfl, @bind_of_ok _ _ _ _ m m none (by simp only [lift, hRemove])]
              exact ih (index + 1) args m

/-- A body that ends with a failure becomes an error with the message for its line. -/
theorem runUser_of_failure {signature : Signature} {code : Code} {args : Args} {m start : Machine}
    (hDepth : m.callDepth < m.maxCallDepth)
    (hStart : defineParams (signature.params.zip args.cells) m.enter = .ok () start)
    {fuel line : Nat} {finished : Machine}
    (hEnds : execute fuel code start = .ok (.failure line) finished) :
    ∃ args' after, runUser (execute fuel) signature code args m =
      .ok (.error (failureMessage (line / lineScale) (line % lineScale)), args') after := by
  have hResult : bodyResult (.failure line) finished =
      .ok (.error (failureMessage (line / lineScale) (line % lineScale))) finished := rfl
  obtain ⟨args', after, hCopied⟩ := exists_copyOut signature.params 0 args finished
  refine ⟨args', after.leave, ?_⟩
  rw [runUser_eq, if_neg (Nat.not_le.2 hDepth), framed_eq]
  unfold inCallee
  rw [bind_of_ok hStart, bind_of_ok hEnds, bind_of_ok hResult, bind_of_ok hCopied]
  rfl

end Exec

/-- Failures of a body are located in the function as written.  Where the body halts with a failure,
the result is an error that names the line of the function and the line of the entry there; and
whenever the body ends with a failure, it has halted so. -/
structure FunctionFile.Locates (f : FunctionFile) (signature : Signature) (code : Code) :
    Prop where
  named : ∀ (args : Args) (m start : Machine) (index : Nat) (entry : Entry),
    m.callDepth < m.maxCallDepth →
    Exec.defineParams (signature.params.zip args.cells) m.enter = .ok () start →
    f.body[index]? = some entry → Exec.HaltsAt code start index →
    ∃ bound args' after, ∀ fuel ≥ bound,
      Exec.runBody (Exec.execute fuel) ⟨signature, .user code⟩ args m =
        .ok (.error (failureMessage f.line (entry.lineAt index)), args') after
  halted : ∀ (start finished : Machine) (fuel line : Nat),
    Exec.execute fuel code start = .ok (.failure line) finished →
    ∃ (index : Nat) (entry : Entry), f.body[index]? = some entry ∧
      line = f.line * 65536 + entry.lineAt index ∧ Exec.HaltsAt code start index

theorem FunctionFile.Carries.locates {f : FunctionFile} {d : FunctionDef} (h : f.Carries d)
    (signature : Signature) : f.Locates signature d.body where
  named args m start index entry hDepth hStart hEntry hHalts := by
    obtain ⟨op, -, hAt, -, hBody, -⟩ := h.instruction index entry hEntry
    obtain ⟨op', line, finished, hAt', -, bound, hEnds⟩ := hHalts.ends
    -- Whatever the instruction ran, the run ends with the line of the instruction itself.
    obtain ⟨-, rfl⟩ : op = op' ∧ combinedLine f.line (entry.lineAt index) = line := by
      simpa [hAt, combinedLine, lineScale] using hAt'
    obtain ⟨args', after, hRun⟩ := Exec.runUser_of_failure hDepth hStart hEnds
    rw [combinedLine_div hBody, combinedLine_mod hBody] at hRun
    refine ⟨bound, args', after, fun fuel hFuel => ?_⟩
    rw [← hRun]
    exact Exec.runUser_below (Exec.execute_below hFuel) signature d.body args m (by simp [hRun])
  halted start finished fuel line hEnds := by
    obtain ⟨index, op, hAt, hHalts⟩ := Exec.exists_haltsAt hEnds
    have hIndex : index < f.body.length := by
      rw [← h.size]
      exact (Array.getElem?_eq_some_iff.1 hAt).1
    have hEntry : f.body[index]? = some f.body[index] := List.getElem?_eq_getElem hIndex
    obtain ⟨op', -, hAt', -⟩ := h.instruction index _ hEntry
    have hLine : line = f.line * 65536 + f.body[index].lineAt index := by
      rw [hAt] at hAt'
      injection hAt' with hInstruction
      injection hInstruction
    exact ⟨index, _, hEntry, hLine, hHalts⟩

/-! ## Installed functions -/

theorem Machine.defineFunction_eq_true {m m' : Machine} {description : String} {flags : Flags}
    {code : Code} (h : m.defineFunction description flags code = (.ok true, m')) :
    ∃ signature, Signature.parse description = .ok signature ∧
      ⟨{ signature with flags := flags }, .user code⟩ ∈ m'.registry.overloads signature.name := by
  unfold defineFunction at h
  cases hParse : Signature.parse description with
  | error e => rw [hParse] at h; cases h
  | ok signature =>
      rw [hParse] at h
      have hAdded : m.addFunction ⟨{ signature with flags := flags }, .user code⟩ = (true, m') := by
        injection h with hAnswer hMachine
        exact Prod.ext (Except.ok.inj hAnswer) hMachine
      refine ⟨signature, rfl, ?_⟩
      rcases m.addFunction_cases ⟨{ signature with flags := flags }, .user code⟩ with
        ⟨-, -, hGrown⟩ | ⟨hFalse, -⟩
      · rw [hAdded] at hGrown
        rw [hGrown signature.name]
        simp
      · rw [hAdded] at hFalse
        cases hFalse

namespace Program

/-- Installing functions only appends overloads. -/
theorem overloads_prefix_installFunctions {functions : List FunctionDef} {m installed : Machine}
    {e : Option ProgramError} (h : installFunctions functions m = (e, installed)) (name : String) :
    m.registry.overloads name <+: installed.registry.overloads name := by
  induction functions generalizing m with
  | nil =>
      cases h
      exact List.prefix_refl _
  | cons d rest ih =>
      have hDefined := m.overloads_prefix_registering [.user d.signature .plain d.body] name
      change _ <+: (m.defineFunction d.signature .plain d.body).2.registry.overloads name
        at hDefined
      rw [installFunctions] at h
      generalize m.defineFunction d.signature .plain d.body = answer at h hDefined
      obtain ⟨_ | _ | _, m'⟩ := answer
      · cases h
        exact hDefined
      · cases h
        exact hDefined
      · exact hDefined.trans (ih h)

/-- Every function of a program that is installed is registered. -/
theorem installed_overload {functions : List FunctionDef} {m installed : Machine}
    (h : installFunctions functions m = (none, installed)) {d : FunctionDef} (hd : d ∈ functions) :
    ∃ signature, Signature.parse d.signature = .ok signature ∧
      ⟨{ signature with flags := .plain }, .user d.body⟩ ∈
        installed.registry.overloads signature.name := by
  induction functions generalizing m with
  | nil => cases hd
  | cons first rest ih =>
      rw [installFunctions] at h
      cases hDefine : m.defineFunction first.signature .plain first.body with
      | mk answer m' =>
          rw [hDefine] at h
          obtain _ | _ | _ := answer
          · cases h
          · cases h
          · rcases List.mem_cons.1 hd with rfl | hRest
            · obtain ⟨signature, hParse, hMem⟩ := Machine.defineFunction_eq_true hDefine
              exact ⟨signature, hParse, (overloads_prefix_installFunctions h _).mem hMem⟩
            · exact ih h hRest

/-- The functions of a program that is installed locate their failures where they were written. -/
theorem installed_locates {files : List FunctionFile} {program : Program}
    (hCarries : List.Forall₂ FunctionFile.Carries files program.functions) {m installed : Machine}
    (h : program.install m = (none, installed)) :
    List.Forall₂ (fun f d => ∃ signature, Signature.parse f.signature = .ok signature ∧
      ⟨{ signature with flags := .plain }, .user d.body⟩ ∈
        installed.registry.overloads signature.name ∧
      f.Locates { signature with flags := .plain } d.body) files program.functions := by
  refine List.forall₂_iff_zip.2 ⟨hCarries.length_eq, fun {f d} hPair => ?_⟩
  have hfd : f.Carries d := (List.forall₂_iff_zip.1 hCarries).2 hPair
  obtain ⟨signature, hParse, hMem⟩ := installed_overload h (List.of_mem_zip hPair).2
  rw [hfd.signature] at hParse
  exact ⟨signature, hParse, hMem, hfd.locates _⟩

end Program

/-- Line numbers survive encoding.  A file whose constants have cells is refused for a line exactly
when a function or an entry of a function body has a line of 65536 or more, and is converted
otherwise.  Each instruction of a function body then carries the line of its function and its own,
combined into a word, and a body of an installed function that halts with a failure at an
instruction, by itself or in what it runs, results in an error whose message names these two lines
and no others. -/
theorem line_numbers_survive {file : ProgramFile} (hConverts : file.Converts) :
    (∀ text, ProgramFile.parse? text = some file → Program.parse text = Program.ofFile file) ∧
      ((∃ description line, Program.ofFile file = .error (.lineOutOfRange description line)) ↔
        ∃ f ∈ file.functions, f.OutOfRange) ∧
      ((∃ program, Program.ofFile file = .ok program) ↔ ¬ ∃ f ∈ file.functions, f.OutOfRange) ∧
      (∀ F B F' B', failureMessage F B = failureMessage F' B' → F = F' ∧ B = B') ∧
      ∀ program, Program.ofFile file = .ok program →
        List.Forall₂ FunctionFile.Carries file.functions program.functions ∧
        ∀ before installed, program.install before = (none, installed) →
          List.Forall₂ (fun f d => ∃ signature, Signature.parse f.signature = .ok signature ∧
            ⟨{ signature with flags := .plain }, .user d.body⟩ ∈
              installed.registry.overloads signature.name ∧
            f.Locates { signature with flags := .plain } d.body)
            file.functions program.functions := by
  refine ⟨fun text hText => by rw [Program.parse, hText], ?_⟩
  rcases Program.ofFile_cases hConverts with
    ⟨hOut, description, line, hError⟩ | ⟨hIn, program, hOk, hCarries⟩
  · rw [hError]
    refine ⟨⟨fun _ => hOut, fun _ => ⟨_, _, rfl⟩⟩, ⟨?_, fun hNone => absurd hOut hNone⟩,
      fun _ _ _ _ => failureMessage_inj, ?_⟩
    · rintro ⟨program, h⟩
      cases h
    · intro program h
      cases h
  · rw [hOk]
    refine ⟨⟨?_, fun hSome => absurd hSome hIn⟩, ⟨fun _ => hIn, fun _ => ⟨_, rfl⟩⟩,
      fun _ _ _ _ => failureMessage_inj, ?_⟩
    · rintro ⟨description, line, h⟩
      cases h
    · intro program' h
      cases h
      exact ⟨hCarries, fun before installed => Program.installed_locates hCarries⟩

/-! ### A division by zero -/

/-- A function that divides by zero, in a line that it says; the lines before it are not said. -/
def dividingFunction : FunctionFile where
  signature := "F[] =: NUMBER"
  line := 65535
  body := [⟨none, .push (.integer 1)⟩, ⟨none, .push (.integer 0)⟩,
    ⟨some 9, .plain (.binary .divide)⟩]

def dividingCode : Code :=
  #[⟨.push (.integer 1), 4294901761⟩, ⟨.push (.integer 0), 4294901762⟩,
    ⟨.binary .divide, 4294901769⟩]

def dividingProgram : Program := ⟨[⟨"F[] =: NUMBER", dividingCode⟩], #[]⟩

/-- The machine on which the function is installed. -/
def dividingMachine : Machine := (dividingProgram.install coreMachine).2

/-- The operator fails in the program behind it, after two instructions that succeed. -/
theorem dividingCode_haltsAt : Exec.HaltsAt dividingCode dividingMachine.enter 2 := by
  have hFirst : Exec.advance (Exec.execute 0) dividingCode 0 dividingMachine.enter =
      .ok (.inl 1) (dividingMachine.enter.push (.integer 1)) := rfl
  have hSecond : Exec.advance (Exec.execute 0) dividingCode 1
      (dividingMachine.enter.push (.integer 1)) =
      .ok (.inl 2) ((dividingMachine.enter.push (.integer 1)).push (.integer 0)) := rfl
  have hFails : (match Exec.step (Exec.execute 8) (.binary .divide)
      ((dividingMachine.enter.push (.integer 1)).push (.integer 0)) with
      | .ok succeeded _ => !succeeded
      | _ => false) = true := by
    decide +kernel
  cases hStep : Exec.step (Exec.execute 8) (.binary .divide)
      ((dividingMachine.enter.push (.integer 1)).push (.integer 0)) with
  | ok succeeded m' =>
      rw [hStep] at hFails
      cases succeeded with
      | true => cases hFails
      | false => exact ⟨_, _, 8, _, m', (Exec.Reaches.first.next hFirst).next hSecond, rfl, hStep⟩
  | fault cause m' => rw [hStep] at hFails; cases hFails
  | exhausted => rw [hStep] at hFails; cases hFails

theorem line_numbers_survive_dividing :
    (ProgramFile.mk [dividingFunction] []).Converts ∧
      Program.ofFile ⟨[dividingFunction], []⟩ = .ok dividingProgram ∧
      dividingProgram.install coreMachine = (none, dividingMachine) ∧
      ∃ signature,
        ⟨signature, .user dividingCode⟩ ∈ dividingMachine.registry.overloads signature.name ∧
        ∃ bound args after, ∀ fuel ≥ bound,
          Exec.runBody (Exec.execute fuel) ⟨signature, .user dividingCode⟩ ⟨[]⟩ dividingMachine =
            .ok (.error "Error at line 65535 in function, line 9 in source code", args) after := by
  have hConverts : (ProgramFile.mk [dividingFunction] []).Converts := by
    refine ⟨fun f hf entry hEntry => ?_, fun entry hEntry => by cases hEntry⟩
    obtain rfl := List.mem_singleton.1 hf
    simp only [dividingFunction, List.mem_cons, List.not_mem_nil, or_false] at hEntry
    rcases hEntry with rfl | rfl | rfl
    · exact ⟨_, .push rfl⟩
    · exact ⟨_, .push rfl⟩
    · exact ⟨_, .plain _⟩
  have hOk : Program.ofFile ⟨[dividingFunction], []⟩ = .ok dividingProgram := rfl
  have hInstall : dividingProgram.install coreMachine = (none, dividingMachine) := by
    have hNone : (dividingProgram.install coreMachine).1 = none := by decide +kernel
    exact Prod.ext hNone rfl
  obtain ⟨-, -, -, -, hLoaded⟩ := line_numbers_survive hConverts
  obtain ⟨-, hInstalled⟩ := hLoaded _ hOk
  cases hInstalled _ _ hInstall with
  | cons hFunction _ =>
      obtain ⟨signature, -, hMem, hLocates⟩ := hFunction
      have hStart : Exec.defineParams (signature.params.zip (Args.mk []).cells)
          dividingMachine.enter = .ok () dividingMachine.enter := by
        change Exec.defineParams (signature.params.zip []) _ = _
        rw [List.zip_nil_right]
        rfl
      obtain ⟨bound, args, after, hRun⟩ := hLocates.named ⟨[]⟩ dividingMachine _ 2 _
        (by decide +kernel) hStart rfl dividingCode_haltsAt
      exact ⟨hConverts, hOk, hInstall, _, hMem, bound, args, after, hRun⟩

end CellMachine
