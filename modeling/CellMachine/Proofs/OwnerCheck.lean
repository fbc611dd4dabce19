import CellMachine.Proofs.DataInvariant
import CellMachine.Proofs.SingleReport
import CellMachine.Proofs.Termination

/-!
# Bodies run for one owner

An overload may ask that all handles among its arguments have the same owner.  The owners are
collected from lists at any depth and compared with their neighbours only, and this is done again
for every element-wise call.  Main statement: the body of such an overload is never entered with
handles of different owners, in no run of any program, and a call with such handles enters no body
at all, reports the mismatch once and gives its message as an error.

What runs of programs do with bodies is stated by replacement: `Exec.executeBy` runs a program with
something else in place of bodies, and it makes no difference what that is for arguments of
different owners.  Handles without an owner do NOT count, so arguments may have no owner at all.
-/

namespace CellMachine

/-! ## Owners in nested cells -/

/-- The handle stands in the cell, inside lists at any depth. -/
inductive Cell.Contains (h : Handle) : Cell → Prop
  | handle : Contains h (.handle h)
  | item {element : CellType} {items : List Cell} {item : Cell} (hItem : item ∈ items)
      (hInner : Contains h item) : Contains h (.list element items)

/-- Some handle in the cell has the given owner. -/
def Cell.HasOwner (cell : Cell) (owner : Nat) : Prop :=
  ∃ h : Handle, cell.Contains h ∧ h.owner = some owner

/-- All handles in some cells that have an owner have the same one. -/
def OneOwner (cells : List Cell) : Prop :=
  ∀ first ∈ cells, ∀ second ∈ cells, ∀ a b, first.HasOwner a → second.HasOwner b → a = b

namespace Cell

theorem hasOwner_handle_iff {h : Handle} {owner : Nat} :
    (handle h).HasOwner owner ↔ h.owner = some owner := by
  constructor
  · rintro ⟨h', hContains, hOwner⟩
    cases hContains
    exact hOwner
  · intro hOwner
    exact ⟨h, .handle, hOwner⟩

theorem hasOwner_list_iff {element : CellType} {items : List Cell} {owner : Nat} :
    (list element items).HasOwner owner ↔ ∃ item ∈ items, item.HasOwner owner := by
  constructor
  · rintro ⟨h, hContains, hOwner⟩
    cases hContains with
    | item hItem hInner => exact ⟨_, hItem, h, hInner, hOwner⟩
  · rintro ⟨item, hItem, h, hInner, hOwner⟩
    exact ⟨h, .item hItem hInner, hOwner⟩

theorem mem_ownersAll_iff {cells : List Cell} {owner : Nat} :
    owner ∈ ownersAll cells ↔ ∃ cell ∈ cells, owner ∈ cell.owners := by
  induction cells with
  | nil => simp [ownersAll]
  | cons cell rest ih => simp [ownersAll, ih]

/-- The owners that are collected are those of the handles in the cell. -/
theorem mem_owners_iff {cell : Cell} {owner : Nat} :
    owner ∈ cell.owners ↔ cell.HasOwner owner := by
  induction cell using Cell.induct with
  | leaf cell hLeaf =>
      cases cell with
      | handle h => rw [hasOwner_handle_iff, owners, Option.mem_toList]
      | list element items => cases hLeaf
      | _ =>
          constructor
          · intro h
            simp [owners] at h
          · rintro ⟨h, hContains, -⟩
            cases hContains
  | list element items ih =>
      rw [hasOwner_list_iff, owners, mem_ownersAll_iff]
      constructor
      · rintro ⟨item, hItem, hOwner⟩
        exact ⟨item, hItem, (ih item hItem).1 hOwner⟩
      · rintro ⟨item, hItem, hOwner⟩
        exact ⟨item, hItem, (ih item hItem).2 hOwner⟩

end Cell

/-- It is enough to compare neighbours. -/
theorem allSame_eq_true_iff (owners : List Nat) :
    allSame owners = true ↔ ∀ a ∈ owners, ∀ b ∈ owners, a = b := by
  fun_induction allSame owners with
  | case1 a b rest ih =>
      rw [Bool.and_eq_true, beq_iff_eq, ih]
      constructor
      · rintro ⟨rfl, hRest⟩
        simpa using hRest
      · intro h
        refine ⟨h a (by simp) b (by simp), fun c hc d hd => ?_⟩
        exact h c (List.mem_cons_of_mem _ hc) d (List.mem_cons_of_mem _ hd)
  | case2 owners hShort =>
      match owners, hShort with
      | [], _ => simp
      | [a], _ => simp
      | a :: b :: rest, hShort => exact absurd rfl (hShort a b rest)

theorem ownersAgree_iff (cells : List Cell) : ownersAgree cells = true ↔ OneOwner cells := by
  unfold ownersAgree
  rw [allSame_eq_true_iff]
  simp only [Cell.mem_ownersAll_iff, Cell.mem_owners_iff]
  constructor
  · intro h first hFirst second hSecond a b ha hb
    exact h a ⟨first, hFirst, ha⟩ b ⟨second, hSecond, hb⟩
  · rintro h a ⟨first, hFirst, ha⟩ b ⟨second, hSecond, hb⟩
    exact h first hFirst second hSecond a b ha hb

/-! ## Element-wise calls -/

/-- The share of an element-wise call has no handle that its argument does not have. -/
theorem Spread.hasOwner_of_element {s : Spread} {index owner : Nat}
    (h : (s.element index).HasOwner owner) : s.cell.HasOwner owner := by
  unfold element at h
  split at h
  · rename_i items _ hCell
    rw [hCell, Cell.hasOwner_list_iff]
    cases hItem : items[index]? with
    | some item =>
        rw [hItem] at h
        exact ⟨item, List.mem_of_getElem? hItem, h⟩
    | none =>
        rw [hItem] at h
        obtain ⟨handle, hContains, -⟩ := h
        cases hContains
  · exact h

theorem OneOwner.row {signature : Signature} {args : Args} (h : OneOwner args.cells) {count : Nat}
    {row : List Cell} (hRow : row ∈ Spread.rows (Spread.ofArgs signature args) count) :
    OneOwner row := by
  obtain ⟨index, -, rfl⟩ := List.mem_map.1 hRow
  intro first hFirst second hSecond a b ha hb
  obtain ⟨s, hs, rfl⟩ := List.mem_map.1 hFirst
  obtain ⟨t, ht, rfl⟩ := List.mem_map.1 hSecond
  exact h s.cell (Spread.mem_zipWith_ofParam hs).1 t.cell (Spread.mem_zipWith_ofParam ht).1 a b
    (Spread.hasOwner_of_element ha) (Spread.hasOwner_of_element hb)

/-- An overload may be entered with some arguments as far as their owners are concerned. -/
def Signature.Permits (signature : Signature) (cells : List Cell) : Prop :=
  signature.flags.matchOwner = true → OneOwner cells

theorem Signature.mismatch_iff (signature : Signature) (cells : List Cell) :
    (signature.flags.matchOwner && !ownersAgree cells) = true ↔ ¬signature.Permits cells := by
  unfold Permits
  rw [← ownersAgree_iff]
  simp

/-- The same signature, whose overload asks for nothing about owners. -/
def Signature.unowned (signature : Signature) : Signature :=
  { signature with flags := { signature.flags with matchOwner := false } }

namespace Exec

theorem broadcast_congr_rows {inner inner' : List Cell → Exec Cell} {signature : Signature}
    {args : Args}
    (h : ∀ count, ∀ row ∈ Spread.rows (Spread.ofArgs signature args) count,
      inner row = inner' row) :
    broadcast inner signature args = broadcast inner' signature args := by
  unfold broadcast
  dsimp only
  split
  · rfl
  · exact collect_congr (h _) _ _

/-- The check is made before anything else, so it is passed wherever a body is run. -/
theorem invokeWithin_of_permits {run run' : Args → Exec (Cell × Args)} {signature : Signature}
    (hRun : ∀ args, signature.Permits args.cells → run args = run' args) (levels : Nat)
    (args : Args) :
    invokeWithin run signature levels args = invokeWithin run' signature levels args := by
  induction levels generalizing args with
  | zero =>
      rw [invokeWithin, invokeWithin]
      split
      · rfl
      · rename_i hPasses
        split
        · rfl
        · exact hRun args (not_not.1 fun h => hPasses ((signature.mismatch_iff _).2 h))
  | succ levels ih =>
      rw [invokeWithin, invokeWithin]
      split
      · rfl
      · rename_i hPasses
        split
        · dsimp only
          rw [broadcast_congr_rows fun _ row _ => by rw [ih (Args.ofCells row)]]
        · exact hRun args (not_not.1 fun h => hPasses ((signature.mismatch_iff _).2 h))

/-- Arguments that pass the check as a whole pass it in every element-wise call. -/
theorem invokeWithin_unowned (run : Args → Exec (Cell × Args)) {signature : Signature}
    (levels : Nat) {args : Args} (h : OneOwner args.cells) :
    invokeWithin run signature levels args = invokeWithin run signature.unowned levels args := by
  have hPasses {args : Args} (h : OneOwner args.cells) :
      ¬(signature.flags.matchOwner && !ownersAgree args.cells) = true :=
    fun hMismatch => (signature.mismatch_iff _).1 hMismatch fun _ => h
  have hUnowned (args : Args) :
      ¬(signature.unowned.flags.matchOwner && !ownersAgree args.cells) = true := by
    simp [Signature.unowned]
  induction levels generalizing args with
  | zero =>
      rw [invokeWithin, invokeWithin, if_neg (hPasses h), if_neg (hUnowned args)]
      rfl
  | succ levels ih =>
      rw [invokeWithin, invokeWithin, if_neg (hPasses h), if_neg (hUnowned args)]
      have hInner : ∀ count, ∀ row ∈ Spread.rows (Spread.ofArgs signature args) count,
          (do return (← invokeWithin run signature levels (Args.ofCells row)).1 : Exec Cell) =
            do return (← invokeWithin run signature.unowned levels (Args.ofCells row)).1 := by
        intro count row hRow
        have hRow' : OneOwner (Args.ofCells row).cells := by
          rw [Args.cells_ofCells]
          exact h.row hRow
        rw [ih hRow']
      dsimp only
      rw [broadcast_congr_rows hInner]
      rfl

theorem invoke_of_mismatch (run : Overload → Args → Exec (Cell × Args)) {o : Overload} {args : Args}
    (h : ¬o.signature.Permits args.cells) (m : Machine) :
    invoke run o args m =
      .ok (.error (Diagnostic.ownerMismatch o.signature.name).message, args)
        (m.report (.ownerMismatch o.signature.name)) := by
  unfold invoke
  generalize Cell.heights args.cells = levels
  have hMismatch := (o.signature.mismatch_iff args.cells).2 h
  cases levels with
  | zero => rw [invokeWithin, if_pos hMismatch]; rfl
  | succ levels => rw [invokeWithin, if_pos hMismatch]; rfl

end Exec

/-! ## Calls -/

namespace Exec

/-- Arguments that were not rebound are not written back. -/
theorem writeBack_of_not_rebound {args : Args} (h : ∀ index, args.isRebound index = false)
    (targets : List (Option String)) (index : Nat) :
    writeBack args targets index = Pure.pure true := by
  induction targets generalizing index with
  | nil => rfl
  | cons target rest ih =>
      cases target with
      | none => exact ih (index + 1)
      | some name =>
          rw [writeBack, h index]
          exact ih (index + 1)

theorem isRebound_ofCells (cells : List Cell) (index : Nat) :
    (Args.ofCells cells).isRebound index = false := by
  simp only [Args.isRebound, Args.ofCells, List.getElem?_map]
  cases cells[index]? <;> rfl

/-- A call with arguments of different owners reports the mismatch and pushes its message. -/
theorem makeCall_of_mismatch (run : Overload → Args → Exec (Cell × Args)) {c : PendingCall}
    {bound : BoundCall} (hFinish : c.finish = .ok bound)
    (h : ¬bound.overload.signature.Permits bound.args.cells) (m : Machine) :
    makeCall run c m = .ok false ((m.report (.ownerMismatch bound.overload.signature.name)).push
      (.error (Diagnostic.ownerMismatch bound.overload.signature.name).message)) := by
  have hFresh (index : Nat) : bound.args.isRebound index = false := by
    rw [(PendingCall.finish_eq_ok hFinish).2.2.1]
    exact isRebound_ofCells _ index
  rw [makeCall_of_ok hFinish, bind_of_ok (invoke_of_mismatch run h m), conclude,
    writeBack_of_not_rebound hFresh]
  rfl

end Exec

/-! ## Runs with something else in place of bodies -/

namespace Exec

/-- Perform the instruction at an index as a run does, but with `body` in place of bodies. -/
def advanceBy (body : (Code → Exec Ending) → Overload → Args → Exec (Cell × Args))
    (execute : Code → Exec Ending) (code : Code) (index : Nat) : Exec (Nat ⊕ Ending) :=
  match code[index]? with
  | some ⟨.call, line⟩ => do
    if ← takePending >>= makeCall (body execute) then return .inl (index + 1)
    else return .inr (.failure line)
  | _ => advance execute code index

/-- Run a program from the given index on with `body` in place of bodies, also in all programs that
it starts. -/
def runBy (body : (Code → Exec Ending) → Overload → Args → Exec (Cell × Args)) :
    Nat → Code → Nat → Exec Ending
  | 0, _, _ => exhausted
  | fuel + 1, code, index => do
    match ← advanceBy body (fun code => settling (runBy body fuel code 0)) code index with
    | .inl next => runBy body fuel code next
    | .inr ending => return ending

/-- Run a program with `body` in place of bodies. -/
def executeBy (body : (Code → Exec Ending) → Overload → Args → Exec (Cell × Args)) (fuel : Nat)
    (code : Code) : Exec Ending :=
  settling (runBy body fuel code 0)

section Replacement

variable {body : (Code → Exec Ending) → Overload → Args → Exec (Cell × Args)}
  (hBody : ∀ execute o args, o.signature.Permits args.cells →
    body execute o args = runBody execute o args)

include hBody

theorem makeCall_of_permits (execute : Code → Exec Ending) (c : PendingCall) :
    makeCall (body execute) c = makeCall (runBody execute) c := by
  unfold makeCall
  cases c.finish with
  | error d => rfl
  | ok bound =>
      have hInvoke : invoke (body execute) bound.overload bound.args =
          invoke (runBody execute) bound.overload bound.args :=
        invokeWithin_of_permits (hBody execute bound.overload) _ _
      dsimp only
      rw [hInvoke]

theorem call_of_permits (execute : Code → Exec Ending) :
    (takePending >>= makeCall (body execute)) = call execute := by
  unfold call
  congr 1
  funext c
  exact makeCall_of_permits hBody execute c

theorem advanceBy_eq (execute : Code → Exec Ending) (code : Code) (index : Nat) :
    advanceBy body execute code index = advance execute code index := by
  unfold advanceBy
  split
  · rename_i line hAt
    rw [call_of_permits hBody, advance, hAt]
    rfl
  · rfl

/-- The induction is on the step allowance, since the programs that a body starts are run with the
same replacement. -/
theorem runBy_eq (fuel : Nat) (code : Code) (index : Nat) :
    runBy body fuel code index = runFrom fuel code index := by
  induction fuel generalizing code index with
  | zero => rfl
  | succ fuel ih =>
      have hNested : (fun code => settling (runBy body fuel code 0)) = execute fuel := by
        funext code
        rw [ih]
        rfl
      rw [runBy, hNested, advanceBy_eq hBody, runFrom_succ_eq]
      congr 1
      funext next
      cases next with
      | inl next => exact ih code next
      | inr ending => rfl

theorem executeBy_eq (fuel : Nat) (code : Code) : executeBy body fuel code = execute fuel code := by
  unfold executeBy execute
  rw [runBy_eq hBody]

end Replacement
end Exec

/-- The owner check.  In no run of any program is the body of an overload that asks for one owner
entered with arguments of different owners: whatever is done in place of bodies for such arguments,
every run and every call does the same.  A call with such arguments enters no body, whatever bodies
do; it reports the mismatch once and pushes its message as an error.  Nothing is rejected later:
arguments that pass the check as a whole are treated as if there were none. -/
theorem bodies_entered_for_one_owner :
    (∀ body : (Code → Exec Ending) → Overload → Args → Exec (Cell × Args),
      (∀ execute o args, (o.signature.flags.matchOwner = true → OneOwner args.cells) →
        body execute o args = Exec.runBody execute o args) →
      (∀ fuel code m, Exec.executeBy body fuel code m = Exec.execute fuel code m) ∧
      ∀ execute m, (Exec.takePending >>= Exec.makeCall (body execute)) m = Exec.call execute m) ∧
    (∀ (o : Overload) (args : Args), o.signature.flags.matchOwner = true → ¬OneOwner args.cells →
      ∀ run m, Exec.invoke run o args m =
        .ok (.error (Diagnostic.ownerMismatch o.signature.name).message, args)
          (m.report (.ownerMismatch o.signature.name))) ∧
    (∀ (m : Machine) (c : PendingCall) (outer : List PendingCall) (bound : BoundCall),
      m.pending = c :: outer → c.finish = .ok bound →
      bound.overload.signature.flags.matchOwner = true → ¬OneOwner bound.args.cells →
      ∀ run, (Exec.takePending >>= Exec.makeCall run) m = .ok false
        ((({ m with pending := outer } : Machine).report
          (.ownerMismatch bound.overload.signature.name)).push
            (.error (Diagnostic.ownerMismatch bound.overload.signature.name).message))) ∧
    ∀ (o : Overload) (args : Args), OneOwner args.cells → ∀ run m,
      Exec.invoke run o args m =
        Exec.invokeWithin (run o) o.signature.unowned (Cell.heights args.cells) args m := by
  have hMismatch {signature : Signature} {cells : List Cell}
      (hFlag : signature.flags.matchOwner = true) (hOwners : ¬OneOwner cells) :
      ¬signature.Permits cells := fun hPermits => hOwners (hPermits hFlag)
  refine ⟨fun body hBody => ⟨fun fuel code m => ?_, fun execute m => ?_⟩,
    fun o args hFlag hOwners run m => ?_,
    fun m c outer bound hPending hFinish hFlag hOwners run => ?_, fun o args hOwners run m => ?_⟩
  · rw [Exec.executeBy_eq hBody]
  · rw [Exec.call_of_permits hBody]
  · exact Exec.invoke_of_mismatch run (hMismatch hFlag hOwners) m
  · rw [Exec.takePending_bind hPending]
    exact Exec.makeCall_of_mismatch run hFinish (hMismatch hFlag hOwners) _
  · unfold Exec.invoke
    rw [Exec.invokeWithin_unowned (run o) _ hOwners]

/-! ### Owners in different lists -/

/-- A permanent object with the given identity and owner. -/
def nodeOf (id owner : Nat) : Handle := ⟨id, "NODE", some owner, true⟩

/-- Two lists with a node each, which have different owners. -/
def nodesOfTwo : Cell :=
  .list (.list (.handle "NODE")) [.list (.handle "NODE") [.handle (nodeOf 7 1)],
    .list (.handle "NODE") [.handle (nodeOf 8 2)]]

/-- A listable function of one node that asks for one owner. -/
def visiting : Overload where
  signature := ⟨"Visit", [.byValue "node" (.handle "NODE")], .integer, ⟨true, true⟩⟩
  body := .user #[⟨.push (.integer 1), 1⟩]

/-- A machine that is about to apply the function to the two lists. -/
def visitingMachine : Machine :=
  { coreMachine with
    pending := [((PendingCall.init "Visit" [visiting]).bind (fun _ => true) none
      (.ofValue nodesOfTwo) .automatic).1] }

theorem nodesOfTwo_not_oneOwner : ¬OneOwner [nodesOfTwo] := by
  intro h
  have hFirst : nodesOfTwo.HasOwner 1 :=
    ⟨nodeOf 7 1, .item List.mem_cons_self (.item List.mem_cons_self .handle), rfl⟩
  have hSecond : nodesOfTwo.HasOwner 2 :=
    ⟨nodeOf 8 2, .item (List.mem_cons_of_mem _ List.mem_cons_self)
      (.item List.mem_cons_self .handle), rfl⟩
  exact absurd (h _ List.mem_cons_self _ List.mem_cons_self 1 2 hFirst hSecond) (by decide)

/-- A fault in place of every body that is entered against the owner check. -/
def guardedBody (execute : Code → Exec Ending) (o : Overload) (args : Args) : Exec (Cell × Args) :=
  if o.signature.flags.matchOwner && !ownersAgree args.cells then Exec.fault .stackUnderflow
  else Exec.runBody execute o args

theorem guardedBody_eq {execute : Code → Exec Ending} {o : Overload} {args : Args}
    (h : o.signature.flags.matchOwner = true → OneOwner args.cells) :
    guardedBody execute o args = Exec.runBody execute o args := by
  unfold guardedBody
  rw [if_neg]
  intro hMixed
  rw [Bool.and_eq_true, Bool.not_eq_true', Bool.eq_false_iff] at hMixed
  exact hMixed.2 ((ownersAgree_iff _).2 (h hMixed.1))

/-- The node in the first list is not visited either, whatever a visit would do, and a program that
makes the call does not find the fault. -/
theorem no_body_entered_for_two_owners :
    (∃ after, after.reported = coreMachine.reported.push (.ownerMismatch "Visit") ∧
      after.stack = [.error (Diagnostic.ownerMismatch "Visit").message] ∧
      ∀ run, (Exec.takePending >>= Exec.makeCall run) visitingMachine = .ok false after) ∧
    Exec.executeBy guardedBody 9 #[⟨.call, 4⟩] visitingMachine =
      Exec.execute 9 #[⟨.call, 4⟩] visitingMachine ∧
    ∃ after, Exec.execute 9 #[⟨.call, 4⟩] visitingMachine = .ok (.failure 4) after := by
  obtain ⟨hReplaced, -, hCall, -⟩ := bodies_entered_for_one_owner
  have hMixed := hCall visitingMachine _ [] ⟨visiting, Args.ofCells [nodesOfTwo], [none]⟩ rfl
    rfl rfl nodesOfTwo_not_oneOwner
  have hSame := (hReplaced guardedBody fun _ _ _ => guardedBody_eq).1 9 #[⟨.call, 4⟩]
  exact ⟨⟨_, rfl, rfl, hMixed⟩, hSame visitingMachine, _, rfl⟩

end CellMachine
