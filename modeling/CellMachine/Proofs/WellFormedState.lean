import CellMachine.Proofs.CoreResults
import CellMachine.Proofs.Dispatch
import CellMachine.Proofs.Isolation

/-!
# Machines with well-formed data

All cells on all operand stacks, in all variable tables and in all pending calls are well formed, no
table stores a protected name, and none binds a name to a reference (`Machine.WellFormed`).  The
operations on the state keep this, and a machine has it that is given the core library and
functions with well-formed constants.

The invariant of a pending call says one thing more: what is bound to a by-value parameter is not a
reference.  An assignment depends on that, for it stores what was bound to its second parameter.  It
does NOT hold of by-reference parameters, nor of operand stacks.
-/

namespace CellMachine

/-! ## Well-formed machines -/

/-- Every stored name is free to be stored, and every stored value is a well-formed value. -/
def Scope.WellFormed (s : Scope) : Prop :=
  ∀ name cell, (name, cell) ∈ s.bindings →
    isProtected name = false ∧ cell.isReference = false ∧ cell.WellFormed

structure Frame.WellFormed (f : Frame) : Prop where
  scope : f.scope.WellFormed
  stack : ∀ cell ∈ f.stack, cell.WellFormed

/-- The constants that an instruction pushes are well formed. -/
def Op.WellFormed : Op → Prop
  | push constant => constant.WellFormed
  | _ => True

def Code.WellFormed (code : Code) : Prop := ∀ instruction ∈ code, instruction.op.WellFormed

/-- The defaults are well formed, and the body is code with well-formed constants or a function of
the core library. -/
structure Overload.WellFormed (o : Overload) : Prop where
  defaults : ∀ p ∈ o.signature.params, ∀ cell, p.default = some cell → cell.WellFormed
  native : ∀ resolve, o.body = .native resolve → o ∈ Core.library
  user : ∀ code, o.body = .user code → code.WellFormed

/-- The arguments in the slots are well formed, and no viable overload has a reference bound to a
by-value parameter. -/
structure PendingCall.WellFormed (c : PendingCall) : Prop where
  viable : ∀ o ∈ c.viable, o.WellFormed
  slots : ∀ position a, c.slot? position = some a → a.cell.WellFormed
  byValue : ∀ position a, c.slot? position = some a → ∀ o ∈ c.viable, ∀ p,
    o.signature.params[position]? = some p → p.byRef = false → a.cell.isReference = false

def Registry.WellFormed (r : Registry) : Prop :=
  ∀ name overloads, r.get? name = some overloads → ∀ o ∈ overloads, o.WellFormed

structure Machine.WellFormed (m : Machine) : Prop where
  active : m.calls.active.WellFormed
  waiting : ∀ frame ∈ m.calls.waiting, frame.WellFormed
  pending : ∀ c ∈ m.pending, c.WellFormed
  registry : m.registry.WellFormed

/-! ## Variable tables -/

theorem protectedValue?_wellFormed {name : String} {cell : Cell}
    (h : protectedValue? name = some cell) : cell.WellFormed := by
  unfold protectedValue? at h
  split at h
  · cases h
    exact .leaf rfl
  · split at h
    · cases h
      exact .leaf rfl
    · split at h
      · cases h
        exact .leaf rfl
      · cases h

/-- What is stored in place of an old value is the new one, or the new list with a tag. -/
theorem Cell.replacing?_wellFormed {old new stored : Cell} (h : old.replacing? new = some stored)
    (hValue : new.isReference = false) (hFormed : new.WellFormed) :
    stored.isReference = false ∧ stored.WellFormed := by
  unfold replacing? at h
  split at h
  · split at h
    · cases h
      exact ⟨hValue, hFormed⟩
    · rename_i t items _
      obtain ⟨l, hAdopt, rfl⟩ := Option.map_eq_some_iff.1 h
      exact ⟨rfl, CellList.adopt_wellFormed (l := ⟨t, items⟩) hFormed hAdopt⟩
  · split at h
    · cases h
      exact ⟨hValue, hFormed⟩
    · cases h

namespace Scope

theorem empty_wellFormed : Scope.empty.WellFormed := fun _ _ h => by cases h

theorem mem_of_get? {s : Scope} {name : String} {cell : Cell} (h : s.get? name = some cell) :
    (name, cell) ∈ s.bindings := by
  obtain ⟨before, after, hBindings, -⟩ := List.lookup_eq_some_iff.1 h
  simp [hBindings]

theorem mem_store {name key : String} {cell value : Cell} {bindings : List (String × Cell)}
    (h : (key, value) ∈ store name cell bindings) :
    (key = name ∧ value = cell) ∨ (key, value) ∈ bindings := by
  induction bindings with
  | nil =>
      rw [store, List.mem_singleton] at h
      cases h
      exact Or.inl ⟨rfl, rfl⟩
  | cons binding rest ih =>
      obtain ⟨first, old⟩ := binding
      rw [store] at h
      split at h
      · rename_i hHere
        rcases List.mem_cons.1 h with hFirst | hRest
        · cases hFirst
          exact Or.inl ⟨hHere, rfl⟩
        · exact Or.inr (List.mem_cons_of_mem _ hRest)
      · rcases List.mem_cons.1 h with hFirst | hRest
        · rw [hFirst]
          exact Or.inr List.mem_cons_self
        · exact (ih hRest).imp_right (List.mem_cons_of_mem _)

variable {s s' : Scope}

theorem WellFormed.lookup (h : s.WellFormed) {name : String} {cell : Cell}
    (hLookup : s.lookup name = some cell) : cell.WellFormed := by
  unfold Scope.lookup at hLookup
  split at hLookup
  · rename_i hProtected
    cases hLookup
    exact protectedValue?_wellFormed hProtected
  · exact (h _ _ (mem_of_get? hLookup)).2.2

theorem WellFormed.define (h : s.WellFormed) {name : String} {cell : Cell}
    (hValue : cell.isReference = false) (hFormed : cell.WellFormed)
    (hDefine : s.define name cell = .ok s') : s'.WellFormed := by
  have hStore {stored : Cell} (hName : isProtected name = false)
      (hStored : stored.isReference = false ∧ stored.WellFormed) :
      (Scope.mk (store name stored s.bindings)).WellFormed := by
    intro key value hMember
    rcases mem_store hMember with ⟨rfl, rfl⟩ | hOld
    · exact ⟨hName, hStored⟩
    · exact h key value hOld
  unfold Scope.define at hDefine
  split at hDefine
  · cases hDefine
  · rename_i hName
    rw [Bool.not_eq_true] at hName
    split at hDefine
    · cases hDefine
      exact hStore hName ⟨hValue, hFormed⟩
    · split at hDefine
      · rename_i hReplacing
        cases hDefine
        exact hStore hName (Cell.replacing?_wellFormed hReplacing hValue hFormed)
      · cases hDefine

theorem WellFormed.remove (h : s.WellFormed) {name : String} {cell : Cell}
    (hRemove : s.remove name = .ok (cell, s')) :
    s'.WellFormed ∧ cell.isReference = false ∧ cell.WellFormed := by
  unfold Scope.remove at hRemove
  split at hRemove
  · cases hRemove
  · split at hRemove
    · cases hRemove
    · rename_i hGet
      cases hRemove
      exact ⟨fun key value hMember => h key value (List.mem_of_mem_filter hMember),
        (h _ _ (mem_of_get? hGet)).2⟩

end Scope

/-! ## Pending calls -/

theorem PendingCall.init_wellFormed (name : String) {overloads : List Overload}
    (h : ∀ o ∈ overloads, o.WellFormed) : (init name overloads).WellFormed where
  viable := h
  slots position a hSlot := by
    rw [init_slot?] at hSlot
    cases hSlot
  byValue position a hSlot := by
    rw [init_slot?] at hSlot
    cases hSlot

/-- An argument that a by-value parameter takes is not a reference. -/
theorem Param.isReference_of_takes {alive : Handle → Bool} {listable : Bool} {p : Param}
    {a : Argument} {mode : PassMode} (h : p.takes alive listable a mode = true)
    (hByValue : p.byRef = false) : a.cell.isReference = false := by
  unfold takes at h
  rw [Bool.and_eq_true] at h
  have hTaken := h.2
  rw [if_neg (by simp [hByValue]), Bool.and_eq_true] at hTaken
  simpa [Argument.isUnbound] using hTaken.1

theorem PendingCall.WellFormed.bind {c : PendingCall} (h : c.WellFormed) (alive : Handle → Bool)
    (param : Option String) {a : Argument} (mode : PassMode) (ha : a.cell.WellFormed) :
    (c.bind alive param a mode).1.WellFormed where
  viable o ho := h.viable o (bind_viable_subset alive c param a mode ho)
  slots position other hSlot := by
    rcases slot?_bind hSlot with hOld | ⟨rfl, -⟩
    · exact h.slots position other hOld
    · exact ha
  byValue position other hSlot o ho p hp hByValue := by
    rcases slot?_bind hSlot with hOld | ⟨rfl, hTaken⟩
    · exact h.byValue position other hOld o (bind_viable_subset alive c param a mode ho) p hp hByValue
    · have hTakes := hTaken o ho
      simp only [Overload.takes, hp, Bool.and_eq_true] at hTakes
      exact Param.isReference_of_takes hTakes.2 hByValue

/-! ## Operations on the state -/

namespace Machine

variable {m m' : Machine}

/-- Streams, diagnostics and objects are no part of the invariant. -/
theorem WellFormed.of_same (h : m.WellFormed) (hCalls : m'.calls = m.calls)
    (hPending : m'.pending = m.pending) (hRegistry : m'.registry = m.registry) :
    m'.WellFormed where
  active := hCalls ▸ h.active
  waiting := hCalls ▸ h.waiting
  pending := hPending ▸ h.pending
  registry := hRegistry ▸ h.registry

theorem WellFormed.stack (h : m.WellFormed) : ∀ cell ∈ m.stack, cell.WellFormed := h.active.stack

theorem WellFormed.report (h : m.WellFormed) (d : Diagnostic) : (m.report d).WellFormed :=
  h.of_same rfl rfl rfl

theorem WellFormed.setScope (h : m.WellFormed) {scope : Scope} (hScope : scope.WellFormed) :
    (m.setScope scope).WellFormed := { h with active := ⟨hScope, h.active.stack⟩ }

theorem WellFormed.setStack (h : m.WellFormed) {stack : Operands}
    (hStack : ∀ cell ∈ stack, cell.WellFormed) : (m.setStack stack).WellFormed :=
  { h with active := ⟨h.active.scope, hStack⟩ }

theorem WellFormed.push (h : m.WellFormed) {cell : Cell} (hCell : cell.WellFormed) :
    (m.push cell).WellFormed :=
  h.setStack (List.forall_mem_cons.2 ⟨hCell, h.active.stack⟩)

theorem WellFormed.flush (h : m.WellFormed) : m.flush.WellFormed :=
  h.setStack fun _ hCell => by cases hCell

theorem WellFormed.clear (h : m.WellFormed) : m.clear.WellFormed :=
  h.flush.setScope Scope.empty_wellFormed

theorem WellFormed.enter (h : m.WellFormed) : m.enter.WellFormed where
  active := ⟨Scope.empty_wellFormed, fun _ hCell => by cases hCell⟩
  waiting := List.forall_mem_cons.2 ⟨h.active, h.waiting⟩
  pending := h.pending
  registry := h.registry

theorem WellFormed.leave (h : m.WellFormed) : m.leave.WellFormed := by
  unfold Machine.leave CallStack.leave
  cases hWaiting : m.calls.waiting with
  | nil => exact h
  | cons frame rest =>
      have hFrames := h.waiting
      rw [hWaiting, List.forall_mem_cons] at hFrames
      exact { h with active := hFrames.1, waiting := hFrames.2 }

theorem WellFormed.settle (h : m.WellFormed) (floor : Nat) : (m.settle floor).WellFormed :=
  { h with pending := fun c hc => h.pending c (List.mem_of_mem_drop hc) }

theorem WellFormed.define (h : m.WellFormed) (name : String) {cell : Cell}
    (hValue : cell.isReference = false) (hFormed : cell.WellFormed) :
    (m.define name cell).2.WellFormed := by
  unfold Machine.define
  split
  · rename_i scope hDefine
    exact h.setScope (h.active.scope.define hValue hFormed hDefine)
  · exact h.report _
  · exact h.report _
  · exact h

theorem WellFormed.remove (h : m.WellFormed) (name : String) :
    (m.remove name).2.WellFormed ∧ ∀ cell, (m.remove name).1 = some cell → cell.WellFormed := by
  unfold Machine.remove
  split
  · rename_i value scope hRemove
    obtain ⟨hScope, -, hValue⟩ := h.active.scope.remove hRemove
    refine ⟨h.setScope hScope, fun cell hCell => ?_⟩
    cases hCell
    exact hValue
  · exact ⟨h.report _, fun cell hCell => protectedValue?_wellFormed hCell⟩
  · exact ⟨h, fun cell hCell => by cases hCell⟩

theorem WellFormed.forget (h : m.WellFormed) (name : String) : (m.forget name).WellFormed := by
  unfold Machine.forget
  split
  · rename_i hRemove
    exact h.setScope (h.active.scope.remove hRemove).1
  · exact h

theorem WellFormed.resolve (h : m.WellFormed) {cell : Cell} (hCell : cell.WellFormed) :
    (m.resolve cell).2.WellFormed ∧ (m.resolve cell).1.WellFormed := by
  cases cell with
  | reference name =>
      unfold Machine.resolve
      dsimp only
      split
      · exact ⟨h, hCell⟩
      · rename_i value hLookup
        split
        · exact ⟨h, h.active.scope.lookup hLookup⟩
        · exact ⟨h.forget name, hCell⟩
  | _ => exact ⟨h, hCell⟩

/-- What is gathered joins a list that is well formed; its tag goes on from cell to cell. -/
theorem WellFormed.gather (h : m.WellFormed) {element : CellType} {items cells : List Cell}
    (hItems : (Cell.list element items).WellFormed) (hCells : ∀ cell ∈ cells, cell.WellFormed) :
    (m.gather element cells).2.2.WellFormed ∧
      (Cell.list (m.gather element cells).2.1.element
        ((m.gather element cells).2.1.items ++ items)).WellFormed := by
  induction cells generalizing m element items with
  | nil => exact ⟨h, hItems⟩
  | cons cell rest ih =>
      rw [List.forall_mem_cons] at hCells
      obtain ⟨hResolved, hValue⟩ := h.resolve hCells.1
      rw [Machine.gather]
      generalize m.resolve cell = resolved at hResolved hValue
      obtain ⟨value, m'⟩ := resolved
      dsimp only at hResolved hValue ⊢
      split
      · exact ih (hResolved.report _) hItems hCells.2
      · split
        · rename_i merged hAbsorb
          obtain ⟨hAfter, hList⟩ := ih hResolved (hItems.absorb hValue hAbsorb) hCells.2
          exact ⟨hAfter, hList.of_subset List.perm_middle.symm.subset⟩
        · exact ih (hResolved.report _) hItems hCells.2

theorem WellFormed.writeStream (h : m.WellFormed) (stream : Stream) (text : String) :
    (m.writeStream stream text).2.WellFormed := by
  cases stream with
  | output => exact h.of_same rfl rfl rfl
  | discard => exact h
  | input => exact h

theorem WellFormed.print (h : m.WellFormed) (texts : List String) :
    (m.print texts).2.WellFormed := by
  rw [Machine.print_eq]
  exact h.of_same rfl rfl rfl

theorem WellFormed.printLines (h : m.WellFormed) (lines : List String) :
    (m.printLines lines).2.WellFormed := h.print _

theorem WellFormed.dumpCells (h : m.WellFormed) {cells : Operands}
    (hCells : ∀ cell ∈ cells, cell.WellFormed) : (m.dumpCells cells).2.WellFormed := by
  induction cells generalizing m with
  | nil => exact h
  | cons cell below ih =>
      rw [List.forall_mem_cons] at hCells
      have hResolved := (h.resolve hCells.1).1
      rw [Machine.dumpCells]
      generalize m.resolve cell = resolved at hResolved
      exact ih (hResolved.print _) hCells.2

theorem WellFormed.dump (h : m.WellFormed) : m.dump.2.WellFormed := by
  have hStack := h.stack
  unfold Machine.dump
  cases hCells : m.stack with
  | nil =>
      have hPrint := h.flush.print ["Stack : NULL\n"]
      exact hPrint.print ["\n"]
  | cons cell below =>
      rw [hCells] at hStack
      have hDump := h.flush.dumpCells hStack
      exact hDump.print ["\n"]

theorem WellFormed.help (h : m.WellFormed) (name : String) : (m.help name).2.WellFormed := by
  unfold Machine.help
  split
  · exact h.printLines _
  · exact h.report _

theorem WellFormed.initCall (h : m.WellFormed) (name : String) :
    (m.initCall name).2.WellFormed := by
  unfold Machine.initCall
  split
  · rename_i overloads hGet
    have hOpened := PendingCall.init_wellFormed name (h.registry name overloads hGet)
    exact { h with pending := List.forall_mem_cons.2 ⟨hOpened, h.pending⟩ }
  · exact h.report _

/-! ### Functions that are added -/

theorem bare_wellFormed (maxCallDepth : Nat) (input : List UInt8) (console : Console) :
    (bare maxCallDepth input console).WellFormed where
  active := ⟨Scope.empty_wellFormed, fun _ hCell => by cases hCell⟩
  waiting _ hFrame := by cases hFrame
  pending _ hc := by cases hc
  registry _ _ hGet := by cases hGet

theorem WellFormed.holds (h : m.WellFormed) {o : Overload} (ho : m.Holds o) : o.WellFormed := by
  rcases ho with ⟨name, overloads, hGet, ho⟩ | ⟨c, hc, ho⟩
  · exact h.registry name overloads hGet o ho
  · exact (h.pending c hc).viable o ho

theorem WellFormed.addFunctions (h : m.WellFormed) {overloads : List Overload}
    (hAdded : ∀ o ∈ overloads, o.WellFormed) : (m.addFunctions overloads).2.WellFormed := by
  obtain ⟨hCalls, hPending⟩ := m.addFunctions_frames overloads
  refine ⟨hCalls ▸ h.active, hCalls ▸ h.waiting, hPending ▸ h.pending, ?_⟩
  intro name members hGet o ho
  rcases addFunctions_holds (Or.inl ⟨name, members, hGet, ho⟩) with hNew | hOld
  · exact hAdded o hNew
  · exact h.holds hOld

end Machine

theorem Core.library_wellFormed : ∀ o ∈ library, o.WellFormed := by
  have hPlain : (library.all fun o => o.signature.params.all fun p => p.default.isNone) = true := rfl
  intro o ho
  refine ⟨fun p hp cell hDefault => ?_, fun _ _ => ho, fun code hBody => ?_⟩
  · have hNone := List.all_eq_true.1 (List.all_eq_true.1 hPlain o ho) p hp
    rw [hDefault] at hNone
    cases hNone
  · obtain ⟨f, hNative, -⟩ := library_isCore o ho
    rw [hNative] at hBody
    cases hBody

/-- A machine stays well formed when it is given the core library. -/
theorem Machine.WellFormed.withCore {m : Machine} (h : m.WellFormed) : m.withCore.WellFormed :=
  h.addFunctions Core.library_wellFormed

end CellMachine
