import CellMachine.Call.Pending

/-!
# What binding and finishing a call do

Binding an argument only ever narrows the viable overloads, and it leaves every slot alone but the
one that the argument goes to.  The argument is bound exactly if that slot is free and some viable
overload takes it there; otherwise the call has failed for good.  A call that finishes has chosen
one of its viable overloads, and no required parameter of that overload is left without an argument.
-/

namespace CellMachine

/-- An overload takes an argument at a position if it has a parameter there, of the given name if
there is one, that takes it. -/
theorem Overload.takes_eq_true_iff {alive : Handle → Bool} {o : Overload} {position : Nat}
    {param : Option String} {a : Argument} {mode : PassMode} :
    o.takes alive position param a mode = true ↔
      ∃ p, o.signature.params[position]? = some p ∧
        (∀ name, param = some name → p.name = name) ∧
        p.takes alive o.signature.flags.listable a mode = true := by
  unfold Overload.takes
  cases o.signature.params[position]? with
  | none => simp
  | some p =>
      cases param with
      | none => simp
      | some name => simp [eq_comm (a := p.name)]

namespace PendingCall

/-- What one bind does: it marks the call as failed and may drop overloads, or it fills a free
slot with an argument that all remaining overloads take there. -/
theorem bind_cases (alive : Handle → Bool) (c : PendingCall) (param : Option String) (a : Argument)
    (mode : PassMode) :
    ((c.bind alive param a mode).1.slots = c.slots ∧
        (c.bind alive param a mode).1.viable ⊆ c.viable) ∨
      ∃ position, c.slot? position = none ∧
        (c.bind alive param a mode).1.slots = c.slots.set position (some a) ∧
        (c.bind alive param a mode).1.viable =
          c.viable.filter fun o => o.takes alive position param a mode := by
  unfold bind
  cases c.position? param with
  | none => exact Or.inl ⟨rfl, fun _ h => h⟩
  | some position =>
      dsimp only
      split
      · exact Or.inl ⟨rfl, fun _ h => h⟩
      · rename_i hBound
        have hFree : c.slot? position = none := by simpa using hBound
        split
        · exact Or.inl ⟨rfl, List.filter_sublist.subset⟩
        · exact Or.inr ⟨position, hFree, rfl, rfl⟩

/-- An argument is bound exactly if the slot it goes to is free and some viable overload takes it
there. -/
theorem bind_eq_none_iff {alive : Handle → Bool} {c : PendingCall} {param : Option String}
    {a : Argument} {mode : PassMode} :
    (c.bind alive param a mode).2 = none ↔
      ∃ position, c.position? param = some position ∧ c.slot? position = none ∧
        ∃ o ∈ c.viable, o.takes alive position param a mode = true := by
  unfold bind
  cases c.position? param with
  | none => simp
  | some position =>
      cases hSlot : c.slot? position with
      | some bound => simp [hSlot]
      | none =>
          have hSome : (∃ o ∈ c.viable, o.takes alive position param a mode = true) ↔
              (c.viable.filter fun o => o.takes alive position param a mode).isEmpty = false := by
            simp [List.isEmpty_eq_false_iff]
          simp only [Option.some.injEq, exists_eq_left', hSlot, true_and, hSome]
          cases (c.viable.filter fun o => o.takes alive position param a mode).isEmpty <;> simp

/-- What an argument that is bound does to the call. -/
theorem bind_eq_of_none {alive : Handle → Bool} {c : PendingCall} {param : Option String}
    {a : Argument} {mode : PassMode} {position : Nat}
    (h : (c.bind alive param a mode).2 = none) (hPosition : c.position? param = some position) :
    (c.bind alive param a mode).1 =
      { c with
        viable := c.viable.filter fun o => o.takes alive position param a mode
        slots := c.slots.set position (some a)
        next := position + 1 } := by
  unfold bind at h ⊢
  simp only [hPosition] at h ⊢
  split at h
  · cases h
  · rename_i hFree
    rw [if_neg hFree]
    split at h
    · cases h
    · rename_i hViable
      rw [if_neg hViable]

/-- A call has failed once an argument was refused, and stays so. -/
theorem bind_failed (alive : Handle → Bool) (c : PendingCall) (param : Option String)
    (a : Argument) (mode : PassMode) :
    (c.bind alive param a mode).1.failed =
      (c.failed || (c.bind alive param a mode).2.isSome) := by
  unfold bind
  cases c.position? param with
  | none => simp
  | some position =>
      dsimp only
      split
      · simp
      · split <;> simp

theorem bind_viable_subset (alive : Handle → Bool) (c : PendingCall) (param : Option String)
    (a : Argument) (mode : PassMode) : (c.bind alive param a mode).1.viable ⊆ c.viable := by
  rcases bind_cases alive c param a mode with ⟨-, h⟩ | ⟨position, -, -, h⟩
  · exact h
  · rw [h]
    exact List.filter_sublist.subset

/-- What is bound after one bind was bound before, or is the new argument at a position where all
overloads that are left take it. -/
theorem slot?_bind {alive : Handle → Bool} {c : PendingCall} {param : Option String}
    {a other : Argument} {mode : PassMode} {position : Nat}
    (h : (c.bind alive param a mode).1.slot? position = some other) :
    c.slot? position = some other ∨
      other = a ∧ ∀ o ∈ (c.bind alive param a mode).1.viable,
        o.takes alive position param a mode = true := by
  unfold slot? at h ⊢
  rcases bind_cases alive c param a mode with ⟨hSlots, -⟩ | ⟨bound, -, hSlots, hViable⟩
  · rw [hSlots] at h
    exact Or.inl h
  · rw [hSlots] at h
    by_cases hHere : bound = position
    · -- The slot was free, so what stands in it now is the argument itself.
      subst hHere
      rw [List.getElem?_set_self'] at h
      cases hOld : c.slots[bound]? with
      | none => rw [hOld] at h; cases h
      | some old =>
          rw [hOld] at h
          refine Or.inr ⟨(Option.some.inj h).symm, fun o ho => ?_⟩
          rw [hViable, List.mem_filter] at ho
          exact ho.2
    · rw [List.getElem?_set_ne hHere] at h
      exact Or.inl h

theorem init_slot? (name : String) (overloads : List Overload) (position : Nat) :
    (init name overloads).slot? position = none := by
  unfold slot? init
  simp only [List.getElem?_replicate]
  split <;> rfl

theorem assignment_getElem? (c : PendingCall) (o : Overload) (position : Nat) :
    (c.assignment o)[position]? =
      o.signature.params[position]?.map fun p => (p, c.slot? position) := by
  unfold assignment
  rw [List.getElem?_map, List.getElem?_zipIdx, Option.map_map]
  simp only [Function.comp_def, Nat.zero_add]

/-- A call that finishes runs a viable overload whose required parameters are all bound, on the
arguments in its slots and the defaults of the other parameters, and writes back to the variables
behind its by-reference arguments. -/
theorem finish_eq_ok {c : PendingCall} {bound : BoundCall} (h : c.finish = .ok bound) :
    bound.overload ∈ c.viable ∧ c.missing? bound.overload = none ∧
      bound.args = Args.ofCells ((c.assignment bound.overload).map fun (p, a) => cellFor p a) ∧
      bound.targets = (c.assignment bound.overload).map fun (p, a) => variableFor p a := by
  unfold finish at h
  split at h
  · cases h
  · split at h
    · rename_i o hFind
      cases h
      refine ⟨List.mem_of_find?_eq_some hFind, ?_, rfl, rfl⟩
      simpa using List.find?_some hFind
    · split at h <;> cases h

end PendingCall
end CellMachine
