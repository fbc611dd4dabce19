import CellMachine.Proofs.Placement

/-!
# Arguments bound under a name

The slots of a call are shared by all its overloads, so a name has to stand for one position: that
which the first viable overload with such a parameter has it at.  Main statement: the overloads that
could take an argument under a name all stay viable exactly if each of them could take it at that
position.

In general they do NOT, and then the argument may be refused altogether although an overload could
take it.  Whether it is depends on the order of registration.
-/

namespace CellMachine

def Binding.named (b : Binding) (param : String) : Request := { b with param := some param }

namespace PendingCall

/-- The overload has a parameter of the given name at a position where nothing is bound yet, and
takes the argument for it. -/
def CouldTakeAt (c : PendingCall) (param : String) (b : Binding) (position : Nat) (o : Overload) :
    Prop :=
  c.slot? position = none ∧ o.takes b.alive position (some param) b.argument b.mode = true

/-- The overload has some parameter of the given name that is not bound yet, and takes the argument
for it. -/
def CouldTake (c : PendingCall) (param : String) (b : Binding) (o : Overload) : Prop :=
  ∃ position, c.CouldTakeAt param b position o

variable {c : PendingCall} {param : String} {b : Binding}

/-- An argument under a name is bound exactly if some viable overload could take it at the position
that the name stands for. -/
theorem serve_named_eq_none_iff :
    (c.serve (b.named param)).2 = none ↔ ∃ position, c.position? (some param) = some position ∧
      ∃ o ∈ c.viable, c.CouldTakeAt param b position o := by
  refine bind_eq_none_iff.trans ⟨?_, ?_⟩
  · rintro ⟨position, hPosition, hFree, o, ho, hTakes⟩
    exact ⟨position, hPosition, o, ho, hFree, hTakes⟩
  · rintro ⟨position, hPosition, o, ho, hFree, hTakes⟩
    exact ⟨position, hPosition, hFree, o, ho, hTakes⟩

/-- The overloads that stay viable are those that could take the argument at that position. -/
theorem mem_viable_serve_named {position : Nat} {o : Overload}
    (hBound : (c.serve (b.named param)).2 = none)
    (hPosition : c.position? (some param) = some position) :
    o ∈ (c.serve (b.named param)).1.viable ↔ o ∈ c.viable ∧ c.CouldTakeAt param b position o := by
  have hFree := (free_of_serve hBound hPosition).1
  have hNext := bind_eq_of_none hBound hPosition
  rw [serve, hNext]
  exact List.mem_filter.trans (and_congr_right fun _ => (and_iff_right hFree).symm)

end PendingCall

/-- Where some viable overload could take an argument under a name: it is bound, and all overloads
that could take it stay viable, exactly if all of these could take it at the position that the name
stands for. -/
theorem named_binding_keeps_takers_iff (c : PendingCall) (param : String) (b : Binding)
    (hTaker : ∃ o ∈ c.viable, c.CouldTake param b o) :
    ((c.serve (b.named param)).2 = none ∧
        ∀ o ∈ c.viable, c.CouldTake param b o → o ∈ (c.serve (b.named param)).1.viable) ↔
      ∃ position, c.position? (some param) = some position ∧
        ∀ o ∈ c.viable, c.CouldTake param b o → c.CouldTakeAt param b position o := by
  constructor
  · rintro ⟨hBound, hKept⟩
    obtain ⟨position, hPosition, -⟩ := PendingCall.serve_named_eq_none_iff.1 hBound
    refine ⟨position, hPosition, fun o ho hTakes => ?_⟩
    exact ((PendingCall.mem_viable_serve_named hBound hPosition).1 (hKept o ho hTakes)).2
  · rintro ⟨position, hPosition, hSame⟩
    obtain ⟨taker, hViable, hTakes⟩ := hTaker
    have hBound : (c.serve (b.named param)).2 = none :=
      PendingCall.serve_named_eq_none_iff.2
        ⟨position, hPosition, taker, hViable, hSame taker hViable hTakes⟩
    refine ⟨hBound, fun o ho hTakes => ?_⟩
    exact (PendingCall.mem_viable_serve_named hBound hPosition).2 ⟨ho, hSame o ho hTakes⟩

/-! ### One name at two positions -/

/-- An overload whose second parameter is a text `y`. -/
def textNamesake : Overload where
  signature := ⟨"Pick", [.byValue "x" .integer, .byValue "y" .text], .integer, .plain⟩
  body := .user #[⟨.push (.integer 1), 1⟩]

/-- An overload whose only parameter is an integer `y`. -/
def integerNamesake : Overload where
  signature := ⟨"Pick", [.byValue "y" .integer], .integer, .plain⟩
  body := .user #[⟨.push (.integer 2), 1⟩]

/-- An argument that only the second of these overloads takes under the name. -/
def namesakeArgument : Binding := ⟨.ofValue (.integer 5), .automatic, fun _ => true⟩

/-- The call over both overloads, the one that takes the argument registered first. -/
def takerFirst : PendingCall := .init "Pick" [integerNamesake, textNamesake]

/-- The call over both overloads, the one that takes the argument registered last. -/
def takerLast : PendingCall := .init "Pick" [textNamesake, integerNamesake]

theorem named_binding_keeps_first_taker :
    (∃ o ∈ takerFirst.viable, takerFirst.CouldTake "y" namesakeArgument o) ∧
      (takerFirst.serve (namesakeArgument.named "y")).2 = none ∧
      ∀ o ∈ takerFirst.viable, takerFirst.CouldTake "y" namesakeArgument o →
        o ∈ (takerFirst.serve (namesakeArgument.named "y")).1.viable := by
  have hTaker : ∃ o ∈ takerFirst.viable, takerFirst.CouldTake "y" namesakeArgument o :=
    ⟨integerNamesake, List.mem_cons_self, 0, rfl, rfl⟩
  refine ⟨hTaker, (named_binding_keeps_takers_iff takerFirst "y" namesakeArgument hTaker).2
    ⟨0, rfl, fun o ho hTakes => ?_⟩⟩
  rcases List.mem_pair.1 ho with rfl | rfl
  · exact ⟨rfl, rfl⟩
  · -- Its first parameter has another name and the second another type.
    obtain ⟨position, -, hTakes⟩ := hTakes
    obtain ⟨p, hParam, hName, hTakes⟩ := Overload.takes_eq_true_iff.1 hTakes
    match position with
    | 0 =>
        cases hParam
        exact absurd (hName "y" rfl) (by decide)
    | 1 =>
        cases hParam
        cases hTakes
    | position + 2 => cases hParam

theorem named_binding_refuses_taker :
    takerLast.viable =
        (Registry.ofAttempts [textNamesake, integerNamesake]).overloads "Pick" ∧
      (∃ o ∈ takerLast.viable, takerLast.CouldTake "y" namesakeArgument o) ∧
      (takerLast.serve (namesakeArgument.named "y")).2 = some (.noMatchingOverload "Pick") :=
  ⟨rfl, ⟨integerNamesake, List.mem_cons_of_mem _ List.mem_cons_self, 0, rfl, rfl⟩, rfl⟩

end CellMachine
