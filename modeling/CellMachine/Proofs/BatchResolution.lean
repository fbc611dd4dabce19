import CellMachine.Proofs.Placement

/-!
# Binding one by one and matching at once

A call narrows its overloads with each argument.  The same overloads could be found by collecting
all arguments first and matching them at once.  Main statement: for arguments that are bound by
position the two agree, in the viable overloads, in the first argument that is refused, and in the
overload that the call finishes with.

For arguments under names there is NO such statement, since the position that a name stands for
depends on what was bound before.
-/

namespace CellMachine

/-- Whether no parameter from a position on is required. -/
def Signature.isOptionalFrom (s : Signature) (position : Nat) : Bool :=
  (s.params.drop position).all fun p => !p.isRequired

theorem Signature.isOptionalFrom_eq_true_iff {s : Signature} {start : Nat} :
    s.isOptionalFrom start = true ↔
      ∀ (position : Nat) (p : Param), s.params[position]? = some p → p.isRequired = true →
        position < start := by
  unfold isOptionalFrom
  simp only [List.all_eq_true, Bool.not_eq_true', List.mem_iff_getElem?, List.getElem?_drop]
  constructor
  · intro h position p hParam hRequired
    refine Nat.lt_of_not_le fun hFrom => ?_
    have hOptional := h p ⟨position - start, by rwa [Nat.add_sub_cancel' hFrom]⟩
    rw [hRequired] at hOptional
    cases hOptional
  · rintro h p ⟨index, hParam⟩
    cases hRequired : p.isRequired with
    | false => rfl
    | true =>
        have hBefore := h _ p hParam hRequired
        omega

namespace PendingCall

variable {overloads : List Overload} {bound : List Binding} {c : PendingCall}

theorem isComplete_iff {o : Overload} :
    c.isComplete o = true ↔
      ∀ (position : Nat) (p : Param), o.signature.params[position]? = some p →
        p.isRequired = true → (c.slot? position).isSome = true := by
  refine ⟨fun h position p => slot?_isSome_of_isComplete h, fun h => ?_⟩
  rw [isComplete, missing?, Option.isNone_map, Option.isNone_iff_eq_none, List.find?_eq_none]
  rintro ⟨p, slot⟩ hEntry
  obtain ⟨position, hPosition⟩ := List.mem_iff_getElem?.1 hEntry
  rw [assignment_getElem?, Option.map_eq_some_iff] at hPosition
  obtain ⟨found, hParam, hSame⟩ := hPosition
  cases hSame
  intro hMissing
  obtain ⟨hRequired, hNone⟩ := Bool.and_eq_true_iff.1 hMissing
  have hSome := h position p hParam hRequired
  rw [Option.isNone_iff_eq_none.1 hNone] at hSome
  cases hSome

/-- Arguments that are bound by position leave an overload complete if it requires none behind
them. -/
theorem Positional.isComplete_eq (h : Positional overloads bound c) (o : Overload) :
    c.isComplete o = o.signature.isOptionalFrom bound.length := by
  have hSlot (position : Nat) : (c.slot? position).isSome = true ↔ position < bound.length := by
    rw [h.slots, Option.isSome_map]
    simp
  rw [Bool.eq_iff_iff, isComplete_iff, Signature.isOptionalFrom_eq_true_iff]
  simp only [hSlot]

/-- The call finishes with the first overload that takes all arguments and requires no more. -/
theorem Positional.finish_overload (h : Positional overloads bound c) :
    c.finish.toOption.map BoundCall.overload = overloads.find? fun o =>
      o.takesAll bound && o.signature.isOptionalFrom bound.length := by
  have hBatch : (c.viable.filter c.isComplete).head? = overloads.find? fun o =>
      o.takesAll bound && o.signature.isOptionalFrom bound.length := by
    rw [h.viable, List.filter_filter, List.head?_filter]
    congr 1
    funext o
    rw [h.isComplete_eq, Bool.and_comm]
  rw [← hBatch]
  cases hFinish : c.finish with
  | ok call =>
      obtain ⟨o, hFirst, rfl⟩ := (finish_eq_ok_iff h.failed).1 hFinish
      rw [hFirst]
      rfl
  | error d =>
      cases hFirst : (c.viable.filter c.isComplete).head? with
      | none => rfl
      | some o =>
          rw [(finish_eq_ok_iff h.failed).2 ⟨o, hFirst, rfl⟩] at hFinish
          cases hFinish

theorem Positional.of_bindAll? (h : Positional overloads [] c) {bindings : List Binding}
    {c' : PendingCall} (hBound : c.bindAll? bindings = some c') :
    Positional overloads bindings c' := by
  simpa using bindAll?_positional h hBound

/-- Arguments are bound exactly if some overload takes the first of them at every step. -/
theorem bindAll?_take_isSome_iff (h : Positional overloads [] c) {bindings : List Binding}
    {count : Nat} (hCount : count ≤ bindings.length) :
    (c.bindAll? (bindings.take count)).isSome = true ↔
      ∀ k, 0 < k → k ≤ count → ∃ o ∈ overloads, o.takesAll (bindings.take k) = true := by
  rw [bindAll?_isSome_iff h, List.nil_append]
  constructor
  · rintro hSome k hPos hLe
    obtain ⟨o, ho, hTakes⟩ : ∃ o ∈ overloads, o.takesAll (bindings.take count) = true :=
      hSome.resolve_left fun hNil => by
        have hLength := congrArg List.length hNil
        rw [List.length_take, List.length_nil] at hLength
        omega
    -- The overload that takes all of them takes the first of them too.
    have hSplit : bindings.take count = bindings.take k ++ (bindings.take count).drop k := by
      conv => lhs; rw [← List.take_append_drop k (bindings.take count)]
      rw [List.take_take, Nat.min_eq_left hLe]
    rw [hSplit] at hTakes
    exact ⟨o, ho, Overload.takesAll_of_append hTakes⟩
  · intro hTaken
    cases count with
    | zero => exact Or.inl rfl
    | succ count => exact Or.inr (hTaken (count + 1) (Nat.succ_pos count) (Nat.le_refl _))

/-- The first argument that is refused is the first with which no overload takes all so far. -/
theorem first_refused_iff (h : Positional overloads [] c) {bindings : List Binding} {k : Nat}
    {b : Binding} (hb : bindings[k]? = some b) :
    (∃ c', c.bindAll? (bindings.take k) = some c' ∧
        (c'.bind b.alive none b.argument b.mode).2.isSome = true) ↔
      (∀ o ∈ overloads, o.takesAll (bindings.take (k + 1)) = false) ∧
        ∀ j, 0 < j → j ≤ k → ∃ o ∈ overloads, o.takesAll (bindings.take j) = true := by
  have hNext : bindings.take (k + 1) = bindings.take k ++ [b] := by
    rw [List.take_add_one, hb]
    rfl
  have hBefore := (List.getElem?_eq_some_iff.1 hb).1
  rw [hNext, ← bindAll?_take_isSome_iff h (Nat.le_of_lt hBefore), and_comm,
    Option.isSome_iff_exists]
  constructor
  · rintro ⟨c', hBound, hRefused⟩
    refine ⟨⟨c', hBound⟩, ?_⟩
    rcases (h.of_bindAll? hBound).bind_cases b with ⟨next, hBind, -⟩ | ⟨-, hNone⟩
    · rw [hBind] at hRefused
      cases hRefused
    · exact hNone
  · rintro ⟨⟨c', hBound⟩, hNone⟩
    obtain ⟨next, d, hRefused⟩ := (h.of_bindAll? hBound).bind_refused hNone
    exact ⟨c', hBound, by rw [hRefused]; rfl⟩

end PendingCall

/-- Progressive binding equals batch resolution.  If some arguments are bound by position and none
is refused, the viable overloads are those that take all of them, in the order of registration, and
the call finishes with the first of these that requires no more.  The first argument to be refused
is the first with which no overload takes all so far.  Whatever is refused, an argument is only
stored in a slot that exists, and there is one for every parameter that is looked at in the end. -/
theorem positional_binding_is_batch (name : String) (overloads : List Overload)
    (bindings : List Binding) :
    (∀ c, (PendingCall.init name overloads).bindAll? bindings = some c →
      (c.viable = overloads.filter fun o => o.takesAll bindings) ∧
      c.finish.toOption.map BoundCall.overload = overloads.find? fun o =>
        o.takesAll bindings && o.signature.isOptionalFrom bindings.length) ∧
    (∀ (k : Nat) (b : Binding), bindings[k]? = some b →
      ((∃ c, (PendingCall.init name overloads).bindAll? (bindings.take k) = some c ∧
          (c.bind b.alive none b.argument b.mode).2.isSome = true) ↔
        (∀ o ∈ overloads, o.takesAll (bindings.take (k + 1)) = false) ∧
          ∀ j, 0 < j → j ≤ k → ∃ o ∈ overloads, o.takesAll (bindings.take j) = true)) ∧
    let c := (PendingCall.init name overloads).serveAll (bindings.map Binding.byPosition)
    (∀ b : Binding, (c.bind b.alive none b.argument b.mode).2 = none → c.next < c.slots.length) ∧
      ∀ o ∈ c.viable, o.signature.arity ≤ c.slots.length := by
  have hInit := PendingCall.init_positional name overloads
  have hRoom := (PendingCall.init_roomy name overloads).serveAll (bindings.map Binding.byPosition)
  refine ⟨fun c hBound => ?_, fun k b hb => PendingCall.first_refused_iff hInit hb, ?_, hRoom⟩
  · have hPositional := hInit.of_bindAll? hBound
    exact ⟨hPositional.viable, hPositional.finish_overload⟩
  · intro b hBound
    exact hRoom.position_lt (r := b.byPosition) hBound rfl

/-! ### Overloads of different length -/

/-- An overload of one name for the given parameters. -/
def stamp (params : List Param) (listable : Bool) : Overload where
  signature := ⟨"Stamp", params, .any, ⟨listable, false⟩⟩
  body := .user #[]

/-- The optional parameter stands before the required ones. -/
def stampLate : Overload :=
  stamp [{ Param.byValue "x" .integer with default := some (.integer 1) }, .byValue "y" .text,
    .byValue "z" .integer] false

/-- The optional parameter stands behind the required one. -/
def stampEarly : Overload :=
  stamp [.byValue "x" .integer,
    { Param.byReference "y" .text with default := some (.text "") }] true

def stamps : List Overload := [stamp [.byValue "x" .integer] false, stampLate, stampEarly]

/-- An integer, the text of a variable, and a truth value that no overload takes behind them. -/
def stampArguments : List Binding :=
  [ ⟨.ofValue (.integer 7), .value, fun _ => true⟩,
    ⟨.ofVariable "t" (.text "seven"), .automatic, fun _ => true⟩,
    ⟨.ofValue (.boolean true), .automatic, fun _ => true⟩ ]

theorem stamp_binding_is_batch :
    (∃ c, (PendingCall.init "Stamp" stamps).bindAll? (stampArguments.take 2) = some c ∧
        c.viable = [stampLate, stampEarly] ∧
        c.finish.toOption.map BoundCall.overload = some stampEarly) ∧
      ∃ c, (PendingCall.init "Stamp" stamps).bindAll? (stampArguments.take 2) = some c ∧
        (c.bind (fun _ => true) none (.ofValue (.boolean true)) .automatic).2.isSome = true := by
  constructor
  · have hSome : ((PendingCall.init "Stamp" stamps).bindAll?
        (stampArguments.take 2)).isSome = true := rfl
    obtain ⟨c, hBound⟩ := Option.isSome_iff_exists.1 hSome
    exact ⟨c, hBound,
      (positional_binding_is_batch "Stamp" stamps (stampArguments.take 2)).1 c hBound⟩
  · have hFirst := (positional_binding_is_batch "Stamp" stamps stampArguments).2.1 2 _ rfl
    refine hFirst.2 ⟨by decide, fun j hPos hLe => ⟨stampEarly, by simp [stamps], ?_⟩⟩
    obtain rfl | rfl : j = 1 ∨ j = 2 := by omega
    · rfl
    · rfl

end CellMachine
