import CellMachine.Proofs.Binding

/-!
# Arguments bound by position

Arguments that are bound by position go to the positions from the first on, and each of them
narrows the viable overloads.  Main statements: after any number of such binds the viable overloads
are those that take all the arguments at their positions, in the order they were registered in
(`bindAll?_positional`), and the binds all succeed exactly if there is such an overload
(`bindAll?_isSome_iff`).

Which of the viable overloads a call goes to is NOT decided here: that also depends on which of
their parameters are required.
-/

namespace CellMachine

/-- One argument that is bound by position, with its mode and the objects that are alive then. -/
structure Binding where
  argument : Argument
  mode : PassMode
  alive : Handle → Bool

/-- Whether an overload takes an argument at a position. -/
def Overload.takesAt (o : Overload) (position : Nat) (b : Binding) : Bool :=
  o.takes b.alive position none b.argument b.mode

/-- Whether an overload takes all the arguments, the first at its first position. -/
def Overload.takesAll (o : Overload) (bound : List Binding) : Bool :=
  bound.zipIdx.all fun (b, position) => o.takesAt position b

namespace Overload

@[simp] theorem takesAll_nil (o : Overload) : o.takesAll [] = true := rfl

theorem takesAll_append_singleton (o : Overload) (bound : List Binding) (b : Binding) :
    o.takesAll (bound ++ [b]) = (o.takesAll bound && o.takesAt bound.length b) := by
  simp [takesAll, List.zipIdx_append]

/-- What takes more arguments takes the first of them. -/
theorem takesAll_of_append {o : Overload} {bound more : List Binding}
    (h : o.takesAll (bound ++ more) = true) : o.takesAll bound = true := by
  simp only [takesAll, List.zipIdx_append, List.all_append, Bool.and_eq_true] at h
  exact h.1

theorem takesAt_of_takesAll {o : Overload} {bound : List Binding} (h : o.takesAll bound = true)
    {position : Nat} {b : Binding} (hb : bound[position]? = some b) :
    o.takesAt position b = true := by
  have hMem : (b, position) ∈ bound.zipIdx := List.mk_mem_zipIdx_iff_getElem?.2 hb
  exact List.all_eq_true.1 h _ hMem

/-- The parameter that takes an argument at a position. -/
theorem exists_param_of_takesAt {o : Overload} {position : Nat} {b : Binding}
    (h : o.takesAt position b = true) :
    ∃ p, o.signature.params[position]? = some p ∧
      p.takes b.alive o.signature.flags.listable b.argument b.mode = true := by
  obtain ⟨p, hParam, -, hTakes⟩ := takes_eq_true_iff.1 h
  exact ⟨p, hParam, hTakes⟩

theorem lt_arity_of_takesAt {o : Overload} {position : Nat} {b : Binding}
    (h : o.takesAt position b = true) : position < o.signature.arity := by
  obtain ⟨p, hParam, -⟩ := exists_param_of_takesAt h
  exact (List.getElem?_eq_some_iff.1 hParam).1

/-- No overload takes more arguments than it has parameters. -/
theorem length_le_arity_of_takesAll {o : Overload} {bound : List Binding}
    (h : o.takesAll bound = true) : bound.length ≤ o.signature.arity := by
  refine Nat.le_of_not_lt fun hPosition => ?_
  have hTaken := takesAt_of_takesAll h (List.getElem?_eq_getElem hPosition)
  exact Nat.lt_irrefl _ (lt_arity_of_takesAt hTaken)

end Overload

namespace PendingCall

/-- Bind arguments by position one after the other, as long as none is refused. -/
def bindAll? (c : PendingCall) : List Binding → Option PendingCall
  | [] => some c
  | b :: rest =>
    match c.bind b.alive none b.argument b.mode with
    | (bound, none) => bound.bindAll? rest
    | (_, some _) => none

/-- The call is opened over the overloads, and the given arguments are bound to it by position. -/
structure Positional (overloads : List Overload) (bound : List Binding) (c : PendingCall) :
    Prop where
  viable : c.viable = overloads.filter fun o => o.takesAll bound
  slots : ∀ position, c.slot? position = bound[position]?.map Binding.argument
  next : c.next = bound.length
  failed : c.failed = false
  /-- There is a slot for every parameter. -/
  room : ∀ o ∈ overloads, o.signature.arity ≤ c.slots.length

theorem le_foldl_max {n start : Nat} {sizes : List Nat} (h : n ≤ start ∨ n ∈ sizes) :
    n ≤ sizes.foldl max start := by
  induction sizes generalizing start with
  | nil => simpa using h
  | cons size rest ih =>
      refine ih ?_
      rcases h with hStart | hMem
      · exact Or.inl (by omega)
      · rcases List.mem_cons.1 hMem with rfl | hRest
        · exact Or.inl (by omega)
        · exact Or.inr hRest

theorem init_positional (name : String) (overloads : List Overload) :
    Positional overloads [] (init name overloads) where
  viable := (List.filter_eq_self.2 fun _ _ => rfl).symm
  slots := fun position => by simp [init_slot?]
  next := rfl
  failed := rfl
  room := fun o ho => by
    have hLe : o.signature.arity ≤ (overloads.map fun o => o.signature.arity).foldl max 0 :=
      le_foldl_max (Or.inr (List.mem_map_of_mem ho))
    simpa [init] using hLe

variable {overloads : List Overload} {bound : List Binding} {c : PendingCall}

/-- What is left viable by one more argument. -/
theorem Positional.viable_filter (h : Positional overloads bound c) (b : Binding) :
    (c.viable.filter fun o => o.takes b.alive c.next none b.argument b.mode) =
      overloads.filter fun o => o.takesAll (bound ++ [b]) := by
  rw [h.viable, h.next, List.filter_filter]
  congr 1
  funext o
  rw [Overload.takesAll_append_singleton, Bool.and_comm]
  rfl

/-- The slot that the next argument goes to is free, so whether it is bound depends on the
overloads only. -/
theorem Positional.bind_eq (h : Positional overloads bound c) (b : Binding) :
    c.bind b.alive none b.argument b.mode =
      let viable := overloads.filter fun o => o.takesAll (bound ++ [b])
      if viable.isEmpty then
        ({ c with viable := viable, failed := true }, some (c.rejection b.alive b.argument b.mode))
      else
        ({ c with
          viable := viable
          slots := c.slots.set c.next (some b.argument)
          next := c.next + 1 }, none) := by
  have hFree : c.slot? c.next = none := by simp [h.slots, h.next]
  unfold bind
  simp only [position?, hFree, h.viable_filter b]
  rfl

/-- An argument that an overload takes behind the ones it has taken is bound. -/
theorem Positional.bind (h : Positional overloads bound c) {b : Binding} {o : Overload}
    (ho : o ∈ overloads) (hTakes : o.takesAll (bound ++ [b]) = true) :
    ∃ c', c.bind b.alive none b.argument b.mode = (c', none) ∧
      Positional overloads (bound ++ [b]) c' := by
  have hViable : o ∈ overloads.filter fun o => o.takesAll (bound ++ [b]) :=
    List.mem_filter.2 ⟨ho, hTakes⟩
  have hSome : (overloads.filter fun o => o.takesAll (bound ++ [b])).isEmpty = false := by
    simpa using List.ne_nil_of_mem hViable
  have hRoom : bound.length < c.slots.length := by
    rw [Overload.takesAll_append_singleton, Bool.and_eq_true] at hTakes
    exact Nat.lt_of_lt_of_le (Overload.lt_arity_of_takesAt hTakes.2) (h.room o ho)
  refine ⟨_, by rw [h.bind_eq b]; simp only [hSome]; rfl, ?_⟩
  refine ⟨rfl, fun position => ?_, by simp [h.next], h.failed, by simpa using h.room⟩
  have hOld := h.slots position
  unfold slot? at hOld ⊢
  simp only [h.next]
  by_cases hHere : position = bound.length
  · subst hHere
    simp [hRoom]
  · rw [List.getElem?_set_ne (by omega), hOld]
    by_cases hBelow : position < bound.length
    · rw [List.getElem?_append_left hBelow]
    · rw [List.getElem?_append_right (by omega), List.getElem?_eq_none (by omega),
        List.getElem?_eq_none (by simp only [List.length_singleton]; omega)]

/-- An argument that no overload takes behind the ones it has taken is refused. -/
theorem Positional.bind_refused (h : Positional overloads bound c) {b : Binding}
    (hNone : ∀ o ∈ overloads, o.takesAll (bound ++ [b]) = false) :
    ∃ c' d, c.bind b.alive none b.argument b.mode = (c', some d) := by
  have hEmpty : (overloads.filter fun o => o.takesAll (bound ++ [b])) = [] := by
    simpa [List.filter_eq_nil_iff] using hNone
  rw [h.bind_eq b]
  simp only [hEmpty]
  exact ⟨_, _, rfl⟩

/-- What one positional bind does, in terms of the overloads. -/
theorem Positional.bind_cases (h : Positional overloads bound c) (b : Binding) :
    (∃ c', c.bind b.alive none b.argument b.mode = (c', none) ∧
        Positional overloads (bound ++ [b]) c' ∧
        ∃ o ∈ overloads, o.takesAll (bound ++ [b]) = true) ∨
      (∃ c' d, c.bind b.alive none b.argument b.mode = (c', some d)) ∧
        ∀ o ∈ overloads, o.takesAll (bound ++ [b]) = false := by
  by_cases hTaken : ∃ o ∈ overloads, o.takesAll (bound ++ [b]) = true
  · obtain ⟨o, ho, hTakes⟩ := hTaken
    obtain ⟨c', hBind, hPositional⟩ := h.bind ho hTakes
    exact Or.inl ⟨c', hBind, hPositional, o, ho, hTakes⟩
  · have hNone : ∀ o ∈ overloads, o.takesAll (bound ++ [b]) = false := by simpa using hTaken
    exact Or.inr ⟨h.bind_refused hNone, hNone⟩

theorem bindAll?_positional {bindings : List Binding} {c' : PendingCall}
    (h : Positional overloads bound c) (hBind : c.bindAll? bindings = some c') :
    Positional overloads (bound ++ bindings) c' := by
  induction bindings generalizing bound c with
  | nil =>
      cases hBind
      simpa using h
  | cons b rest ih =>
      rw [bindAll?] at hBind
      rcases h.bind_cases b with ⟨next, hNext, hPositional, -⟩ | ⟨⟨next, d, hRefused⟩, -⟩
      · rw [hNext] at hBind
        simpa using ih hPositional hBind
      · rw [hRefused] at hBind
        cases hBind

/-- Binding some arguments succeeds if one overload takes all of them, and it takes the viable
overloads of the whole for that: progress is never lost on the way. -/
theorem bindAll?_isSome_iff (h : Positional overloads bound c) (bindings : List Binding) :
    (c.bindAll? bindings).isSome = true ↔
      bindings = [] ∨ ∃ o ∈ overloads, o.takesAll (bound ++ bindings) = true := by
  induction bindings generalizing bound c with
  | nil => simp [bindAll?]
  | cons b rest ih =>
      rw [bindAll?]
      have hAssoc : bound ++ b :: rest = bound ++ [b] ++ rest := by simp
      rcases h.bind_cases b with
        ⟨next, hNext, hPositional, o, ho, hTakes⟩ | ⟨⟨next, d, hRefused⟩, hNone⟩
      · rw [hNext, hAssoc]
        simp only [reduceCtorEq, false_or]
        refine (ih hPositional).trans ⟨?_, Or.inr⟩
        rintro (rfl | hTaken)
        · exact ⟨o, ho, by simpa using hTakes⟩
        · exact hTaken
      · rw [hRefused, hAssoc]
        simp only [Option.isSome_none, Bool.false_eq_true, reduceCtorEq, false_or, false_iff]
        rintro ⟨o, ho, hTakes⟩
        have hFalse := hNone o ho
        rw [Overload.takesAll_of_append hTakes] at hFalse
        cases hFalse

end PendingCall
end CellMachine
