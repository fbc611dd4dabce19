import CellMachine.Proofs.Unambiguity

/-!
# Where bound arguments end up

Arguments are bound under names and by position in any mix.  Main statement: as long as none is
refused, every argument keeps the slot that it was bound to, no two share one, and the overload that
the call finishes with has a parameter there, of the name that was asked for if there was one.  Its
other parameters are optional and get their defaults.  A call with a refused argument does not
finish.

Which slot a name stands for is NOT fixed by the name: it is the position that the first viable
overload with such a parameter has it at, which depends on what was bound before.
-/

namespace CellMachine

/-- A request to bind an argument, under the name of a parameter or by position. -/
structure Request extends Binding where
  param : Option String

def Binding.byPosition (b : Binding) : Request := { b with param := none }

namespace PendingCall

/-- What a request does to the call, with a diagnostic if the argument is refused. -/
def serve (c : PendingCall) (r : Request) : PendingCall × Option Diagnostic :=
  c.bind r.alive r.param r.argument r.mode

/-- The call after some requests, whether or not their arguments are refused. -/
def serveAll (c : PendingCall) (requests : List Request) : PendingCall :=
  requests.foldl (fun c r => (c.serve r).1) c

/-- The positions that the arguments of some requests are bound to, as long as none is refused. -/
def placements? (c : PendingCall) : List Request → Option (List Nat)
  | [] => some []
  | r :: rest =>
    match c.position? r.param, c.serve r with
    | some position, (next, none) => (next.placements? rest).map (position :: ·)
    | _, _ => none

/-- Some argument is refused when the requests are served one after the other. -/
def Refuses (c : PendingCall) (requests : List Request) : Prop :=
  ∃ before r after, requests = before ++ r :: after ∧
    ((c.serveAll before).serve r).2.isSome = true

end PendingCall

/-- The call passes on the arguments of some requests at the given positions, each to a parameter of
the name that was asked for, and defaults at all others.  It writes back to the variables that were
given for by-reference parameters. -/
structure BoundCall.Holds (placed : List (Request × Nat)) (call : BoundCall) : Prop where
  args : call.args.cells.length = call.overload.signature.arity
  targets : call.targets.length = call.overload.signature.arity
  given : ∀ r position, (r, position) ∈ placed →
    ∃ p, call.overload.signature.params[position]? = some p ∧
      (∀ name, r.param = some name → p.name = name) ∧
      call.args.cells[position]? = some r.argument.cell
  omitted : ∀ position p, call.overload.signature.params[position]? = some p →
    position ∉ placed.map Prod.snd →
    ∃ default, p.default = some default ∧ call.args.cells[position]? = some default
  writes : ∀ position name, call.targets[position]? = some (some name) ↔
    ∃ p r, call.overload.signature.params[position]? = some p ∧ p.byRef = true ∧
      (r, position) ∈ placed ∧ r.argument.variableName = some name

namespace PendingCall

variable {c : PendingCall} {r : Request} {position : Nat}

@[simp] theorem serveAll_nil (c : PendingCall) : c.serveAll [] = c := rfl

@[simp] theorem serveAll_cons (c : PendingCall) (r : Request) (rest : List Request) :
    c.serveAll (r :: rest) = (c.serve r).1.serveAll rest := rfl

/-! ## Slots -/

/-- There is a slot for every parameter of a viable overload. -/
def Roomy (c : PendingCall) : Prop := ∀ o ∈ c.viable, o.signature.arity ≤ c.slots.length

theorem init_roomy (name : String) (overloads : List Overload) : (init name overloads).Roomy :=
  (init_positional name overloads).room

theorem Roomy.serve (h : c.Roomy) (r : Request) : (c.serve r).1.Roomy := by
  have hLength : (c.serve r).1.slots.length = c.slots.length := by
    rcases bind_cases r.alive c r.param r.argument r.mode with ⟨hSlots, -⟩ | ⟨_, -, hSlots, -⟩
    · exact congrArg List.length hSlots
    · exact (congrArg List.length hSlots).trans List.length_set
  intro o ho
  rw [hLength]
  exact h o (bind_viable_subset r.alive c r.param r.argument r.mode ho)

theorem Roomy.serveAll (h : c.Roomy) (requests : List Request) : (c.serveAll requests).Roomy := by
  induction requests generalizing c with
  | nil => exact h
  | cons r rest ih => exact ih (h.serve r)

/-- An argument that is bound goes to a free slot, at a position where some viable overload takes
it. -/
theorem free_of_serve (hBound : (c.serve r).2 = none)
    (hPosition : c.position? r.param = some position) :
    c.slot? position = none ∧
      ∃ o ∈ c.viable, o.takes r.alive position r.param r.argument r.mode = true := by
  obtain ⟨found, hFound, hFree, hTaker⟩ := bind_eq_none_iff.1 hBound
  obtain rfl : found = position := Option.some.inj (hFound.symm.trans hPosition)
  exact ⟨hFree, hTaker⟩

/-- The slot that an argument is stored in exists. -/
theorem Roomy.position_lt (h : c.Roomy) (hBound : (c.serve r).2 = none)
    (hPosition : c.position? r.param = some position) : position < c.slots.length := by
  obtain ⟨-, o, ho, hTakes⟩ := free_of_serve hBound hPosition
  obtain ⟨p, hParam, -⟩ := Overload.takes_eq_true_iff.1 hTakes
  exact Nat.lt_of_lt_of_le (List.getElem?_eq_some_iff.1 hParam).1 (h o ho)

/-! ## One request and its slot -/

/-- The arguments of some requests are bound at the given positions and nowhere else, and every
viable overload has parameters there, of the names that were asked for. -/
structure Placed (placed : List (Request × Nat)) (c : PendingCall) : Prop where
  kept : ∀ entry ∈ placed, c.slot? entry.2 = some entry.1.argument
  only : ∀ position a, c.slot? position = some a → position ∈ placed.map Prod.snd
  apart : (placed.map Prod.snd).Nodup
  named : ∀ entry ∈ placed, ∀ o ∈ c.viable, ∃ p, o.signature.params[entry.2]? = some p ∧
    ∀ name, entry.1.param = some name → p.name = name
  room : c.Roomy

theorem init_placed (name : String) (overloads : List Overload) :
    (init name overloads).Placed [] where
  kept := fun _ hEntry => by cases hEntry
  only := fun position a hSlot => by
    rw [init_slot?] at hSlot
    cases hSlot
  apart := List.nodup_nil
  named := fun _ hEntry => by cases hEntry
  room := init_roomy name overloads

/-- The free slots are those that were not given out. -/
theorem Placed.slot?_eq_none_iff {placed : List (Request × Nat)} (h : c.Placed placed) :
    c.slot? position = none ↔ position ∉ placed.map Prod.snd := by
  constructor
  · intro hFree hTaken
    obtain ⟨entry, hEntry, rfl⟩ := List.mem_map.1 hTaken
    rw [h.kept entry hEntry] at hFree
    cases hFree
  · intro hFree
    cases hSlot : c.slot? position with
    | none => rfl
    | some a => exact absurd (h.only position a hSlot) hFree

/-- The slots after an argument was stored in one of them. -/
theorem slot?_of_set {c' : PendingCall} {a : Argument} (hRoom : position < c.slots.length)
    (hSlots : c'.slots = c.slots.set position (some a)) (other : Nat) :
    c'.slot? other = if other = position then some a else c.slot? other := by
  unfold slot?
  rw [hSlots]
  split
  · rename_i hHere
    rw [hHere, List.getElem?_set_self hRoom]
    rfl
  · rename_i hOther
    rw [List.getElem?_set_ne (Ne.symm hOther)]

/-- An argument that is bound goes to a slot that was free, and leaves the others alone. -/
theorem Placed.serve {placed : List (Request × Nat)} (h : c.Placed placed)
    (hBound : (c.serve r).2 = none) (hPosition : c.position? r.param = some position) :
    (c.serve r).1.Placed (placed ++ [(r, position)]) := by
  have hNext : (c.serve r).1 = _ := bind_eq_of_none hBound hPosition
  have hSlot := slot?_of_set (h.room.position_lt hBound hPosition) (congrArg slots hNext)
  have hNew : position ∉ placed.map Prod.snd :=
    h.slot?_eq_none_iff.1 (free_of_serve hBound hPosition).1
  refine ⟨fun entry hEntry => ?_, fun other a hOther => ?_, ?_, fun entry hEntry o ho => ?_,
    h.room.serve r⟩
  · rw [hSlot]
    rcases List.mem_append.1 hEntry with hOld | hLast
    · have hOther : entry.2 ≠ position := fun hSame => hNew (hSame ▸ List.mem_map_of_mem hOld)
      rw [if_neg hOther]
      exact h.kept entry hOld
    · rw [List.mem_singleton.1 hLast, if_pos rfl]
  · rw [hSlot] at hOther
    rw [List.map_append, List.mem_append]
    split at hOther
    · rename_i hHere
      exact Or.inr (by simp [hHere])
    · exact Or.inl (h.only other a hOther)
  · rw [List.map_append, List.map_singleton]
    refine List.nodup_append.2 ⟨h.apart, by simp, fun other hOther last hLast hSame => ?_⟩
    obtain rfl : other = position := hSame.trans (List.mem_singleton.1 hLast)
    exact hNew hOther
  · rw [hNext] at ho
    obtain ⟨hOld, hTakes⟩ := List.mem_filter.1 ho
    rcases List.mem_append.1 hEntry with hBefore | hLast
    · exact h.named entry hBefore o hOld
    · obtain ⟨p, hParam, hName, -⟩ := Overload.takes_eq_true_iff.1 hTakes
      rw [List.mem_singleton.1 hLast]
      exact ⟨p, hParam, hName⟩

/-! ## A run of requests -/

/-- What the first of some requests does if the arguments of all are bound. -/
theorem placements?_cons {rest : List Request} {positions : List Nat}
    (h : c.placements? (r :: rest) = some positions) :
    ∃ position others, positions = position :: others ∧ c.position? r.param = some position ∧
      (c.serve r).2 = none ∧ (c.serve r).1.placements? rest = some others := by
  rw [placements?] at h
  split at h
  · rename_i position next hPosition hServe
    obtain ⟨others, hOthers, rfl⟩ := Option.map_eq_some_iff.1 h
    exact ⟨position, others, rfl, hPosition, by rw [hServe], by rw [hServe]; exact hOthers⟩
  · cases h

theorem length_of_placements? {requests : List Request} {positions : List Nat}
    (h : c.placements? requests = some positions) : positions.length = requests.length := by
  induction requests generalizing c positions with
  | nil => cases h; rfl
  | cons r rest ih =>
      obtain ⟨position, others, rfl, -, -, hOthers⟩ := placements?_cons h
      simp [ih hOthers]

theorem Placed.serveAll {placed : List (Request × Nat)} (h : c.Placed placed)
    {requests : List Request} {positions : List Nat}
    (hPlaced : c.placements? requests = some positions) :
    (c.serveAll requests).Placed (placed ++ requests.zip positions) := by
  induction requests generalizing c placed positions with
  | nil => simpa using h
  | cons r rest ih =>
      obtain ⟨position, others, rfl, hPosition, hBound, hOthers⟩ := placements?_cons hPlaced
      have hRest := ih (h.serve hBound hPosition) hOthers
      rw [List.append_assoc, List.singleton_append] at hRest
      exact hRest

/-- An argument that is bound by position goes right behind the one before it. -/
theorem placements?_behind {requests : List Request} {positions : List Nat}
    (h : c.placements? requests = some positions) {index : Nat}
    (hRequest : requests[index]? = some r) (hParam : r.param = none) :
    positions[index]? = (c.next :: positions.map (· + 1))[index]? := by
  -- The cursor of the call stands behind the last argument, so it is passed on with the call.
  induction requests generalizing c positions index with
  | nil => cases hRequest
  | cons first rest ih =>
      obtain ⟨position, others, rfl, hPosition, hBound, hOthers⟩ := placements?_cons h
      cases index with
      | zero =>
          obtain rfl : first = r := Option.some.inj hRequest
          rw [hParam] at hPosition
          exact hPosition.symm
      | succ index =>
          have hNext : (c.serve first).1.next = position + 1 :=
            congrArg next (bind_eq_of_none hBound hPosition)
          have hRest := ih hOthers hRequest
          rw [hNext] at hRest
          exact hRest

/-! ## Refused arguments -/

theorem not_refuses_nil (c : PendingCall) : ¬ c.Refuses [] := by
  rintro ⟨before, r, after, hSplit, -⟩
  cases before <;> cases hSplit

theorem refuses_cons_iff {rest : List Request} :
    c.Refuses (r :: rest) ↔ (c.serve r).2.isSome = true ∨ (c.serve r).1.Refuses rest := by
  constructor
  · rintro ⟨before, refused, after, hSplit, hRefused⟩
    cases before with
    | nil =>
        cases hSplit
        exact Or.inl hRefused
    | cons first before =>
        cases hSplit
        exact Or.inr ⟨before, refused, after, rfl, hRefused⟩
  · rintro (hRefused | ⟨before, refused, after, rfl, hRefused⟩)
    · exact ⟨[], r, rest, rfl, hRefused⟩
    · exact ⟨r :: before, refused, after, rfl, hRefused⟩

/-- A call fails exactly if an argument is refused, whatever is bound afterwards. -/
theorem serveAll_failed_iff (requests : List Request) :
    (c.serveAll requests).failed = true ↔ c.failed = true ∨ c.Refuses requests := by
  induction requests generalizing c with
  | nil => simp [not_refuses_nil]
  | cons r rest ih =>
      have hFailed : (c.serve r).1.failed = (c.failed || (c.serve r).2.isSome) :=
        bind_failed r.alive c r.param r.argument r.mode
      rw [serveAll_cons, ih, hFailed, Bool.or_eq_true, refuses_cons_iff, or_assoc]

/-- If no argument is refused, all of them have a position. -/
theorem exists_placements {requests : List Request} (h : ¬ c.Refuses requests) :
    ∃ positions, c.placements? requests = some positions := by
  induction requests generalizing c with
  | nil => exact ⟨[], rfl⟩
  | cons r rest ih =>
      rw [refuses_cons_iff, not_or, Bool.not_eq_true, Option.isSome_eq_false_iff,
        Option.isNone_iff_eq_none] at h
      obtain ⟨position, hPosition, -⟩ := bind_eq_none_iff.1 h.1
      obtain ⟨others, hOthers⟩ := ih h.2
      have hServe : c.serve r = ((c.serve r).1, none) := Prod.ext rfl h.1
      refine ⟨position :: others, ?_⟩
      rw [placements?, hPosition, hServe]
      exact congrArg (Option.map (position :: ·)) hOthers

/-! ## The finished call -/

variable {call : BoundCall}

/-- What a finished call passes on at each position. -/
theorem finish_cells (h : c.finish = .ok call) (position : Nat) :
    call.args.cells[position]? = call.overload.signature.params[position]?.map fun p =>
      cellFor p (c.slot? position) := by
  rw [(finish_eq_ok h).2.2.1, Args.cells_ofCells, List.getElem?_map, assignment_getElem?,
    Option.map_map]
  rfl

/-- Where a finished call writes back to, at each position. -/
theorem finish_targets (h : c.finish = .ok call) (position : Nat) :
    call.targets[position]? = call.overload.signature.params[position]?.map fun p =>
      variableFor p (c.slot? position) := by
  rw [(finish_eq_ok h).2.2.2, List.getElem?_map, assignment_getElem?, Option.map_map]
  rfl

theorem variableFor_eq_some_iff {p : Param} {bound : Option Argument} {name : String} :
    variableFor p bound = some name ↔
      p.byRef = true ∧ ∃ a, bound = some a ∧ a.variableName = some name := by
  cases bound with
  | none => simp [variableFor]
  | some a => cases hByRef : p.byRef <;> simp [variableFor, hByRef]

/-- A parameter that a finished call has no argument for is optional. -/
theorem default_of_finish (h : c.finish = .ok call) {p : Param}
    (hParam : call.overload.signature.params[position]? = some p)
    (hFree : c.slot? position = none) :
    ∃ default, p.default = some default := by
  have hComplete : c.isComplete call.overload = true := by
    rw [isComplete, (finish_eq_ok h).2.1]
    rfl
  refine Option.ne_none_iff_exists'.1 fun hNone => ?_
  have hSlot := slot?_isSome_of_isComplete hComplete hParam (by rw [Param.isRequired, hNone]; rfl)
  rw [hFree] at hSlot
  cases hSlot

/-- A call that finishes hands over the arguments that were bound to it. -/
theorem Placed.finish {placed : List (Request × Nat)} (h : c.Placed placed)
    (hFinish : c.finish = .ok call) : call.Holds placed := by
  have hChosen := (finish_eq_ok hFinish).1
  refine ⟨?_, ?_, fun r position hEntry => ?_, fun position p hParam hFree => ?_,
    fun position name => ?_⟩
  · rw [(finish_eq_ok hFinish).2.2.1]
    simp [assignment, Signature.arity]
  · rw [(finish_eq_ok hFinish).2.2.2]
    simp [assignment, Signature.arity]
  · obtain ⟨p, hParam, hName⟩ := h.named _ hEntry _ hChosen
    refine ⟨p, hParam, hName, ?_⟩
    rw [finish_cells hFinish, hParam, h.kept _ hEntry]
    rfl
  · have hSlot := h.slot?_eq_none_iff.2 hFree
    obtain ⟨default, hDefault⟩ := default_of_finish hFinish hParam hSlot
    refine ⟨default, hDefault, ?_⟩
    rw [finish_cells hFinish, hParam, hSlot]
    simp [cellFor, hDefault]
  · rw [finish_targets hFinish, Option.map_eq_some_iff]
    simp only [variableFor_eq_some_iff]
    constructor
    · rintro ⟨p, hParam, hByRef, a, hSlot, hVariable⟩
      obtain ⟨⟨r, found⟩, hEntry, rfl⟩ := List.mem_map.1 (h.only position a hSlot)
      rw [h.kept _ hEntry] at hSlot
      cases hSlot
      exact ⟨p, r, hParam, hByRef, hEntry, hVariable⟩
    · rintro ⟨p, r, hParam, hByRef, hEntry, hVariable⟩
      exact ⟨p, hParam, hByRef, r.argument, h.kept _ hEntry, hVariable⟩

end PendingCall

/-- No argument is lost, duplicated or misplaced: if none of the arguments of some requests is
refused, each has a position of its own, a positional one right behind the argument before it, and
whatever overload the call finishes with gets the arguments at these positions.  If one is refused,
the call does not finish. -/
theorem arguments_stay_in_place (name : String) (overloads : List Overload)
    (requests : List Request) :
    (¬ (PendingCall.init name overloads).Refuses requests →
      ∃ positions, (PendingCall.init name overloads).placements? requests = some positions ∧
        positions.length = requests.length ∧ positions.Nodup ∧
        (∀ (index : Nat) (r : Request), requests[index]? = some r → r.param = none →
          positions[index]? = (0 :: positions.map (· + 1))[index]?) ∧
        ∀ call, ((PendingCall.init name overloads).serveAll requests).finish = .ok call →
          call.Holds (requests.zip positions)) ∧
    ((PendingCall.init name overloads).Refuses requests →
      ∃ d, ((PendingCall.init name overloads).serveAll requests).finish = .error d) := by
  constructor
  · intro hServed
    obtain ⟨positions, hPositions⟩ := PendingCall.exists_placements hServed
    have hLength := PendingCall.length_of_placements? hPositions
    have hPlaced := (PendingCall.init_placed name overloads).serveAll hPositions
    rw [List.nil_append] at hPlaced
    have hApart := hPlaced.apart
    rw [List.map_snd_zip (Nat.le_of_eq hLength)] at hApart
    exact ⟨positions, hPositions, hLength, hApart,
      fun index r hRequest hParam => PendingCall.placements?_behind hPositions hRequest hParam,
      fun call hFinish => hPlaced.finish hFinish⟩
  · intro hRefused
    have hFailed := (PendingCall.serveAll_failed_iff requests).2 (Or.inr hRefused)
    unfold PendingCall.finish
    rw [if_pos hFailed]
    exact ⟨_, rfl⟩

/-! ### Arguments out of order -/

/-- Two overloads that agree in their first parameters only. -/
def scattering : List Overload :=
  [ { signature := ⟨"Scatter",
        [.byValue "x" .integer, .byValue "y" .text, .byReference "z" .integer,
          { Param.byValue "w" .integer with default := some (.integer 10) }], .any, .plain⟩
      body := .user #[] },
    { signature := ⟨"Scatter",
        [.byValue "x" .integer, .byValue "y" .text, .byValue "v" .text], .any, .plain⟩
      body := .user #[] } ]

/-- An argument under the name of the second parameter, one behind it, and one for the first. -/
def scattered : List Request :=
  [ ⟨⟨.ofValue (.text "second"), .automatic, fun _ => true⟩, some "y"⟩,
    ⟨⟨.ofVariable "n" (.integer 3), .reference, fun _ => true⟩, none⟩,
    ⟨⟨.ofValue (.integer 1), .value, fun _ => true⟩, some "x"⟩ ]

theorem scattered_arguments_in_place :
    ¬ (PendingCall.init "Scatter" scattering).Refuses scattered ∧
      (∃ call, ((PendingCall.init "Scatter" scattering).serveAll scattered).finish = .ok call ∧
        call.Holds (scattered.zip [1, 2, 0])) ∧
      (PendingCall.init "Scatter" scattering).Refuses (scattered ++ scattered) ∧
      ∃ d, ((PendingCall.init "Scatter" scattering).serveAll (scattered ++ scattered)).finish =
        .error d := by
  have hServed : ¬ (PendingCall.init "Scatter" scattering).Refuses scattered := by
    intro hRefused
    have hFailed := (PendingCall.serveAll_failed_iff scattered).2 (Or.inr hRefused)
    cases hFailed
  -- The name `y` is asked for once more, behind the argument for `x`.
  have hRefused : (PendingCall.init "Scatter" scattering).Refuses (scattered ++ scattered) :=
    ((PendingCall.serveAll_failed_iff _).1 rfl).resolve_left (by decide)
  obtain ⟨positions, hPositions, -, -, -, hHolds⟩ :=
    (arguments_stay_in_place "Scatter" scattering scattered).1 hServed
  obtain rfl : [1, 2, 0] = positions := Option.some.inj hPositions
  have hFinish : ((PendingCall.init "Scatter" scattering).serveAll scattered).finish.isOk = true :=
    rfl
  cases hCall : ((PendingCall.init "Scatter" scattering).serveAll scattered).finish with
  | error d =>
      rw [hCall] at hFinish
      cases hFinish
  | ok call =>
      exact ⟨hServed, ⟨call, rfl, hHolds call hCall⟩, hRefused,
        (arguments_stay_in_place "Scatter" scattering (scattered ++ scattered)).2 hRefused⟩

end CellMachine
