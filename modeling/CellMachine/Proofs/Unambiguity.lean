import CellMachine.Proofs.Positional
import Mathlib.Data.List.Basic

/-!
# One overload for each call

The registry refuses an overload that it cannot tell apart from an earlier one.  Main statement:
whatever was registered, arguments that tell their type leave at most one overload that takes all
of them and lacks none, so the choice does not depend on the order of registration.

An argument tells its type if it is a bound value other than a null, with no undetermined tag in its
type.  Where an overload is listable it must not be a list either.  For other arguments the
statement does NOT hold: a null is taken by every nullable parameter, and a list of integers both by
a parameter of that type and by one of type `INTEGER` whose overload is listable.
-/

namespace CellMachine

/-! ## Types that accept a type in common -/

/-- Whether no part of a type is undetermined. -/
def CellType.isDetermined : CellType → Bool
  | undetermined => false
  | list element => element.isDetermined
  | _ => true

namespace CellType

theorem accepts_cases {wanted given : CellType} (h : wanted.accepts given = true) :
    wanted = any ∨ (wanted = number ∧ given.isNumeric = true) ∨
      (∃ w g, wanted = list w ∧ given = list g ∧ (g = undetermined ∨ w.accepts g = true)) ∨
      wanted = given := by
  unfold accepts at h
  split at h
  · exact Or.inl rfl
  · exact Or.inr (Or.inl ⟨rfl, h⟩)
  · rename_i w g
    exact Or.inr (Or.inr (Or.inl ⟨w, g, rfl, rfl, by simpa using h⟩))
  · exact Or.inr (Or.inr (Or.inr (by simpa using h)))

theorem any_overlaps (t : CellType) : any.overlaps t = true ∧ t.overlaps any = true := by
  cases t <;> simp [overlaps, accepts]

/-- A type overlaps with every determined type that it accepts. -/
theorem overlaps_of_accepts {wanted given : CellType} (hGiven : given.isDetermined = true)
    (h : wanted.accepts given = true) :
    wanted.overlaps given = true ∧ given.overlaps wanted = true := by
  induction given generalizing wanted with
  | list element ih =>
      cases wanted with
      | any => exact any_overlaps _
      | list wanted =>
          have hElement : element ≠ undetermined := by
            rintro rfl
            cases hGiven
          have hInner : wanted.accepts element = true := by
            simpa [accepts, hElement] using h
          exact ih hGiven hInner
      | _ => cases h
  | _ => simp [overlaps, h]

/-- Two types that accept one determined type overlap.  The recursion goes into the elements of
lists; there the undetermined tag is ruled out, which both may accept without overlapping. -/
theorem overlaps_of_accepts_both {a b t : CellType} (ht : t.isDetermined = true)
    (ha : a.accepts t = true) (hb : b.accepts t = true) : a.overlaps b = true := by
  rcases accepts_cases ha with rfl | ⟨rfl, hNumeric⟩ | ⟨a', element, rfl, rfl, ha'⟩ | rfl
  · exact (any_overlaps b).1
  · -- What accepts a number besides `number` is `any` or the type of that number.
    rcases accepts_cases hb with rfl | ⟨rfl, -⟩ | ⟨b', element, rfl, rfl, -⟩ | rfl
    · exact (any_overlaps _).2
    · rfl
    · cases hNumeric
    · exact (overlaps_of_accepts ht ha).1
  · rcases accepts_cases hb with rfl | ⟨rfl, hNumeric⟩ | ⟨b', _, rfl, hList, hb'⟩ | rfl
    · exact (any_overlaps _).2
    · cases hNumeric
    · cases hList
      have hElement : element ≠ undetermined := by
        rintro rfl
        cases ht
      have hDetermined : element.isDetermined = true := ht
      have hInner : a'.overlaps b' = true := overlaps_of_accepts_both hDetermined
        (ha'.resolve_left hElement) (hb'.resolve_left hElement)
      exact hInner
    · exact (overlaps_of_accepts ht ha).1
  · exact (overlaps_of_accepts ht hb).2
termination_by sizeOf t
decreasing_by
  subst_vars
  simp

end CellType

/-! ## Arguments that tell their type -/

/-- The argument is a bound value other than a null whose type is determined; it is a list only
where lists are admitted. -/
structure Argument.TellsType (lists : Bool) (a : Argument) : Prop where
  bound : a.isUnbound = false
  value : ∀ placeholder, a.cell ≠ .null placeholder
  determined : a.cell.type.isDetermined = true
  list : lists = false → a.cell.asItems? = none

/-- A parameter that takes such an argument does so by its type. -/
theorem Param.accepts_type_of_takes {alive : Handle → Bool} {listable lists : Bool} {p : Param}
    {a : Argument} {mode : PassMode} (ha : a.TellsType lists)
    (hLists : listable = true → lists = false) (h : p.takes alive listable a mode = true) :
    p.type.accepts a.cell.type = true := by
  have hDirect (hAccepts : p.accepts a.cell = true) : p.type.accepts a.cell.type = true := by
    unfold Param.accepts at hAccepts
    split at hAccepts
    · rename_i hNull
      exact absurd hNull (ha.value _)
    · exact hAccepts
  have hWhole (hListable : listable = true) : p.acceptsBroadcast a.cell = p.accepts a.cell := by
    have hItems := ha.list (hLists hListable)
    unfold acceptsBroadcast
    cases hCell : a.cell with
    | list element items => simp [hCell, Cell.asItems?] at hItems
    | stream stream => cases stream <;> simp [Cell.type, CellType.acceptsElements]
    | _ => simp [Cell.type, CellType.acceptsElements]
  have hTaken := (Bool.and_eq_true_iff.1 h).2
  rw [ha.bound] at hTaken
  cases hByRef : p.byRef with
  | true => exact hDirect (by simpa [hByRef] using hTaken)
  | false =>
      cases hListable : listable with
      | false => exact hDirect (by simpa [hByRef, hListable] using hTaken)
      | true => exact hDirect (by simpa [hByRef, hListable, hWhole hListable] using hTaken)

/-! ## Overloads that take the same arguments -/

namespace PendingCall

/-- Whether all required parameters of an overload have an argument. -/
def isComplete (c : PendingCall) (o : Overload) : Bool := (c.missing? o).isNone

variable {overloads : List Overload} {bound : List Binding} {c : PendingCall}

theorem slot?_isSome_of_isComplete {o : Overload} (h : c.isComplete o = true) {position : Nat}
    {p : Param} (hp : o.signature.params[position]? = some p) (hRequired : p.isRequired = true) :
    (c.slot? position).isSome = true := by
  have hEntry : (p, c.slot? position) ∈ c.assignment o :=
    List.mem_map.2 ⟨(p, position), List.mk_mem_zipIdx_iff_getElem?.2 hp, rfl⟩
  have hNone := h
  simp only [isComplete, missing?, Option.isNone_map, Option.isNone_iff_eq_none,
    List.find?_eq_none] at hNone
  have hBound := hNone _ hEntry
  cases hSlot : c.slot? position with
  | none => simp [hRequired, hSlot] at hBound
  | some a => rfl

/-- The required parameters of a complete overload stand where arguments are bound, so there are
no more of them than arguments. -/
theorem Positional.requiredCount_le (h : Positional overloads bound c) {o : Overload}
    (hComplete : c.isComplete o = true) : o.signature.requiredCount ≤ bound.length := by
  have hLater : (o.signature.params.drop bound.length).filter Param.isRequired = [] := by
    refine List.filter_eq_nil_iff.2 fun p hp hRequired => ?_
    obtain ⟨index, hIndex⟩ := List.mem_iff_getElem?.1 hp
    rw [List.getElem?_drop] at hIndex
    have hSlot := slot?_isSome_of_isComplete hComplete hIndex hRequired
    rw [h.slots, List.getElem?_eq_none (by omega)] at hSlot
    cases hSlot
  have hSplit : o.signature.params.filter Param.isRequired =
      (o.signature.params.take bound.length).filter Param.isRequired := by
    conv => lhs; rw [← List.take_append_drop bound.length o.signature.params]
    rw [List.filter_append, hLater, List.append_nil]
  unfold Signature.requiredCount
  rw [hSplit]
  exact Nat.le_trans (List.length_filter_le _ _) (List.length_take_le _ _)

/-- Two overloads that take the same telling arguments and lack none are ambiguous: the positions
that the test for it compares all have an argument. -/
theorem Positional.isAmbiguousWith (h : Positional overloads bound c) {lists : Bool}
    (hBound : ∀ b ∈ bound, b.argument.TellsType lists) {o o' : Overload}
    (hTakes : o.takesAll bound = true) (hTakes' : o'.takesAll bound = true)
    (hLists : o.signature.flags.listable = true → lists = false)
    (hLists' : o'.signature.flags.listable = true → lists = false)
    (hComplete : c.isComplete o = true) (hComplete' : c.isComplete o' = true) :
    o.signature.isAmbiguousWith o'.signature = true := by
  have hArity := Overload.length_le_arity_of_takesAll hTakes
  have hArity' := Overload.length_le_arity_of_takesAll hTakes'
  have hRequired := h.requiredCount_le hComplete
  have hRequired' := h.requiredCount_le hComplete'
  unfold Signature.isAmbiguousWith
  simp only [Bool.and_eq_true, decide_eq_true_eq, List.all_eq_true]
  refine ⟨by omega, fun (p, q) hPair => ?_⟩
  obtain ⟨position, hPosition⟩ := List.mem_iff_getElem?.1 hPair
  obtain ⟨hp, hq⟩ := List.getElem?_zip_eq_some.1 hPosition
  rw [List.getElem?_take] at hp hq
  split at hp
  · rename_i hCount
    rw [if_pos hCount] at hq
    have hSome : bound[position]? = some bound[position] := List.getElem?_eq_getElem (by omega)
    obtain ⟨p', hp', hTaken⟩ :=
      Overload.exists_param_of_takesAt (Overload.takesAt_of_takesAll hTakes hSome)
    obtain ⟨q', hq', hTaken'⟩ :=
      Overload.exists_param_of_takesAt (Overload.takesAt_of_takesAll hTakes' hSome)
    obtain rfl : p' = p := Option.some.inj (hp'.symm.trans hp)
    obtain rfl : q' = q := Option.some.inj (hq'.symm.trans hq)
    have hTells := hBound _ (List.mem_of_getElem? hSome)
    exact CellType.overlaps_of_accepts_both hTells.determined
      (Param.accepts_type_of_takes hTells hLists hTaken)
      (Param.accepts_type_of_takes hTells hLists' hTaken')
  · cases hp

/-- Among overloads of which none is ambiguous with a later one, telling arguments leave at most
one that takes them and lacks none. -/
theorem Positional.length_complete_le_one (h : Positional overloads bound c)
    (hDistinct : overloads.Pairwise fun o o' => o.signature.isAmbiguousWith o'.signature = false)
    {lists : Bool} (hLists : ∀ o ∈ overloads, o.signature.flags.listable = true → lists = false)
    (hBound : ∀ b ∈ bound, b.argument.TellsType lists) :
    (c.viable.filter c.isComplete).length ≤ 1 := by
  rw [h.viable]
  have hApart := (hDistinct.filter fun o => o.takesAll bound).filter c.isComplete
  have hFits (o : Overload)
      (ho : o ∈ (overloads.filter fun o => o.takesAll bound).filter c.isComplete) :
      o ∈ overloads ∧ o.takesAll bound = true ∧ c.isComplete o = true := by
    simpa [List.mem_filter, and_assoc, and_comm] using ho
  cases hList : (overloads.filter fun o => o.takesAll bound).filter c.isComplete with
  | nil => simp
  | cons first rest =>
      cases rest with
      | nil => simp
      | cons second more =>
          rw [hList] at hApart hFits
          obtain ⟨hFirst, hTakes, hComplete⟩ := hFits first (by simp)
          obtain ⟨hSecond, hTakes', hComplete'⟩ := hFits second (by simp)
          have hAmbiguous := h.isAmbiguousWith hBound hTakes hTakes' (hLists first hFirst)
            (hLists second hSecond) hComplete hComplete'
          have hNot := (List.pairwise_cons.1 hApart).1 second (by simp)
          rw [hAmbiguous] at hNot
          cases hNot

/-! ## The order of registration -/

/-- What a call is bound to once its overload is chosen. -/
def boundTo (c : PendingCall) (o : Overload) : BoundCall where
  overload := o
  args := Args.ofCells ((c.assignment o).map fun (p, a) => cellFor p a)
  targets := (c.assignment o).map fun (p, a) => variableFor p a

theorem finish_eq_ok_iff (hFailed : c.failed = false) {call : BoundCall} :
    c.finish = .ok call ↔
      ∃ o, (c.viable.filter c.isComplete).head? = some o ∧ call = c.boundTo o := by
  have hComplete : (fun o => (c.missing? o).isNone) = c.isComplete := rfl
  rw [List.head?_filter]
  unfold finish
  simp only [hFailed, Bool.false_eq_true, if_false, hComplete]
  cases c.viable.find? c.isComplete with
  | none =>
      simp only [reduceCtorEq, false_and, exists_false, iff_false]
      split <;> simp
  | some o => simp [boundTo, eq_comm]

/-- The arguments in their slots decide what a chosen overload is given. -/
theorem Positional.slot?_eq {overloads' : List Overload} {c' : PendingCall}
    (h : Positional overloads bound c) (h' : Positional overloads' bound c') :
    c'.slot? = c.slot? := by
  funext position
  rw [h.slots, h'.slots]

/-- Overloads in another order: if at most one is complete, the call finishes in the same way. -/
theorem Positional.finish_perm {overloads' : List Overload} {c' : PendingCall}
    (h : Positional overloads bound c) (h' : Positional overloads' bound c')
    (hPerm : overloads'.Perm overloads) (hOne : (c.viable.filter c.isComplete).length ≤ 1)
    (call : BoundCall) : c'.finish = .ok call ↔ c.finish = .ok call := by
  have hSlots := h.slot?_eq h'
  have hComplete : c'.isComplete = c.isComplete := by
    funext o
    simp only [isComplete, missing?, assignment, hSlots]
  have hBoundTo : c'.boundTo = c.boundTo := by
    funext o
    simp only [boundTo, assignment, hSlots]
  have hViable : c'.viable.Perm c.viable := by
    rw [h.viable, h'.viable]
    exact hPerm.filter _
  have hSame : c'.viable.filter c'.isComplete = c.viable.filter c.isComplete := by
    rw [hComplete]
    have hFilter := hViable.filter c.isComplete
    cases hList : c.viable.filter c.isComplete with
    | nil => simpa [hList] using hFilter
    | cons first rest =>
        have hRest : rest = [] := by
          rw [hList, List.length_cons] at hOne
          exact List.eq_nil_of_length_eq_zero (by omega)
        rw [hList, hRest] at hFilter
        rw [hRest]
        exact List.perm_singleton.1 hFilter
  rw [finish_eq_ok_iff h.failed, finish_eq_ok_iff h'.failed, hSame, hBoundTo]

end PendingCall

/-! ## The registry -/

namespace Registry

theorem get?_append (entries : List (String × List Overload)) (name key : String) (o : Overload) :
    (Registry.mk (append name o entries)).get? key =
      if key = name then some ((Registry.mk entries).overloads key ++ [o])
      else (Registry.mk entries).get? key := by
  induction entries with
  | nil =>
      by_cases hKey : key = name
      · simp [append, get?, overloads, hKey]
      · have hOther : (key == name) = false := by simpa using hKey
        simp [append, get?, List.lookup_cons, hKey, hOther]
  | cons entry rest ih =>
      obtain ⟨other, found⟩ := entry
      unfold overloads at ih ⊢
      unfold get? at ih ⊢
      by_cases hKey : key = other
      · subst hKey
        by_cases hName : key = name <;> simp [append, hName]
      · -- The entry is passed over, whether or not the overload is appended to it.
        have hOther : (key == other) = false := by simpa using hKey
        by_cases hName : other = name
        · have hApart : key ≠ name := hName ▸ hKey
          simp [append, hName, List.lookup_cons, hApart, hName ▸ hOther]
        · simp only [append, hName, if_false, List.lookup_cons, hOther]
          exact ih

theorem overloads_append (entries : List (String × List Overload)) (name key : String)
    (o : Overload) :
    (Registry.mk (append name o entries)).overloads key =
      if key = name then (Registry.mk entries).overloads key ++ [o]
      else (Registry.mk entries).overloads key := by
  rw [overloads, get?_append]
  split <;> rfl

/-- What one registration does: it appends an overload that no earlier one of its name is ambiguous
with, or it is refused. -/
theorem register_cases (r : Registry) (o : Overload) :
    (∃ r', r.register o = .ok r' ∧
        (∀ earlier ∈ r.overloads o.signature.name,
          earlier.signature.isAmbiguousWith o.signature = false) ∧
        ∀ key, r'.overloads key =
          if key = o.signature.name then r.overloads key ++ [o] else r.overloads key) ∨
      ∃ d, r.register o = .error d := by
  unfold register
  split
  · rename_i hAdmits
    refine Or.inl ⟨_, rfl, ?_, fun key => overloads_append r.entries o.signature.name key o⟩
    simpa [admits] using hAdmits
  · exact Or.inr ⟨_, rfl⟩

/-- The registry after a registration that may be refused. -/
def attempt (r : Registry) (o : Overload) : Registry := (r.register o).toOption.getD r

/-- The registry after some registrations, each of which may be refused. -/
def ofAttempts (attempts : List Overload) : Registry := attempts.foldl attempt empty

/-- No overload of a name is ambiguous with a later one. -/
def Distinct (r : Registry) : Prop :=
  ∀ name, (r.overloads name).Pairwise fun o o' =>
    o.signature.isAmbiguousWith o'.signature = false

theorem Distinct.attempt {r : Registry} (h : r.Distinct) (o : Overload) :
    (r.attempt o).Distinct := by
  unfold Registry.attempt
  rcases register_cases r o with ⟨r', hRegister, hApart, hOverloads⟩ | ⟨d, hRefused⟩
  · intro name
    rw [hRegister]
    change (r'.overloads name).Pairwise _
    rw [hOverloads]
    split
    · rename_i hName
      rw [List.pairwise_append]
      refine ⟨h name, by simp, fun earlier hEarlier later hLater => ?_⟩
      rw [List.mem_singleton.1 hLater]
      exact hApart earlier (hName ▸ hEarlier)
    · exact h name
  · rw [hRefused]
    exact h

theorem ofAttempts_distinct (attempts : List Overload) : (ofAttempts attempts).Distinct := by
  have hEmpty : empty.Distinct := fun name => List.Pairwise.nil
  unfold ofAttempts
  generalize empty = r at hEmpty
  induction attempts generalizing r with
  | nil => exact hEmpty
  | cons o rest ih => exact ih _ (hEmpty.attempt o)

end Registry

/-- Unambiguous dispatch: over the overloads that any registrations leave under a name, arguments
that tell their type and are bound by position leave at most one overload that takes them all and
lacks no required one.  The same arguments can be bound over the overloads in any other order, and
the call then finishes with the same overload and arguments. -/
theorem dispatch_unambiguous {attempts : List Overload} {name : String} {bindings : List Binding}
    {c : PendingCall}
    (hBind : (PendingCall.init name ((Registry.ofAttempts attempts).overloads name)).bindAll?
      bindings = some c)
    (hTells : ∀ b ∈ bindings, b.argument.TellsType
      (!((Registry.ofAttempts attempts).overloads name).any fun o => o.signature.flags.listable)) :
    (c.viable.filter fun o => (c.missing? o).isNone).length ≤ 1 ∧
      ∀ reordered : List Overload,
        reordered.Perm ((Registry.ofAttempts attempts).overloads name) →
        ∃ c', (PendingCall.init name reordered).bindAll? bindings = some c' ∧
          ∀ call, c'.finish = .ok call ↔ c.finish = .ok call := by
  generalize hEntry : (Registry.ofAttempts attempts).overloads name = entry at hBind hTells ⊢
  have hDistinct := Registry.ofAttempts_distinct attempts name
  rw [hEntry] at hDistinct
  have hBound := PendingCall.bindAll?_positional (PendingCall.init_positional name entry) hBind
  rw [List.nil_append] at hBound
  have hOne := hBound.length_complete_le_one hDistinct (fun o ho hListable => ?_) hTells
  · refine ⟨hOne, fun reordered hPerm => ?_⟩
    -- Whether all binds succeed depends on which overloads there are, not on their order.
    have hInit := PendingCall.init_positional name entry
    have hInit' := PendingCall.init_positional name reordered
    have hSome := (PendingCall.bindAll?_isSome_iff hInit bindings).1 (Option.isSome_of_mem hBind)
    have hSome' := (PendingCall.bindAll?_isSome_iff hInit' bindings).2
      (hSome.imp_right fun ⟨o, ho, hTakes⟩ => ⟨o, hPerm.mem_iff.2 ho, hTakes⟩)
    obtain ⟨c', hBind'⟩ := Option.isSome_iff_exists.1 hSome'
    have hBound' := PendingCall.bindAll?_positional hInit' hBind'
    exact ⟨c', hBind', hBound.finish_perm hBound' hPerm hOne⟩
  · simp only [Bool.not_eq_false', List.any_eq_true]
    exact ⟨o, ho, hListable⟩

/-! ### Three overloads of four -/

/-- An overload of one name for the given parameters. -/
def pick (params : List Param) (listable : Bool) : Overload where
  signature := ⟨"Pick", params, .any, ⟨listable, false⟩⟩
  body := .user #[]

/-- The second of these is refused, for it cannot be told apart from the first. -/
def pickAttempts : List Overload :=
  [ pick [.byValue "x" .integer,
      { Param.byReference "y" .text with default := some (.text "") }] true,
    pick [.byValue "x" .number] false,
    pick [{ Param.byValue "x" .integer with default := some (.integer 1) }, .byValue "y" .integer,
      .byValue "z" .integer] false,
    pick [.byValue "x" .text] false ]

/-- An integer and a text, which the first overload takes, the text by reference. -/
def pickBindings : List Binding :=
  [⟨.ofValue (.integer 7), .value, fun _ => true⟩,
    ⟨.ofVariable "t" (.text "seven"), .reference, fun _ => true⟩]

theorem pick_independent_of_order :
    ((Registry.ofAttempts pickAttempts).overloads "Pick").length = 3 ∧
      ∃ c c', (PendingCall.init "Pick"
          ((Registry.ofAttempts pickAttempts).overloads "Pick")).bindAll? pickBindings = some c ∧
        (PendingCall.init "Pick"
          ((Registry.ofAttempts pickAttempts).overloads "Pick").reverse).bindAll? pickBindings =
            some c' ∧
        c.finish.isOk = true ∧ (c.viable.filter fun o => (c.missing? o).isNone).length ≤ 1 ∧
        ∀ call, c'.finish = .ok call ↔ c.finish = .ok call := by
  have hSome : ((PendingCall.init "Pick"
      ((Registry.ofAttempts pickAttempts).overloads "Pick")).bindAll? pickBindings).any
        (fun c => c.finish.isOk) = true := rfl
  obtain ⟨c, hBind, hFinish⟩ := (Option.any_eq_true _ _).1 hSome
  have hTells : ∀ b ∈ pickBindings, b.argument.TellsType
      (!((Registry.ofAttempts pickAttempts).overloads "Pick").any
        fun o => o.signature.flags.listable) := by
    intro b hb
    rcases List.mem_pair.1 hb with rfl | rfl
    · exact ⟨rfl, fun _ hNull => (by cases hNull), rfl, fun _ => rfl⟩
    · exact ⟨rfl, fun _ hNull => (by cases hNull), rfl, fun _ => rfl⟩
  obtain ⟨hOne, hOrder⟩ := dispatch_unambiguous hBind hTells
  obtain ⟨c', hBind', hSame⟩ := hOrder _ (List.reverse_perm _)
  exact ⟨rfl, c, c', hBind, hBind', hFinish, hOne, hSame⟩

end CellMachine
