import CellMachine.Proofs.CopyInOut
import CellMachine.Proofs.WellFormedState

/-!
# Variable tables over their history

A table starts empty, and variables are defined, removed, looked up and cleared in any order.  What
a definition does is said once, with when it is accepted (`Scope.define_eq_ok_iff`); what a single
action keeps and what a whole history keeps follow from it.

A variable keeps its type until it is removed, up to the kinds of numbers.  What is stored is NOT
always the value that was given: a list whose tag is undetermined is accepted in place of any list
and takes over its tag.

Main statement: `table_laws`.
-/

namespace CellMachine

/-! ## Types that may replace one another -/

/-- The types of the cells that hold numbers. -/
def CellType.ofNumbers : List CellType := [.integer, .float, .rational]

/-- The types are the same, or both are those of numbers. -/
def CellType.Akin (old new : CellType) : Prop :=
  new = old ∨ (old ∈ ofNumbers ∧ new ∈ ofNumbers)

instance (old new : CellType) : Decidable (old.Akin new) := inferInstanceAs (Decidable (_ ∨ _))

namespace CellType

theorem Akin.refl (t : CellType) : t.Akin t := Or.inl rfl

theorem Akin.trans {a b c : CellType} (h : a.Akin b) (h' : b.Akin c) : a.Akin c := by
  rcases h with rfl | ⟨ha, hb⟩
  · exact h'
  · rcases h' with rfl | ⟨-, hc⟩
    · exact Or.inr ⟨ha, hb⟩
    · exact Or.inr ⟨ha, hc⟩

theorem akin_list_iff {s t : CellType} : (list s).Akin (list t) ↔ s = t := by
  simp [Akin, ofNumbers, eq_comm]

end CellType

namespace Cell

/-- What is stored for a new value: an undetermined list takes over the tag of the list that it
replaces. -/
def retagged (old : Option Cell) (new : Cell) : Cell :=
  match old, new with
  | some (.list tag _), .list .undetermined items => .list tag items
  | _, _ => new

/-- No single cell has the tag of lists of mixed numbers. -/
theorem isNumeric_type_iff {cell : Cell} :
    cell.type.isNumeric = true ↔ cell.type ∈ CellType.ofNumbers := by
  cases cell with
  | stream s => cases s <;> decide
  | _ => simp [type, CellType.isNumeric, CellType.ofNumbers]

theorem akin_type_iff {old new : Cell} :
    old.type.Akin new.type ↔
      (old.type = new.type || (old.type.isNumeric && new.type.isNumeric)) = true := by
  unfold CellType.Akin
  rw [Bool.or_eq_true, Bool.and_eq_true, isNumeric_type_iff, isNumeric_type_iff,
    decide_eq_true_iff, eq_comm]

theorem replacing?_list (s t : CellType) (xs ys : List Cell) :
    (list s xs).replacing? (list t ys) =
      if s = t ∨ t = .undetermined then some (list s ys) else none := by
  unfold replacing? CellList.adopt CellList.toCell
  by_cases hSame : s = t
  · simp [hSame]
  · by_cases hEmpty : t = .undetermined
    · subst hEmpty
      simp [hSame]
    · simp [hSame, hEmpty]

theorem retagged_list (s t : CellType) (xs ys : List Cell) :
    retagged (some (list s xs)) (list t ys) = list (if t = .undetermined then s else t) ys := by
  cases t <;> rfl

/-- A value replaces another one if what is stored for it has an akin type. -/
theorem replacing?_eq_some_iff {old new stored : Cell} :
    old.replacing? new = some stored ↔
      stored = new.retagged (some old) ∧ old.type.Akin stored.type := by
  by_cases hLists : ∃ s xs t ys, old = .list s xs ∧ new = .list t ys
  · obtain ⟨s, xs, t, ys, rfl, rfl⟩ := hLists
    rw [replacing?_list, retagged_list]
    constructor
    · intro h
      split at h
      · rename_i hAkin
        cases h
        refine ⟨?_, CellType.Akin.refl _⟩
        rcases hAkin with rfl | rfl <;> simp
      · cases h
    · rintro ⟨rfl, hAkin⟩
      rw [type, type, CellType.akin_list_iff] at hAkin
      split at hAkin
      · rename_i hEmpty
        rw [if_pos (Or.inr hEmpty), if_pos hEmpty]
      · rename_i hTag
        rw [if_pos (Or.inl hAkin), if_neg hTag, hAkin]
  · have hReplacing : old.replacing? new =
        if old.type = new.type || (old.type.isNumeric && new.type.isNumeric) then some new
        else none := by
      unfold replacing?
      split
      · exact absurd ⟨_, _, _, _, rfl, rfl⟩ hLists
      · rfl
    have hKept : new.retagged (some old) = new := by
      unfold retagged
      split
      · rename_i hOld
        cases hOld
        exact absurd ⟨_, _, _, _, rfl, rfl⟩ hLists
      · rfl
    rw [hReplacing, hKept]
    constructor
    · intro h
      split at h
      · rename_i hAkin
        cases h
        exact ⟨rfl, akin_type_iff.2 hAkin⟩
      · cases h
    · rintro ⟨rfl, hAkin⟩
      exact if_pos (akin_type_iff.1 hAkin)

end Cell

/-! ## Single actions -/

/-- The names that are never stored. -/
def protectedNames : List String := ["INPUT", "OUTPUT", "NULL"]

theorem isProtected_eq_false_iff {name : String} :
    isProtected name = false ↔ name ∉ protectedNames := by
  unfold isProtected protectedValue? protectedNames
  simp only [List.mem_cons, List.not_mem_nil, or_false, not_or]
  split
  · simp [*]
  · split
    · simp [*]
    · split <;> simp [*]

namespace Scope

variable {s s' : Scope} {name key : String} {cell : Cell}

theorem lookup_of_not_isProtected (h : isProtected name = false) (s : Scope) :
    s.lookup name = s.get? name := by
  have hNone : protectedValue? name = none := by simpa [isProtected] using h
  unfold lookup
  rw [hNone]

/-- The value of a name depends on what is stored under it only. -/
theorem lookup_congr (h : s'.get? name = s.get? name) : s'.lookup name = s.lookup name := by
  unfold lookup
  rw [h]

/-- A definition is accepted if the name is free to be stored and what is stored has a type akin to
that of the old value, if there is one. -/
theorem define_eq_ok_iff :
    s.define name cell = .ok s' ↔
      isProtected name = false ∧
      (∀ old, s.lookup name = some old → old.type.Akin (cell.retagged (some old)).type) ∧
      s' = ⟨store name (cell.retagged (s.lookup name)) s.bindings⟩ := by
  unfold define
  cases hProtected : isProtected name with
  | true => simp
  | false =>
      rw [lookup_of_not_isProtected hProtected]
      cases s.get? name with
      | none => simp [Cell.retagged, eq_comm]
      | some old =>
          have hReplacing := @Cell.replacing?_eq_some_iff old cell
          cases hStored : old.replacing? cell with
          | none =>
              rw [hStored] at hReplacing
              have hRefused : ¬old.type.Akin (cell.retagged (some old)).type := fun hAkin => by
                cases hReplacing.2 ⟨rfl, hAkin⟩
              simp [hStored, hRefused]
          | some stored =>
              obtain ⟨rfl, hAkin⟩ := hReplacing.1 hStored
              simp [hStored, hAkin, eq_comm]

theorem define_lookup (h : s.define name cell = .ok s') :
    s'.lookup name = some (cell.retagged (s.lookup name)) ∧
      ∀ key, key ≠ name → s'.lookup key = s.lookup key := by
  obtain ⟨hName, -, rfl⟩ := define_eq_ok_iff.1 h
  constructor
  · rw [lookup_of_not_isProtected hName, get?, lookup_store, if_pos rfl]
  · intro key hKey
    refine lookup_congr ?_
    rw [get?, lookup_store, if_neg hKey, get?]

/-- The new value of a name has a type akin to that of the old one. -/
theorem define_akin (h : s.define name cell = .ok s') {old : Cell}
    (hOld : s.lookup name = some old) :
    old.type.Akin (cell.retagged (s.lookup name)).type := by
  rw [hOld]
  exact (define_eq_ok_iff.1 h).2.1 old hOld

/-! ## Histories -/

/-- What can be done to a table. -/
inductive Action where
  | define (name : String) (cell : Cell)
  | remove (name : String)
  | clear
  | lookup (name : String)

/-- Whether the action may leave the name without a value. -/
def Action.unbinds (name : String) : Action → Bool
  | remove other => other == name
  | clear => true
  | define _ _ | lookup _ => false

/-- The table after an action, which is the same one if the action is refused. -/
def perform (s : Scope) : Action → Scope
  | .define name cell => s.defined name cell
  | .remove name =>
    match s.remove name with
    | .ok (_, s') => s'
    | .error _ => s
  | .clear => .empty
  | .lookup _ => s

/-- The table after a history of actions. -/
def after (s : Scope) (history : List Action) : Scope := history.foldl perform s

/-- The values of a name in the course of a history, the one at its start included. -/
def valuesAlong (s : Scope) (name : String) : List Action → List Cell
  | [] => (s.lookup name).toList
  | action :: rest => (s.lookup name).toList ++ (s.perform action).valuesAlong name rest

theorem perform_define_of_error {e : ScopeError} (h : s.define name cell = .error e) :
    s.perform (.define name cell) = s := by
  rw [perform, defined, h]

theorem perform_define_of_ok (h : s.define name cell = .ok s') :
    s.perform (.define name cell) = s' := by
  rw [perform, defined, h]

/-- A removal takes all bindings of a name out, of which there may be none. -/
theorem perform_remove_eq (s : Scope) (name : String) :
    s.perform (.remove name) =
      if isProtected name then s else ⟨s.bindings.filter fun binding => binding.1 != name⟩ := by
  rw [perform, remove]
  cases isProtected name with
  | true => rfl
  | false =>
      cases hStored : s.get? name with
      | some cell => rfl
      | none =>
          have hAbsent : s.bindings.filter (fun binding => binding.1 != name) = s.bindings := by
            rw [List.filter_eq_self]
            intro binding hBinding
            have hDiffers := List.lookup_eq_none_iff.1 hStored binding hBinding
            exact bne_iff_ne.2 fun hEq => by simp [hEq] at hDiffers
          simp [hAbsent]

/-- A removal unbinds the name, unless it is protected, and no other one. -/
theorem perform_remove_lookup (s : Scope) (name key : String) :
    (s.perform (.remove name)).lookup key =
      if key = name ∧ isProtected name = false then none else s.lookup key := by
  rw [perform_remove_eq]
  cases hProtected : isProtected name with
  | true => simp
  | false =>
      by_cases hKey : key = name
      · subst hKey
        have hGone : (s.bindings.filter fun binding => binding.1 != key).lookup key = none := by
          rw [List.lookup_eq_none_iff]
          intro binding hBinding
          have hDiffers : (binding.1 != key) = true := (List.mem_filter.1 hBinding).2
          exact bne_comm.trans hDiffers
        rw [if_neg Bool.false_ne_true, if_pos ⟨rfl, rfl⟩, lookup_of_not_isProtected hProtected]
        exact hGone
      · rw [if_neg Bool.false_ne_true, if_neg fun h => hKey h.1]
        exact lookup_congr (lookup_filter_ne hKey s.bindings)

/-- An action that does not unbind a name leaves it with a value of an akin type. -/
theorem perform_akin {action : Action} (hAction : action.unbinds name = false) {old : Cell}
    (hOld : s.lookup name = some old) :
    ∃ new, (s.perform action).lookup name = some new ∧ old.type.Akin new.type := by
  cases action with
  | define other value =>
      cases hDefine : s.define other value with
      | error e =>
          rw [perform_define_of_error hDefine]
          exact ⟨old, hOld, .refl _⟩
      | ok s' =>
          rw [perform_define_of_ok hDefine]
          obtain ⟨hSelf, hOthers⟩ := define_lookup hDefine
          by_cases hName : name = other
          · subst hName
            exact ⟨_, hSelf, define_akin hDefine hOld⟩
          · exact ⟨old, (hOthers name hName).trans hOld, .refl _⟩
  | remove other =>
      have hName : ¬(name = other ∧ isProtected other = false) := fun h => by
        simp [Action.unbinds, h.1] at hAction
      rw [perform_remove_lookup, if_neg hName]
      exact ⟨old, hOld, .refl _⟩
  | clear => cases hAction
  | lookup other => exact ⟨old, hOld, .refl _⟩

/-- All values of a name that is bound at the start are of types akin to that of the first. -/
theorem akin_of_mem_valuesAlong {stretch : List Action}
    (hStretch : ∀ action ∈ stretch, action.unbinds name = false) {first value : Cell}
    (hFirst : s.lookup name = some first) (h : value ∈ s.valuesAlong name stretch) :
    first.type.Akin value.type := by
  induction stretch generalizing s first with
  | nil =>
      rw [valuesAlong, hFirst, Option.toList_some, List.mem_singleton] at h
      rw [h]
      exact .refl _
  | cons action rest ih =>
      rw [List.forall_mem_cons] at hStretch
      rw [valuesAlong, hFirst, Option.toList_some, List.singleton_append, List.mem_cons] at h
      rcases h with rfl | hLater
      · exact .refl _
      · obtain ⟨next, hNext, hAkin⟩ := perform_akin hStretch.1 hFirst
        exact hAkin.trans (ih hStretch.2 hNext hLater)

/-- The same if the name is bound only later, and nothing is said of the time before. -/
theorem akin_of_valuesAlong_eq {stretch : List Action}
    (hStretch : ∀ action ∈ stretch, action.unbinds name = false) {first : Cell} {later : List Cell}
    (h : s.valuesAlong name stretch = first :: later) :
    ∀ value ∈ later, first.type.Akin value.type := by
  induction stretch generalizing s with
  | nil =>
      intro value hValue
      rw [valuesAlong] at h
      cases hLookup : s.lookup name with
      | none => simp [hLookup] at h
      | some cell =>
          rw [hLookup] at h
          cases h
          cases hValue
  | cons action rest ih =>
      cases hLookup : s.lookup name with
      | none =>
          rw [List.forall_mem_cons] at hStretch
          rw [valuesAlong, hLookup] at h
          exact ih hStretch.2 h
      | some cell =>
          intro value hValue
          have hMember : value ∈ s.valuesAlong name (action :: rest) := by
            rw [h]
            exact List.mem_cons_of_mem _ hValue
          have hAkin := akin_of_mem_valuesAlong hStretch hLookup hMember
          rw [valuesAlong, hLookup] at h
          cases h
          exact hAkin

/-! ## Names that are not stored -/

/-- No protected name is stored. -/
def Free (s : Scope) : Prop := ∀ name cell, (name, cell) ∈ s.bindings → isProtected name = false

theorem Free.perform (h : s.Free) (action : Action) : (s.perform action).Free := by
  cases action with
  | define name cell =>
      cases hDefine : s.define name cell with
      | error e =>
          rw [perform_define_of_error hDefine]
          exact h
      | ok s' =>
          rw [perform_define_of_ok hDefine]
          obtain ⟨hName, -, rfl⟩ := define_eq_ok_iff.1 hDefine
          intro key value hMember
          rcases mem_store hMember with ⟨rfl, -⟩ | hOld
          · exact hName
          · exact h key value hOld
  | remove name =>
      rw [perform_remove_eq]
      split
      · exact h
      · exact fun key value hMember => h key value (List.mem_of_mem_filter hMember)
  | clear => exact fun _ _ hMember => by cases hMember
  | lookup name => exact h

theorem Free.after (h : s.Free) (history : List Action) : (s.after history).Free := by
  induction history generalizing s with
  | nil => exact h
  | cons action rest ih => exact ih (h.perform action)

theorem empty_free : Scope.empty.Free := fun _ _ hMember => by cases hMember

/-- The table is reached from the empty one. -/
def Reached (s : Scope) : Prop := ∃ history, s = Scope.empty.after history

end Scope

theorem Machine.remove_scope (m : Machine) (name : String) :
    (m.remove name).2.scope = m.scope.perform (.remove name) := by
  rw [Scope.perform, remove]
  cases m.scope.remove name with
  | ok removed => rfl
  | error e => cases e <;> rfl

/-- The laws of a variable table, whatever was done to it before.  The protected names have their
streams as values and are not stored.  A definition is accepted if the name is not protected and
what is to be stored has a type akin to that of the old value; it then gives the name its new value
and changes no other name, and otherwise changes nothing.  A removal unbinds the name and changes no
other one.  As long as a name is not unbound, all its values are of types akin to that of the first.
A machine treats its active table in this way. -/
theorem table_laws {s : Scope} (hReached : s.Reached) :
    (s.lookup "INPUT" = some (.stream .input) ∧ s.lookup "OUTPUT" = some (.stream .output) ∧
      s.lookup "NULL" = some (.stream .discard) ∧
      ∀ name ∈ protectedNames, name ∉ s.bindings.map Prod.fst) ∧
    (∀ name cell, (∃ s', s.define name cell = .ok s') ↔ name ∉ protectedNames ∧
      ∀ old, s.lookup name = some old → old.type.Akin (cell.retagged (some old)).type) ∧
    (∀ name cell e, s.define name cell = .error e → s.perform (.define name cell) = s) ∧
    (∀ name cell s', s.define name cell = .ok s' → s.perform (.define name cell) = s' ∧
      s'.lookup name = some (cell.retagged (s.lookup name)) ∧
      ∀ key, key ≠ name → s'.lookup key = s.lookup key) ∧
    (∀ name, (name ∉ protectedNames → (s.perform (.remove name)).lookup name = none) ∧
      ∀ key, key ≠ name → (s.perform (.remove name)).lookup key = s.lookup key) ∧
    (∀ name stretch, (∀ action ∈ stretch, Scope.Action.unbinds name action = false) →
      ∀ first later, s.valuesAlong name stretch = first :: later →
        ∀ value ∈ later, first.type.Akin value.type) ∧
    ∀ m : Machine, m.scope = s →
      (∀ name cell, (m.define name cell).2.scope = s.perform (.define name cell)) ∧
      (∀ name, (m.remove name).2.scope = s.perform (.remove name)) ∧
      m.clear.scope = s.perform .clear := by
  have hFree : s.Free := by
    obtain ⟨history, rfl⟩ := hReached
    exact Scope.empty_free.after history
  refine ⟨⟨rfl, rfl, rfl, fun name hName hStored => ?_⟩, fun name cell => ?_,
    fun name cell e h => Scope.perform_define_of_error h, fun name cell s' h => ?_,
    fun name => ⟨fun hName => ?_, fun key hKey => ?_⟩,
    fun name stretch hStretch first later h => Scope.akin_of_valuesAlong_eq hStretch h,
    fun m hm => ?_⟩
  · obtain ⟨⟨key, cell⟩, hMember, rfl⟩ := List.mem_map.1 hStored
    exact isProtected_eq_false_iff.1 (hFree key cell hMember) hName
  · rw [← isProtected_eq_false_iff]
    constructor
    · rintro ⟨s', h⟩
      obtain ⟨hName, hAkin, -⟩ := Scope.define_eq_ok_iff.1 h
      exact ⟨hName, hAkin⟩
    · rintro ⟨hName, hAkin⟩
      exact ⟨_, Scope.define_eq_ok_iff.2 ⟨hName, hAkin, rfl⟩⟩
  · exact ⟨Scope.perform_define_of_ok h, Scope.define_lookup h⟩
  · rw [Scope.perform_remove_lookup, if_pos ⟨rfl, isProtected_eq_false_iff.2 hName⟩]
  · rw [Scope.perform_remove_lookup, if_neg fun h => hKey h.1]
  · subst hm
    exact ⟨m.define_scope, m.remove_scope, rfl⟩

/-- A list and a number are defined, and what is refused changes nothing. -/
def tableHistory : List Scope.Action :=
  [.define "xs" (.list .integer [.integer 1, .integer 2]), .define "x" (.integer 3),
    .define "OUTPUT" (.integer 4), .remove "y"]

/-- The number is replaced by a fraction, but not by a text. -/
def tableStretch : List Scope.Action :=
  [.define "x" (.text "no number"), .remove "xs", .define "x" (.rational .one), .lookup "x"]

theorem table_laws_history :
    (Scope.empty.after tableHistory).Reached ∧
      (∃ s', (Scope.empty.after tableHistory).define "xs" (.list .undetermined []) = .ok s' ∧
        s'.lookup "xs" = some (.list .integer []) ∧ s'.lookup "x" = some (.integer 3)) ∧
      (∀ value ∈ [Cell.integer 3, .integer 3, .rational .one, .rational .one],
        (Cell.integer 3).type.Akin value.type) := by
  have hReached : (Scope.empty.after tableHistory).Reached := ⟨tableHistory, rfl⟩
  obtain ⟨-, hAccepts, -, hDefines, -, hStretch, -⟩ := table_laws hReached
  refine ⟨hReached, ?_, ?_⟩
  · obtain ⟨s', hDefine⟩ := (hAccepts "xs" (.list .undetermined [])).2
      ⟨by decide, fun old hOld => by cases hOld; decide⟩
    obtain ⟨-, hSelf, hOthers⟩ := hDefines _ _ _ hDefine
    exact ⟨s', hDefine, hSelf, hOthers "x" (by decide)⟩
  · exact hStretch "x" tableStretch (by decide) (.integer 3) _ rfl

end CellMachine
