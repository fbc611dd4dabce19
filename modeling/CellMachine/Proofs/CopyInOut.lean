import CellMachine.Proofs.Dispatch
import CellMachine.Proofs.Isolation

/-!
# Calls of user-defined functions copy in and copy out

The body of a user-defined function starts with an empty operand stack and a table that holds the
arguments under the names of their parameters.  When it ends, its result is pushed for the caller,
and the by-reference parameters that are still bound are written to the variables that were passed
for them, in the order of the parameters.  Nothing else of the caller changes; a body that ends with
a fault changes nothing of it.

The table at the end is looked at after the result was taken: a result that names a variable whose
object is gone drops that variable.  The caller's variables do NOT all change as asked: a write-back
that is refused leaves its variable as it was, and the later ones are made all the same.
-/

namespace CellMachine

/-! ## Variable tables -/

namespace Scope

/-- The value that is stored for a name that can be stored. -/
def stored? (s : Scope) (name : String) : Option Cell :=
  if isProtected name then none else s.get? name

/-- The table after a binding, which is the same one if the binding is refused. -/
def defined (s : Scope) (name : String) (cell : Cell) : Scope :=
  match s.define name cell with
  | .ok s' => s'
  | .error _ => s

/-- The table after several bindings, each made whether or not those before were refused. -/
def definedAll (s : Scope) (pairs : List (String × Cell)) : Scope :=
  pairs.foldl (fun s pair => s.defined pair.1 pair.2) s

theorem lookup_cons_eq (key first : String) (value : Cell) (rest : List (String × Cell)) :
    List.lookup key ((first, value) :: rest) =
      if key = first then some value else rest.lookup key := by
  by_cases hKey : key = first
  · simp [hKey]
  · have hDiffers : (key == first) = false := beq_false_of_ne hKey
    simp [List.lookup_cons, hDiffers, hKey]

theorem lookup_store (name key : String) (cell : Cell) (bindings : List (String × Cell)) :
    (store name cell bindings).lookup key =
      if key = name then some cell else bindings.lookup key := by
  induction bindings with
  | nil => rw [store, lookup_cons_eq]
  | cons binding rest ih =>
      obtain ⟨first, old⟩ := binding
      rw [store]
      by_cases hHere : first = name
      · rw [if_pos hHere, lookup_cons_eq, lookup_cons_eq, hHere]
        split <;> rfl
      · rw [if_neg hHere, lookup_cons_eq, lookup_cons_eq, ih]
        by_cases hKey : key = first
        · rw [if_pos hKey, if_pos hKey, if_neg (by rw [hKey]; exact hHere)]
        · rw [if_neg hKey, if_neg hKey]

theorem lookup_filter_ne {name key : String} (hKey : key ≠ name)
    (bindings : List (String × Cell)) :
    (bindings.filter fun binding => binding.1 != name).lookup key = bindings.lookup key := by
  induction bindings with
  | nil => rfl
  | cons binding rest ih =>
      obtain ⟨first, value⟩ := binding
      by_cases hHere : first = name
      · rw [List.filter_cons_of_neg (by simp [hHere]), ih, lookup_cons_eq, hHere, if_neg hKey]
      · rw [List.filter_cons_of_pos (by simp [hHere]), lookup_cons_eq, lookup_cons_eq, ih]

/-! ### Bindings -/

theorem get?_defined_of_ne {name key : String} (hKey : key ≠ name) (s : Scope) (cell : Cell) :
    (s.defined name cell).get? key = s.get? key := by
  have hStore (stored : Cell) :
      (Scope.mk (store name stored s.bindings)).get? key = s.get? key := by
    unfold get?
    rw [lookup_store, if_neg hKey]
  unfold defined define
  by_cases hProtected : isProtected name = true
  · simp [hProtected]
  · simp only [hProtected]
    cases s.get? name with
    | none => exact hStore cell
    | some old =>
        dsimp only
        cases old.replacing? cell with
        | none => rfl
        | some stored => exact hStore stored

/-- A name that has no value yet is bound unless it is protected. -/
theorem get?_defined_self {s : Scope} {name : String} (hFree : s.get? name = none) (cell : Cell) :
    (s.defined name cell).get? name = if isProtected name then none else some cell := by
  unfold defined define
  by_cases hProtected : isProtected name = true
  · simp [hProtected, hFree]
  · simp only [hProtected, hFree]
    unfold get?
    simp [lookup_store]

/-- Bindings change no name but their own. -/
theorem get?_definedAll_of_notMem {name : String} {pairs : List (String × Cell)}
    (h : name ∉ pairs.map Prod.fst) (s : Scope) : (s.definedAll pairs).get? name = s.get? name := by
  induction pairs generalizing s with
  | nil => rfl
  | cons pair rest ih =>
      rw [List.map_cons, List.mem_cons, not_or] at h
      calc
        (s.definedAll (pair :: rest)).get? name =
            ((s.defined pair.1 pair.2).definedAll rest).get? name := rfl
        _ = (s.defined pair.1 pair.2).get? name := ih h.2 _
        _ = s.get? name := get?_defined_of_ne h.1 s pair.2

/-- Bindings of different names, none of which has a value yet, are all there unless they are of
protected names. -/
theorem get?_definedAll_iff {pairs : List (String × Cell)} (hNames : (pairs.map Prod.fst).Nodup)
    {s : Scope} (hFree : ∀ name ∈ pairs.map Prod.fst, s.get? name = none) (name : String)
    (cell : Cell) :
    (s.definedAll pairs).get? name = some cell ↔
      s.get? name = some cell ∨ isProtected name = false ∧ (name, cell) ∈ pairs := by
  induction pairs generalizing s with
  | nil => simp [definedAll]
  | cons pair rest ih =>
      obtain ⟨first, value⟩ := pair
      simp only [List.map_cons, List.nodup_cons, List.forall_mem_cons] at hNames hFree
      change ((s.defined first value).definedAll rest).get? name = some cell ↔ _
      by_cases hName : name = first
      · subst hName
        rw [get?_definedAll_of_notMem hNames.1, get?_defined_self hFree.1, hFree.1]
        have hElsewhere : (name, cell) ∉ rest := fun h =>
          hNames.1 (List.mem_map_of_mem (f := Prod.fst) h)
        cases hProtected : isProtected name with
        | true => simp
        | false => simp [hElsewhere, eq_comm]
      · have hRest : ∀ other ∈ rest.map Prod.fst, (s.defined first value).get? other = none := by
          intro other hOther
          have hDiffers : other ≠ first := fun h => hNames.1 (h ▸ hOther)
          rw [get?_defined_of_ne hDiffers]
          exact hFree.2 other hOther
        rw [ih hNames.2 hRest, get?_defined_of_ne hName]
        simp [hName]

/-! ### Values that are taken out -/

theorem remove_of_stored? {s : Scope} {name : String} {cell : Cell}
    (h : s.stored? name = some cell) :
    ∃ s', s.remove name = .ok (cell, s') ∧ ∀ key, key ≠ name → s'.stored? key = s.stored? key := by
  unfold stored? at h
  split at h
  · cases h
  · rename_i hFree
    refine ⟨⟨s.bindings.filter fun binding => binding.1 != name⟩, ?_, fun key hKey => ?_⟩
    · unfold remove
      rw [if_neg hFree, h]
    · unfold stored? get?
      rw [lookup_filter_ne hKey]

theorem remove_of_not_stored? {s : Scope} {name : String} (h : s.stored? name = none) :
    ∃ e, s.remove name = .error e := by
  unfold remove
  unfold stored? at h
  split
  · exact ⟨_, rfl⟩
  · rename_i hFree
    rw [if_neg hFree] at h
    rw [h]
    exact ⟨_, rfl⟩

end Scope

/-! ## Frames -/

namespace Machine

theorem define_scope (m : Machine) (name : String) (cell : Cell) :
    (m.define name cell).2.scope = m.scope.defined name cell := by
  unfold define Scope.defined
  cases m.scope.define name cell with
  | ok scope => rfl
  | error e => cases e <;> rfl

theorem define_stack (m : Machine) (name : String) (cell : Cell) :
    (m.define name cell).2.stack = m.stack := by
  unfold define
  split <;> rfl

theorem define_waiting (m : Machine) (name : String) (cell : Cell) :
    (m.define name cell).2.calls.waiting = m.calls.waiting := by
  unfold define
  split <;> rfl

/-- Bind several variables; what is refused is reported. -/
def defineAll (m : Machine) (pairs : List (String × Cell)) : Machine :=
  pairs.foldl (fun m pair => (m.define pair.1 pair.2).2) m

/-- Only the table of the active frame changes. -/
theorem defineAll_frames (m : Machine) (pairs : List (String × Cell)) :
    (m.defineAll pairs).scope = m.scope.definedAll pairs ∧
      (m.defineAll pairs).stack = m.stack ∧
      (m.defineAll pairs).calls.waiting = m.calls.waiting := by
  induction pairs generalizing m with
  | nil => exact ⟨rfl, rfl, rfl⟩
  | cons pair rest ih =>
      obtain ⟨hScope, hStack, hWaiting⟩ := ih (m.define pair.1 pair.2).2
      rw [define_scope] at hScope
      rw [define_stack] at hStack
      rw [define_waiting] at hWaiting
      exact ⟨hScope, hStack, hWaiting⟩

end Machine

/-! ## Copying in -/

/-- The arguments that have a value, under the names of their parameters. -/
def copiedIn (params : List Param) (cells : List Cell) : List (String × Cell) :=
  (params.zip cells).filterMap fun (p, cell) =>
    if cell.isReference then none else some (p.name, cell)

theorem mem_copiedIn {params : List Param} {cells : List Cell} {name : String} {cell : Cell} :
    (name, cell) ∈ copiedIn params cells ↔
      cell.isReference = false ∧ ∃ p, (p, cell) ∈ params.zip cells ∧ p.name = name := by
  unfold copiedIn
  rw [List.mem_filterMap]
  constructor
  · rintro ⟨⟨p, other⟩, hEntry, hCopied⟩
    dsimp only at hCopied
    split at hCopied
    · cases hCopied
    · rename_i hValue
      cases hCopied
      exact ⟨by simpa using hValue, p, hEntry, rfl⟩
  · rintro ⟨hValue, p, hEntry, rfl⟩
    exact ⟨(p, cell), hEntry, by simp [hValue]⟩

theorem copiedIn_names {params : List Param} (hNames : (params.map Param.name).Nodup)
    (cells : List Cell) : ((copiedIn params cells).map Prod.fst).Nodup := by
  have hSublist : ((copiedIn params cells).map Prod.fst).Sublist (params.map Param.name) := by
    unfold copiedIn
    induction params generalizing cells with
    | nil => exact List.Sublist.refl _
    | cons p params ih =>
        cases cells with
        | nil => exact List.nil_sublist _
        | cons cell cells =>
            rw [List.map_cons, List.nodup_cons] at hNames
            cases hReference : cell.isReference with
            | true =>
                simp only [List.zip_cons_cons, List.filterMap_cons, hReference, if_true]
                exact (ih hNames.2 cells).trans (List.sublist_cons_self _ _)
            | false =>
                simp only [List.zip_cons_cons, List.filterMap_cons, hReference]
                exact (ih hNames.2 cells).cons_cons p.name
  exact hNames.sublist hSublist

namespace Exec

theorem defineParams_eq (params : List Param) (cells : List Cell) (m : Machine) :
    defineParams (params.zip cells) m = .ok () (m.defineAll (copiedIn params cells)) := by
  unfold copiedIn
  induction params.zip cells generalizing m with
  | nil => rfl
  | cons entry rest ih =>
      obtain ⟨p, cell⟩ := entry
      rw [defineParams]
      cases hReference : cell.isReference with
      | true =>
          simp only [Bool.not_true, List.filterMap_cons, hReference, if_true]
          exact ih m
      | false =>
          simp only [Bool.not_false, List.filterMap_cons, hReference]
          exact ih (m.define p.name cell).2

end Exec

/-! ## Copying out -/

/-- An argument after its parameter was copied out of a table. -/
def Arg.copiedOut (s : Scope) (p : Param) (entry : Arg) : Arg :=
  if p.byRef then
    match s.stored? p.name with
    | some cell => ⟨cell, true⟩
    | none => entry
  else entry

theorem Arg.zipWith_copiedOut_congr {s s' : Scope} {params : List Param}
    (h : ∀ p ∈ params, s'.stored? p.name = s.stored? p.name) (entries : List Arg) :
    List.zipWith (copiedOut s') params entries = List.zipWith (copiedOut s) params entries := by
  induction params generalizing entries with
  | nil => rfl
  | cons p params ih =>
      rw [List.forall_mem_cons] at h
      cases entries with
      | nil => rfl
      | cons entry entries =>
          rw [List.zipWith_cons_cons, List.zipWith_cons_cons, ih h.2]
          unfold copiedOut
          rw [h.1]

theorem Args.set_append (before : List Arg) (entry : Arg) (rest : List Arg) (cell : Cell) :
    (Args.mk (before ++ entry :: rest)).set before.length cell =
      ⟨before ++ ⟨cell, true⟩ :: rest⟩ := by
  unfold Args.set
  congr 1
  induction before with
  | nil => rfl
  | cons first before ih =>
      rw [List.length_cons, List.cons_append, List.modify_succ_cons, ih, List.cons_append]

namespace Exec

/-- What is copied out of the table for a parameter does not depend on the parameters before it,
which have other names.  The induction is over the parameters that are left; the arguments before
them stay as they are. -/
theorem copyOut_eq {params : List Param} (hNames : (params.map Param.name).Nodup)
    {entries : List Arg} (hLength : entries.length = params.length) (before : List Arg)
    (m : Machine) :
    ∃ m', copyOut params before.length ⟨before ++ entries⟩ m =
      .ok ⟨before ++ List.zipWith (Arg.copiedOut m.scope) params entries⟩ m' := by
  induction params generalizing entries before m with
  | nil =>
      obtain rfl := List.eq_nil_of_length_eq_zero hLength
      exact ⟨m, rfl⟩
  | cons p params ih =>
      rw [List.map_cons, List.nodup_cons] at hNames
      obtain ⟨entry, rest, rfl⟩ := List.exists_cons_of_length_eq_add_one hLength
      have hRest : rest.length = params.length := by simpa using hLength
      -- The first argument joins those that are done, whatever becomes of it.
      have hNext (done : Arg) (n : Machine)
          (hSame : ∀ q ∈ params, n.scope.stored? q.name = m.scope.stored? q.name) :
          ∃ m', copyOut params (before.length + 1) ⟨before ++ done :: rest⟩ n =
            .ok ⟨before ++ done :: List.zipWith (Arg.copiedOut m.scope) params rest⟩ m' := by
        obtain ⟨m', h⟩ := ih hNames.2 hRest (before ++ [done]) n
        rw [Arg.zipWith_copiedOut_congr hSame] at h
        rw [List.length_append, List.append_assoc, List.append_assoc] at h
        exact ⟨m', h⟩
      rw [copyOut, List.zipWith_cons_cons]
      cases hByRef : p.byRef with
      | false =>
          have hKept : Arg.copiedOut m.scope p entry = entry := by
            unfold Arg.copiedOut
            rw [hByRef]
            rfl
          rw [hKept]
          exact hNext entry m fun _ _ => rfl
      | true =>
          cases hStored : m.scope.stored? p.name with
          | none =>
              obtain ⟨e, hRemove⟩ := Scope.remove_of_not_stored? hStored
              have hKept : Arg.copiedOut m.scope p entry = entry := by
                unfold Arg.copiedOut
                rw [hByRef, hStored]
                rfl
              rw [hKept, if_pos rfl, @bind_of_ok _ _ _ _ m m none (by simp only [lift, hRemove])]
              exact hNext entry m fun _ _ => rfl
          | some cell =>
              obtain ⟨s', hRemove, hOthers⟩ := Scope.remove_of_stored? hStored
              have hCopied : Arg.copiedOut m.scope p entry = ⟨cell, true⟩ := by
                unfold Arg.copiedOut
                rw [hByRef, hStored]
                rfl
              rw [hCopied]
              have hSame : ∀ q ∈ params,
                  (m.setScope s').scope.stored? q.name = m.scope.stored? q.name := fun q hq =>
                hOthers q.name fun hEq => hNames.1 (hEq ▸ List.mem_map_of_mem hq)
              rw [if_pos rfl, @bind_of_ok _ _ _ _ m (m.setScope s') (some cell)
                (by simp only [lift, hRemove])]
              dsimp only
              rw [Args.set_append]
              exact hNext ⟨cell, true⟩ (m.setScope s') hSame

end Exec

/-! ## Writing back -/

/-- The arguments that were rebound, under the names of the variables behind them. -/
def writtenBack (targets : List (Option String)) (entries : List Arg) : List (String × Cell) :=
  (targets.zip entries).filterMap fun (target, entry) =>
    if entry.rebound then target.map fun name => (name, entry.cell) else none

namespace Exec

/-- The arguments are written back one after the other; those before stay out of the way. -/
theorem writeBack_eq {targets : List (Option String)} {entries : List Arg}
    (hLength : entries.length = targets.length) (before : List Arg) (m : Machine) :
    ∃ accepted, writeBack ⟨before ++ entries⟩ targets before.length m =
      .ok accepted (m.defineAll (writtenBack targets entries)) := by
  induction targets generalizing entries before m with
  | nil => exact ⟨true, by rw [writeBack]; rfl⟩
  | cons target targets ih =>
      obtain ⟨entry, rest, rfl⟩ := List.exists_cons_of_length_eq_add_one hLength
      have hRest : rest.length = targets.length := by simpa using hLength
      have hNext (n : Machine) : ∃ accepted,
          writeBack ⟨before ++ entry :: rest⟩ targets (before.length + 1) n =
            .ok accepted (n.defineAll (writtenBack targets rest)) := by
        obtain ⟨accepted, h⟩ := ih hRest (before ++ [entry]) n
        rw [List.length_append, List.append_assoc] at h
        exact ⟨accepted, h⟩
      cases target with
      | none =>
          rw [writeBack]
          have hSkipped : writtenBack (none :: targets) (entry :: rest) = writtenBack targets rest := by
            unfold writtenBack
            simp
          rw [hSkipped]
          exact hNext m
      | some name =>
          have hAt : (before ++ entry :: rest)[before.length]? = some entry := by simp
          have hRebound : (Args.mk (before ++ entry :: rest)).isRebound before.length =
              entry.rebound := by
            unfold Args.isRebound
            rw [hAt]
            rfl
          have hCell : (Args.mk (before ++ entry :: rest)).get? before.length = some entry.cell := by
            unfold Args.get?
            rw [hAt]
            rfl
          rw [writeBack, hRebound, hCell]
          unfold writtenBack
          cases hEntry : entry.rebound with
          | false =>
              simp only [List.zip_cons_cons, List.filterMap_cons, hEntry]
              exact hNext m
          | true =>
              simp only [List.zip_cons_cons, List.filterMap_cons, hEntry, if_true, Option.map_some]
              obtain ⟨accepted, h⟩ := hNext (m.define name entry.cell).2
              have hDefine : lift (·.define name entry.cell) m =
                  .ok (m.define name entry.cell).1 (m.define name entry.cell).2 := rfl
              refine ⟨(m.define name entry.cell).1 && accepted, ?_⟩
              rw [bind_of_ok hDefine, bind_of_ok h]
              rfl

end Exec

namespace PendingCall

/-- What a call writes back, in the order of the parameters: for each by-reference parameter whose
argument came from a variable and which has a value in the table of the callee, that value. -/
def copyBacks (c : PendingCall) (o : Overload) (s : Scope) : List (String × Cell) :=
  (c.assignment o).filterMap fun (p, a) =>
    match p.byRef, a.bind Argument.variableName, s.stored? p.name with
    | true, some name, some cell => some (name, cell)
    | _, _, _ => none

/-- Only variables behind by-reference parameters are written back. -/
theorem exists_of_mem_copyBacks {c : PendingCall} {o : Overload} {s : Scope} {name : String}
    (h : name ∈ (c.copyBacks o s).map Prod.fst) :
    ∃ p a, (p, some a) ∈ c.assignment o ∧ p.byRef = true ∧ a.variableName = some name := by
  obtain ⟨pair, hPair, rfl⟩ := List.mem_map.1 h
  obtain ⟨⟨p, a⟩, hEntry, hCopied⟩ := List.mem_filterMap.1 hPair
  dsimp only at hCopied
  split at hCopied
  · rename_i hByRef hVariable _
    cases hCopied
    obtain ⟨argument, rfl, hName⟩ := Option.bind_eq_some_iff.1 hVariable
    exact ⟨p, argument, hEntry, hByRef, hName⟩
  · cases hCopied

theorem assignment_params (c : PendingCall) (o : Overload) :
    (c.assignment o).map Prod.fst = o.signature.params := by
  unfold assignment
  rw [List.map_map]
  exact List.zipIdx_map_fst 0 o.signature.params

theorem length_assignment (c : PendingCall) (o : Overload) :
    (c.assignment o).length = o.signature.params.length := by
  rw [← c.assignment_params o, List.length_map]

/-- One parameter: it is written back if it is rebound and there is a variable behind it. -/
theorem writtenBack_entry (s : Scope) (p : Param) (a : Option Argument) (entry : Arg)
    (hEntry : entry.rebound = false) :
    (if (Arg.copiedOut s p entry).rebound then
        (variableFor p a).map fun name => (name, (Arg.copiedOut s p entry).cell)
      else none) =
      match p.byRef, a.bind Argument.variableName, s.stored? p.name with
      | true, some name, some cell => some (name, cell)
      | _, _, _ => none := by
  unfold Arg.copiedOut variableFor
  cases p.byRef with
  | false => simp [hEntry]
  | true =>
      cases s.stored? p.name with
      | none => cases a <;> simp [hEntry]
      | some cell =>
          cases a with
          | none => rfl
          | some a =>
              simp only [if_true, Option.bind_some]
              cases a.variableName <;> rfl

/-- What is copied out of the table of a callee and then written back. -/
theorem writtenBack_copiedOut (c : PendingCall) (o : Overload) (s : Scope) :
    writtenBack ((c.assignment o).map fun (p, a) => variableFor p a)
      (List.zipWith (Arg.copiedOut s) o.signature.params
        (Args.ofCells ((c.assignment o).map fun (p, a) => cellFor p a)).entries) =
      c.copyBacks o s := by
  unfold copyBacks writtenBack Args.ofCells
  rw [← c.assignment_params o]
  induction c.assignment o with
  | nil => rfl
  | cons entry rest ih =>
      obtain ⟨p, a⟩ := entry
      simp only [List.map_cons, List.zipWith_cons_cons, List.zip_cons_cons, List.filterMap_cons] at ih ⊢
      rw [writtenBack_entry s p a _ rfl, ih]

end PendingCall

/-! ## Calls -/

namespace Exec

/-- The result of a body is always found, and it is an error unless the body ended with success. -/
theorem bodyResult_eq (ending : Ending) (m : Machine) :
    ∃ result m', bodyResult ending m = .ok result m' ∧
      (ending ≠ .success → result.isError = true) := by
  cases ending with
  | success =>
      obtain ⟨top, m₁, hPop⟩ : ∃ top m₁, attempt pop m = .ok top m₁ := by
        unfold attempt
        cases hOutcome : pop m with
        | ok cell m₁ => exact ⟨_, _, rfl⟩
        | fault cause m₁ => exact ⟨_, _, rfl⟩
        | exhausted => exact absurd hOutcome (pop_local.ends m)
      rw [bodyResult, bind_of_ok hPop]
      cases top with
      | error cause => exact ⟨_, m₁, rfl, fun h => absurd rfl h⟩
      | ok cell =>
          have hResolve : resolve cell m₁ = .ok (m₁.resolve cell).1 (m₁.resolve cell).2 := rfl
          dsimp only
          rw [bind_of_ok hResolve]
          cases (m₁.resolve cell).1 <;> exact ⟨_, _, rfl, fun h => absurd rfl h⟩
  | quit => exact ⟨_, m, rfl, fun _ => rfl⟩
  | failure line => exact ⟨_, m, rfl, fun _ => rfl⟩

theorem invokeWithin_direct {run : Args → Exec (Cell × Args)} {signature : Signature} {args : Args}
    (hOwners : signature.flags.matchOwner = true → ownersAgree args.cells = true)
    (hWhole : signature.flags.listable = true → needsBroadcast signature args = false)
    (levels : Nat) : invokeWithin run signature levels args = run args := by
  have hAgree : ¬(signature.flags.matchOwner && !ownersAgree args.cells) = true := by
    cases hFlag : signature.flags.matchOwner with
    | false => simp
    | true => simp [hOwners hFlag]
  have hDirect : ¬(signature.flags.listable && needsBroadcast signature args) = true := by
    cases hFlag : signature.flags.listable with
    | false => simp
    | true => simp [hWhole hFlag]
  cases levels with
  | zero => rw [invokeWithin, if_neg hAgree, if_neg hDirect]
  | succ levels => rw [invokeWithin, if_neg hAgree, if_neg hDirect]

/-- What a body does to the frames of its caller is undone when its own frame is left. -/
theorem leave_inCallee {fuel : Nat} {signature : Signature} {code : Code} {args : Args}
    {m m' : Machine} (h : (inCallee (execute fuel) signature code args m.enter).machine? = some m') :
    m'.leave = { m' with calls := m.calls } := by
  have hOrderly := orderly_running.toSequential.inCallee (execute_orderly fuel code) signature args
  exact Machine.leave_eq (hOrderly.relates h).waiting

/-- The callee finds no operands, and as its variables the arguments that have a value. -/
theorem defineParams_fresh {signature : Signature} (hNames : (signature.params.map Param.name).Nodup)
    (cells : List Cell) (m : Machine) :
    ∃ start, defineParams (signature.params.zip cells) m.enter = .ok () start ∧ start.stack = [] ∧
      ∀ name cell, start.scope.get? name = some cell ↔
        isProtected name = false ∧ cell.isReference = false ∧
          ∃ p, (p, cell) ∈ signature.params.zip cells ∧ p.name = name := by
  obtain ⟨hScope, hStack, -⟩ :=
    Machine.defineAll_frames m.enter (copiedIn signature.params cells)
  refine ⟨_, defineParams_eq signature.params cells m.enter, hStack, fun name cell => ?_⟩
  rw [hScope, ← mem_copiedIn,
    Scope.get?_definedAll_iff (copiedIn_names hNames cells) fun _ _ => rfl]
  have hFresh : m.enter.scope.get? name ≠ some cell := fun h => by cases h
  simp [hFresh]

section Callee

variable {m start : Machine} {signature : Signature} {code : Code} {args : Args} {fuel : Nat}
  (hStart : defineParams (signature.params.zip args.cells) m.enter = .ok () start)
  (hDepth : m.callDepth < m.maxCallDepth)

include hStart hDepth

/-- A body that ends gives its result and the values of the by-reference parameters. -/
theorem runUser_of_ok (hNames : (signature.params.map Param.name).Nodup)
    (hLength : args.entries.length = signature.params.length) {ending : Ending}
    {finished : Machine} (hEnds : execute fuel code start = .ok ending finished) {result : Cell}
    {ended : Machine} (hResult : bodyResult ending finished = .ok result ended) :
    ∃ m' : Machine, runUser (execute fuel) signature code args m =
      .ok (result, ⟨List.zipWith (Arg.copiedOut ended.scope) signature.params args.entries⟩)
        { m' with calls := m.calls } := by
  obtain ⟨m', hCopied⟩ := copyOut_eq hNames hLength [] ended
  change copyOut signature.params 0 args ended = _ at hCopied
  have hCallee : inCallee (execute fuel) signature code args m.enter =
      .ok (result, ⟨List.zipWith (Arg.copiedOut ended.scope) signature.params args.entries⟩)
        m' := by
    unfold inCallee
    rw [bind_of_ok hStart, bind_of_ok hEnds, bind_of_ok hResult, bind_of_ok hCopied]
    rfl
  refine ⟨m', ?_⟩
  rw [runUser_eq, if_neg (by omega), framed_eq, hCallee, Outcome.onMachine,
    leave_inCallee (m := m) (by rw [hCallee]; rfl)]

/-- A body that ends with a fault leaves the frames of the caller alone. -/
theorem runUser_of_fault {cause : Fault} {finished : Machine}
    (hEnds : execute fuel code start = .fault cause finished) :
    runUser (execute fuel) signature code args m =
      .fault cause { finished with calls := m.calls } := by
  have hCallee : inCallee (execute fuel) signature code args m.enter = .fault cause finished := by
    unfold inCallee
    rw [bind_of_ok hStart, bind_of_fault hEnds]
  rw [runUser_eq, if_neg (by omega), framed_eq, hCallee, Outcome.onMachine,
    leave_inCallee (m := m) (by rw [hCallee]; rfl)]

theorem runUser_of_exhausted (hEnds : execute fuel code start = .exhausted) :
    runUser (execute fuel) signature code args m = .exhausted := by
  rw [runUser_eq, if_neg (by omega), framed_eq]
  unfold inCallee
  rw [bind_of_ok hStart, bind_of_exhausted hEnds]
  rfl

end Callee

/-- The result is pushed before the rebound arguments are written back. -/
theorem push_writeBack_eq (result : Cell) {targets : List (Option String)} {entries : List Arg}
    (hLength : entries.length = targets.length) (m : Machine) :
    ∃ succeeded, (push result >>= fun _ => writeBack ⟨entries⟩ targets 0 >>= fun written =>
        Pure.pure (!result.isError && written)) m =
      .ok succeeded ((m.push result).defineAll (writtenBack targets entries)) := by
  obtain ⟨accepted, hWritten⟩ := writeBack_eq hLength [] (m.push result)
  change writeBack ⟨entries⟩ targets 0 (m.push result) = _ at hWritten
  have hPush : push result m = .ok () (m.push result) := rfl
  refine ⟨!result.isError && accepted, ?_⟩
  rw [bind_of_ok hPush, bind_of_ok hWritten]
  rfl

section Direct

variable {m : Machine} {pending : PendingCall} {outer : List PendingCall} {bound : BoundCall}
  {code : Code} (hPending : m.pending = pending :: outer) (hFinish : pending.finish = .ok bound)
  (hUser : bound.overload.body = .user code)
  (hOwners : bound.overload.signature.flags.matchOwner = true →
    ownersAgree bound.args.cells = true)
  (hWhole : bound.overload.signature.flags.listable = true →
    needsBroadcast bound.overload.signature bound.args = false)

include hPending hFinish hUser hOwners hWhole

/-- A call that is made directly runs the body, pushes its result and writes back. -/
theorem call_eq (execute : Code → Exec Ending) :
    call execute m = (runUser execute bound.overload.signature code bound.args >>= fun answer =>
      push answer.1 >>= fun _ => writeBack answer.2 bound.targets 0 >>= fun written =>
        Pure.pure (!answer.1.isError && written)) { m with pending := outer } := by
  have hBody : runBody execute bound.overload bound.args =
      runUser execute bound.overload.signature code bound.args := by
    unfold runBody
    rw [hUser]
  unfold call
  rw [takePending_bind hPending]
  unfold makeCall
  rw [hFinish]
  dsimp only
  unfold invoke
  rw [invokeWithin_direct hOwners hWhole, hBody]

/-- A call whose body ends: back in the caller's frame, the result is pushed and the parameters
that were copied out are written back. -/
theorem call_of_ok (hNames : (bound.overload.signature.params.map Param.name).Nodup)
    (hDepth : m.callDepth < m.maxCallDepth) {start : Machine}
    (hStart : defineParams (bound.overload.signature.params.zip bound.args.cells)
      ({ m with pending := outer } : Machine).enter = .ok () start) {fuel : Nat} {ending : Ending}
    {finished : Machine} (hEnds : execute fuel code start = .ok ending finished) {result : Cell}
    {ended : Machine} (hResult : bodyResult ending finished = .ok result ended) :
    ∃ (succeeded : Bool) (m' : Machine), call (execute fuel) m = .ok succeeded
      ((({ m' with calls := m.calls } : Machine).push result).defineAll
        (pending.copyBacks bound.overload ended.scope)) := by
  obtain ⟨-, -, hArgs, hTargets⟩ := PendingCall.finish_eq_ok hFinish
  have hLength : bound.args.entries.length = bound.overload.signature.params.length := by
    simp [hArgs, Args.ofCells, PendingCall.length_assignment]
  have hEntries : (List.zipWith (Arg.copiedOut ended.scope) bound.overload.signature.params
      bound.args.entries).length = bound.targets.length := by
    simp [hLength, hTargets, PendingCall.length_assignment]
  have hWritten := pending.writtenBack_copiedOut bound.overload ended.scope
  rw [← hTargets, ← hArgs] at hWritten
  have hCall := call_eq hPending hFinish hUser hOwners hWhole (execute fuel)
  obtain ⟨m', hRun⟩ := runUser_of_ok hStart hDepth hNames hLength hEnds hResult
  obtain ⟨succeeded, hReturn⟩ := push_writeBack_eq result hEntries { m' with calls := m.calls }
  rw [hWritten] at hReturn
  exact ⟨succeeded, m', hCall.trans ((bind_of_ok hRun).trans hReturn)⟩

end Direct
end Exec

/-- A call of a user-defined function that is made directly and below the nesting limit copies in
and copies out.  The body starts with no operands and with the arguments that have a value as its
variables.  If it ends, the call does, with one result pushed and the by-reference parameters
written back, and no other variable of the caller changed; an interruption or a failure becomes an
error as the result.  If it ends with a fault, so does the call, and the frames of the caller are
what they were.  The parameters have different names, as in every signature that is read from a
description (`Signature.Described.names_nodup`). -/
theorem call_copies_in_and_out {m : Machine} {pending : PendingCall} {outer : List PendingCall}
    {bound : BoundCall} {code : Code} (hPending : m.pending = pending :: outer)
    (hFinish : pending.finish = .ok bound) (hUser : bound.overload.body = .user code)
    (hNames : (bound.overload.signature.params.map Param.name).Nodup)
    (hOwners : bound.overload.signature.flags.matchOwner = true →
      ownersAgree bound.args.cells = true)
    (hWhole : bound.overload.signature.flags.listable = true →
      needsBroadcast bound.overload.signature bound.args = false)
    (hDepth : m.callDepth < m.maxCallDepth) (fuel : Nat) :
    ∃ start : Machine,
      Exec.defineParams (bound.overload.signature.params.zip bound.args.cells)
        ({ m with pending := outer } : Machine).enter = .ok () start ∧
      start.stack = [] ∧
      (∀ name cell, start.scope.get? name = some cell ↔
        isProtected name = false ∧ cell.isReference = false ∧
          ∃ p, (p, cell) ∈ bound.overload.signature.params.zip bound.args.cells ∧ p.name = name) ∧
      (∀ ending finished, Exec.execute fuel code start = .ok ending finished →
        ∃ result ended succeeded after,
          Exec.bodyResult ending finished = .ok result ended ∧
          (ending ≠ .success → result.isError = true) ∧
          Exec.call (Exec.execute fuel) m = .ok succeeded after ∧
          after.stack = result :: m.stack ∧
          after.scope = m.scope.definedAll (pending.copyBacks bound.overload ended.scope) ∧
          (∀ name, name ∉ (pending.copyBacks bound.overload ended.scope).map Prod.fst →
            after.scope.get? name = m.scope.get? name) ∧
          after.calls.waiting = m.calls.waiting) ∧
      (∀ cause finished, Exec.execute fuel code start = .fault cause finished →
        ∃ after, Exec.call (Exec.execute fuel) m = .fault cause after ∧ after.calls = m.calls) ∧
      (Exec.execute fuel code start = .exhausted → Exec.call (Exec.execute fuel) m = .exhausted) := by
  have hCall := Exec.call_eq hPending hFinish hUser hOwners hWhole (Exec.execute fuel)
  obtain ⟨start, hStart, hEmpty, hTable⟩ :=
    Exec.defineParams_fresh hNames bound.args.cells { m with pending := outer }
  refine ⟨start, hStart, hEmpty, hTable, fun ending finished hEnds => ?_,
    fun cause finished hEnds => ?_, fun hEnds => ?_⟩
  · obtain ⟨result, ended, hResult, hError⟩ := Exec.bodyResult_eq ending finished
    obtain ⟨succeeded, m', hReturn⟩ := Exec.call_of_ok hPending hFinish hUser hOwners hWhole hNames
      hDepth hStart hEnds hResult
    obtain ⟨hScope, hStack, hWaiting⟩ := Machine.defineAll_frames
      (({ m' with calls := m.calls } : Machine).push result)
      (pending.copyBacks bound.overload ended.scope)
    refine ⟨result, ended, succeeded, _, hResult, hError, hReturn, hStack, hScope,
      fun name hName => ?_, hWaiting⟩
    rw [hScope]
    exact Scope.get?_definedAll_of_notMem hName m.scope
  · have hRun := Exec.runUser_of_fault hStart hDepth hEnds
    exact ⟨_, hCall.trans (Exec.bind_of_fault hRun), rfl⟩
  · have hRun := Exec.runUser_of_exhausted hStart hDepth hEnds
    exact hCall.trans (Exec.bind_of_exhausted hRun)

/-! ### A variable by reference and one by value -/

/-- A function that adds its second parameter to its first, and then clears the second. -/
def bumping : Overload where
  signature := ⟨"Bump", [.byReference "x" .number, .byValue "y" .number], .number, .plain⟩
  body := .user #[⟨.pushRef "x", 1⟩, ⟨.pushRef "x", 2⟩, ⟨.pushRef "y", 3⟩, ⟨.binary .plus, 4⟩,
    ⟨.binary .assign, 5⟩, ⟨.pushRef "y", 6⟩, ⟨.push (.integer 0), 7⟩, ⟨.binary .assign, 8⟩]

/-- A call of the function on two variables. -/
def bumpingCall : PendingCall :=
  (((PendingCall.init "Bump" [bumping]).bind (fun _ => true) none
    (.ofVariable "a" (.integer 2)) .automatic).1.bind (fun _ => true) none
    (.ofVariable "b" (.integer 3)) .automatic).1

def bumpingMachine : Machine :=
  { coreMachine with
    calls := ⟨⟨⟨[("a", .integer 2), ("b", .integer 3)]⟩, [.text "waits"]⟩, []⟩
    pending := [bumpingCall] }

theorem call_copies_in_and_out_bumping :
    ∃ succeeded after, Exec.call (Exec.execute 40) bumpingMachine = .ok succeeded after ∧
      after.stack = [.integer 0, .text "waits"] ∧
      after.scope.get? "a" = some (.integer 5) ∧ after.scope.get? "b" = some (.integer 3) := by
  have hFinish : bumpingCall.finish =
      .ok ⟨bumping, Args.ofCells [.integer 2, .integer 3], [some "a", none]⟩ := rfl
  have hMade : (Exec.call (Exec.execute 40) bumpingMachine).made = true := by decide +kernel
  have hLeft : (Exec.call (Exec.execute 40) bumpingMachine).machine?.map
      (fun m => (m.stack.head?.bind Cell.asInteger?, (m.scope.get? "a").bind Cell.asInteger?)) =
        some (some 0, some 5) := by
    decide +kernel
  obtain ⟨start, -, -, -, hOk, hFault, hExhausted⟩ :=
    call_copies_in_and_out (m := bumpingMachine) rfl hFinish rfl (by decide) (fun h => by cases h)
      (fun h => by cases h) (by decide) 40
  cases hOutcome : Exec.execute 40 _ start with
  | ok ending finished =>
      obtain ⟨result, ended, succeeded, after, -, -, hCall, hStack, -, hOthers, -⟩ :=
        hOk ending finished hOutcome
      rw [hCall] at hLeft
      obtain ⟨hResult, hBumped⟩ := Prod.mk.inj (Option.some.inj hLeft)
      rw [hStack] at hResult
      obtain rfl := Cell.eq_of_asInteger? hResult
      obtain ⟨bumped, hGet, hValue⟩ := Option.bind_eq_some_iff.1 hBumped
      obtain rfl := Cell.eq_of_asInteger? hValue
      have hAssigned : bumpingCall.assignment bumping =
          [(.byReference "x" .number, some (.ofVariable "a" (.integer 2))),
            (.byValue "y" .number, some (.ofVariable "b" (.integer 3)))] := rfl
      refine ⟨succeeded, after, hCall, hStack, hGet,
        (hOthers "b" fun hMember => ?_).trans rfl⟩
      obtain ⟨p, a, hEntry, hByRef, hName⟩ := PendingCall.exists_of_mem_copyBacks hMember
      rw [hAssigned] at hEntry
      rcases List.mem_cons.1 hEntry with hFirst | hSecond
      · cases hFirst
        exact absurd (Option.some.inj hName) (by decide)
      · cases List.mem_singleton.1 hSecond
        cases hByRef
  | fault cause finished =>
      obtain ⟨after, hCall, -⟩ := hFault cause finished hOutcome
      rw [hCall] at hMade
      cases hMade
  | exhausted =>
      rw [hExhausted hOutcome] at hMade
      cases hMade

end CellMachine
