import CellMachine.Proofs.Dispatch
import CellMachine.Proofs.Unambiguity
import Mathlib.Data.List.Zip

/-!
# Registration appends or refuses

Functions are registered natively under several descriptions, as user-defined functions, or as
overloads that are put together already.  All three come down to offering overloads to the registry
one after the other (`Registration.offered`).  Main statement: the overloads of a name only grow at
their end, no two of them are ever ambiguous with one another, a malformed description changes
nothing at all, and of the overloads that a registration offers each is either appended or reported.

The registry compares an overload only with those before it, and only in one direction.  That is
enough because ambiguity is symmetric.  An overload that is refused is NOT tried again later.
-/

namespace CellMachine

/-! ## Ambiguity is symmetric -/

theorem CellType.overlaps_comm (a b : CellType) : a.overlaps b = b.overlaps a := by
  induction a generalizing b with
  | list a ih =>
      cases b with
      | list b => exact ih b
      | _ => simp [overlaps, Bool.or_comm]
  | _ => cases b <;> simp [overlaps, Bool.or_comm]

theorem Signature.isAmbiguousWith_comm (s t : Signature) :
    s.isAmbiguousWith t = t.isAmbiguousWith s := by
  unfold isAmbiguousWith
  simp only [Nat.max_comm t.requiredCount, Nat.min_comm t.arity]
  congr 1
  rw [← List.zip_swap, List.all_map]
  congr 1
  funext pair
  exact CellType.overlaps_comm _ _

/-- Different overloads of one name are never ambiguous with one another. -/
def Registry.Unambiguous (r : Registry) : Prop :=
  ∀ (name : String) (i j : Nat) (o o' : Overload), i ≠ j →
    (r.overloads name)[i]? = some o → (r.overloads name)[j]? = some o' →
    o.signature.isAmbiguousWith o'.signature = false

/-- It is enough to compare each overload with the later ones. -/
theorem Registry.Distinct.unambiguous {r : Registry} (h : r.Distinct) : r.Unambiguous := by
  have hLater (name : String) (i j : Nat) (o o' : Overload) (hLt : i < j)
      (hi : (r.overloads name)[i]? = some o) (hj : (r.overloads name)[j]? = some o') :
      o.signature.isAmbiguousWith o'.signature = false := by
    obtain ⟨hLeft, rfl⟩ := List.getElem?_eq_some_iff.1 hi
    obtain ⟨hRight, rfl⟩ := List.getElem?_eq_some_iff.1 hj
    exact List.pairwise_iff_getElem.1 (h name) i j hLeft hRight hLt
  intro name i j o o' hNe hi hj
  rcases Nat.lt_or_gt_of_ne hNe with hLt | hGt
  · exact hLater name i j o o' hLt hi hj
  · rw [Signature.isAmbiguousWith_comm]
    exact hLater name j i o' o hGt hj hi

/-! ## Overloads that are offered -/

/-- Of some overloads that are offered to a machine, those that are accepted are appended in order
to the overloads of their names, and each of the others is reported and is ambiguous with one that
is registered. -/
structure Machine.Enrolls (m : Machine) (offered accepted refused : List Overload) (m' : Machine) :
    Prop where
  accepted_sublist : accepted.Sublist offered
  refused_sublist : refused.Sublist offered
  perm : (accepted ++ refused).Perm offered
  overloads : ∀ name, m'.registry.overloads name =
    m.registry.overloads name ++ accepted.filter fun o => o.signature.name == name
  reported : m'.reported =
    m.reported ++ (refused.map fun o => Diagnostic.ambiguousOverload o.signature.name).toArray
  ambiguous : ∀ o ∈ refused, ∃ earlier ∈ m'.registry.overloads o.signature.name,
    earlier.signature.isAmbiguousWith o.signature = true

namespace Machine

variable {m : Machine}

/-- What one registration does: it appends the overload and reports nothing, or it reports that the
overload is ambiguous and changes nothing else. -/
theorem addFunction_cases (m : Machine) (o : Overload) :
    ((m.addFunction o).1 = true ∧ (m.addFunction o).2.reported = m.reported ∧
        ∀ name, (m.addFunction o).2.registry.overloads name =
          m.registry.overloads name ++ if o.signature.name == name then [o] else []) ∨
      (m.addFunction o).1 = false ∧
        (m.addFunction o).2 = m.report (.ambiguousOverload o.signature.name) ∧
        ∃ earlier ∈ m.registry.overloads o.signature.name,
          earlier.signature.isAmbiguousWith o.signature = true := by
  by_cases hAdmits : m.registry.admits o = true
  · left
    simp only [addFunction, Registry.register, hAdmits, if_true, true_and]
    intro name
    rw [Registry.overloads_append]
    by_cases hName : name = o.signature.name
    · simp [hName]
    · simp [hName, Ne.symm hName]
  · right
    simp only [addFunction, Registry.register, hAdmits, if_false, true_and, Bool.false_eq_true]
    simpa [Registry.admits] using hAdmits

theorem enrolls_nil (m : Machine) : m.Enrolls [] [] [] m where
  accepted_sublist := List.Sublist.refl _
  refused_sublist := List.Sublist.refl _
  perm := List.Perm.refl _
  overloads := by simp
  reported := by simp
  ambiguous := by simp

/-- One more overload in front, which is accepted or refused. -/
theorem Enrolls.cons {o : Overload} {rest accepted refused : List Overload} {m' : Machine}
    (h : (m.addFunction o).2.Enrolls rest accepted refused m') :
    ((m.addFunction o).1 = true ∧ m.Enrolls (o :: rest) (o :: accepted) refused m') ∨
      (m.addFunction o).1 = false ∧ m.Enrolls (o :: rest) accepted (o :: refused) m' := by
  rcases addFunction_cases m o with ⟨hTrue, hReported, hGrown⟩ | ⟨hFalse, hSame, earlier, hEarlier⟩
  · refine Or.inl ⟨hTrue, h.accepted_sublist.cons_cons o, h.refused_sublist.cons o, h.perm.cons o,
      fun name => ?_, ?_, h.ambiguous⟩
    · rw [h.overloads, hGrown, List.append_assoc, List.filter_cons]
      split <;> simp
    · rw [h.reported, hReported]
  · have hKept : (m.addFunction o).2.registry = m.registry := by rw [hSame]; rfl
    refine Or.inr ⟨hFalse, h.accepted_sublist.cons o, h.refused_sublist.cons_cons o,
      List.perm_middle.trans (h.perm.cons o), fun name => ?_, ?_, ?_⟩
    · rw [h.overloads, hKept]
    · rw [h.reported, hSame]
      simp [report]
    · -- What the overload was compared with is still there at the end.
      refine List.forall_mem_cons.2 ⟨⟨earlier, ?_, hEarlier.2⟩, h.ambiguous⟩
      rw [h.overloads, hKept]
      exact List.mem_append_left _ hEarlier.1

/-- Each overload that is offered is appended or reported, and the answer counts those that were
appended. -/
theorem addFunctions_enrolls (m : Machine) (offered : List Overload) :
    ∃ accepted refused, m.Enrolls offered accepted refused (m.addFunctions offered).2 ∧
      (m.addFunctions offered).1 = accepted.length := by
  induction offered generalizing m with
  | nil => exact ⟨[], [], enrolls_nil m, rfl⟩
  | cons o rest ih =>
      obtain ⟨accepted, refused, hRest, hCount⟩ := ih (m.addFunction o).2
      have hSum : (m.addFunctions (o :: rest)).1 =
          (if (m.addFunction o).1 then 1 else 0) + accepted.length := by
        rw [← hCount]
        rfl
      rcases hRest.cons with ⟨hTrue, hEnrolls⟩ | ⟨hFalse, hEnrolls⟩
      · refine ⟨o :: accepted, refused, hEnrolls, ?_⟩
        simp only [hSum, hTrue, if_true, List.length_cons]
        omega
      · refine ⟨accepted, o :: refused, hEnrolls, ?_⟩
        simp [hSum, hFalse]

theorem Enrolls.length_eq {offered accepted refused : List Overload} {m' : Machine}
    (h : m.Enrolls offered accepted refused m') :
    accepted.length + refused.length = offered.length := by
  rw [← List.length_append]
  exact h.perm.length_eq

theorem addFunction_registry (m : Machine) (o : Overload) :
    (m.addFunction o).2.registry = m.registry.attempt o := by
  unfold addFunction Registry.attempt
  cases m.registry.register o with
  | ok registry => rfl
  | error d => rfl

theorem addFunctions_registry (m : Machine) (offered : List Overload) :
    (m.addFunctions offered).2.registry = offered.foldl Registry.attempt m.registry := by
  induction offered generalizing m with
  | nil => rfl
  | cons o rest ih =>
      rw [List.foldl_cons, ← addFunction_registry]
      exact ih (m.addFunction o).2

theorem addFunctions_append (m : Machine) (offered more : List Overload) :
    (m.addFunctions (offered ++ more)).2 = ((m.addFunctions offered).2.addFunctions more).2 := by
  induction offered generalizing m with
  | nil => rfl
  | cons o rest ih => exact ih (m.addFunction o).2

end Machine

/-! ## Reading several texts -/

section Reading

variable {α β ε : Type} {f : α → Except ε β}

/-- A reader succeeds on all of some items exactly with what it gives for each of them. -/
theorem mapM_eq_ok_iff {items : List α} {values : List β} :
    items.mapM f = .ok values ↔
      List.Forall₂ (fun item value => f item = .ok value) items values := by
  induction items generalizing values with
  | nil => simp [pure, Except.pure, eq_comm]
  | cons item rest ih =>
      rw [List.mapM_cons]
      constructor
      · intro h
        cases hItem : f item with
        | error e => simp [hItem, bind, Except.bind] at h
        | ok value =>
            cases hRest : rest.mapM f with
            | error e => simp [hItem, hRest, bind, Except.bind] at h
            | ok others =>
                simp only [hItem, hRest, bind, Except.bind, pure, Except.pure, Except.ok.injEq] at h
                rw [← h]
                exact List.Forall₂.cons hItem (ih.1 hRest)
      · rintro (_ | ⟨hItem, hRest⟩)
        rw [hItem, ih.2 hRest]
        rfl

/-- A reader that fails on some items fails on one of them. -/
theorem exists_of_mapM_error {items : List α} {e : ε}
    (h : items.mapM f = .error e) : ∃ item ∈ items, f item = .error e := by
  induction items with
  | nil => cases h
  | cons item rest ih =>
      rw [List.mapM_cons] at h
      cases hItem : f item with
      | error e' =>
          rw [hItem] at h
          cases h
          exact ⟨item, List.mem_cons_self, hItem⟩
      | ok value =>
          cases hRest : rest.mapM f with
          | error e' =>
              rw [hItem, hRest] at h
              cases h
              obtain ⟨later, hMem, hLater⟩ := ih hRest
              exact ⟨later, List.mem_cons_of_mem item hMem, hLater⟩
          | ok values =>
              rw [hItem, hRest] at h
              cases h

end Reading

/-! ## Histories of registrations -/

/-- A request to register functions. -/
inductive Registration where
  | native (descriptions : List String) (flags : Flags) (resolve : Args → Native)
  | user (description : String) (flags : Flags) (code : Code)
  | overload (o : Overload)

namespace Registration

/-- The machine after a registration, whatever its answer. -/
def perform (m : Machine) : Registration → Machine
  | native descriptions flags resolve => (m.register descriptions flags resolve).2
  | user description flags code => (m.defineFunction description flags code).2
  | overload o => (m.addFunction o).2

/-- The overloads that a registration offers; with a malformed description it offers none. -/
def offered : Registration → List Overload
  | native descriptions flags resolve =>
    match descriptions.mapM Signature.parse with
    | .error _ => []
    | .ok signatures => signatures.map fun s => ⟨{ s with flags := flags }, .native resolve⟩
  | user description flags code =>
    match Signature.parse description with
    | .error _ => []
    | .ok signature => [⟨{ signature with flags := flags }, .user code⟩]
  | overload o => [o]

theorem perform_eq (m : Machine) (r : Registration) :
    r.perform m = (m.addFunctions r.offered).2 := by
  cases r with
  | native descriptions flags resolve =>
      simp only [perform, offered, Machine.register]
      cases descriptions.mapM Signature.parse with
      | error e => rfl
      | ok signatures => rfl
  | user description flags code =>
      simp only [perform, offered, Machine.defineFunction]
      cases Signature.parse description with
      | error e => rfl
      | ok signature => rfl
  | overload o => rfl

end Registration

namespace Machine

/-- The machine after some registrations, one after the other. -/
def registering (m : Machine) (history : List Registration) : Machine :=
  history.foldl Registration.perform m

/-- The machine after some registrations, where nothing had been registered before. -/
def registered (m : Machine) (history : List Registration) : Machine :=
  ({ m with registry := .empty } : Machine).registering history

theorem registering_eq (m : Machine) (history : List Registration) :
    m.registering history = (m.addFunctions (history.flatMap Registration.offered)).2 := by
  induction history generalizing m with
  | nil => rfl
  | cons r rest ih =>
      rw [List.flatMap_cons, addFunctions_append, ← Registration.perform_eq]
      exact ih (r.perform m)

theorem overloads_prefix_registering (m : Machine) (history : List Registration) (name : String) :
    m.registry.overloads name <+: (m.registering history).registry.overloads name := by
  obtain ⟨accepted, refused, hEnrolls, -⟩ :=
    m.addFunctions_enrolls (history.flatMap Registration.offered)
  rw [registering_eq, hEnrolls.overloads]
  exact List.prefix_append _ _

theorem registered_unambiguous (m : Machine) (history : List Registration) :
    (m.registered history).registry.Unambiguous := by
  unfold registered
  rw [registering_eq, addFunctions_registry]
  exact (Registry.ofAttempts_distinct _).unambiguous

/-- All descriptions of a native function are read before the first overload is added. -/
theorem register_eq_ok {m after : Machine} {descriptions : List String} {flags : Flags}
    {resolve : Args → Native} {n : Nat}
    (h : m.register descriptions flags resolve = (.ok n, after)) :
    ∃ signatures, List.Forall₂ (fun d s => Signature.parse d = .ok s) descriptions signatures ∧
      m.addFunctions (signatures.map fun s => ⟨{ s with flags := flags }, .native resolve⟩) =
        (n, after) := by
  unfold register at h
  cases hParse : descriptions.mapM Signature.parse with
  | error e => rw [hParse] at h; cases h
  | ok signatures =>
      rw [hParse] at h
      cases h
      exact ⟨signatures, mapM_eq_ok_iff.1 hParse, rfl⟩

end Machine

/-- Registration is append-only, atomic and unambiguous.  At every point of a history of
registrations no two overloads of one name are ambiguous with one another in either direction, and
whatever is registered later only appends.  A malformed description leaves the machine as it is.
Otherwise a native function appends as many overloads as its answer counts, in the order of their
descriptions, and reports all others. -/
theorem registration_laws (m : Machine) (history : List Registration) :
    (m.registered history).registry.Unambiguous ∧
      (∀ later name, (m.registered history).registry.overloads name <+:
        ((m.registered history).registering later).registry.overloads name) ∧
      (∀ descriptions flags resolve cause after,
        (m.registered history).register descriptions flags resolve = (.error cause, after) →
          after = m.registered history) ∧
      (∀ description flags code cause after,
        (m.registered history).defineFunction description flags code = (.error cause, after) →
          after = m.registered history) ∧
      ∀ descriptions flags resolve n after,
        (m.registered history).register descriptions flags resolve = (.ok n, after) →
          ∃ signatures accepted refused,
            List.Forall₂ (fun d s => Signature.parse d = .ok s) descriptions signatures ∧
            (m.registered history).Enrolls
              (signatures.map fun s => ⟨{ s with flags := flags }, .native resolve⟩)
              accepted refused after ∧
            accepted.length = n ∧ refused.length = descriptions.length - n := by
  refine ⟨m.registered_unambiguous history,
    (m.registered history).overloads_prefix_registering,
    fun descriptions flags resolve cause after h => ?_,
    fun description flags code cause after h => ?_,
    fun descriptions flags resolve n after h => ?_⟩
  · unfold Machine.register at h
    split at h
    · cases h
      rfl
    · cases h
  · unfold Machine.defineFunction at h
    split at h
    · cases h
      rfl
    · cases h
  · obtain ⟨signatures, hParsed, hAdded⟩ := Machine.register_eq_ok h
    obtain ⟨accepted, refused, hEnrolls, hCount⟩ := (m.registered history).addFunctions_enrolls
      (signatures.map fun s => ⟨{ s with flags := flags }, .native resolve⟩)
    rw [hAdded] at hEnrolls hCount
    refine ⟨signatures, accepted, refused, hParsed, hEnrolls, hCount.symm, ?_⟩
    have hLength := hEnrolls.length_eq
    rw [List.length_map, ← hParsed.length_eq] at hLength
    have hAccepted : n = accepted.length := hCount
    omega

/-! ### One of two descriptions -/

/-- A machine on which one user-defined function is registered, and a malformed one is not. -/
def oneFunction : Machine :=
  (Machine.bare 8 [] .fresh).registered
    [.user "F[] =: INTEGER" .plain #[], .user "F[" .plain #[]]

/-- Of two native functions the one with the name of the other function is refused. -/
theorem registration_laws_namesake :
    ∃ (after : Machine) (accepted refused : List Overload),
      oneFunction.register ["F[] =: TEXT", "G[] =: TEXT"] .plain (.done (.text "")) =
          (.ok 1, after) ∧
        (after.registry.overloads "F").length = 1 ∧
        after.reported = oneFunction.reported ++
          (refused.map fun o => Diagnostic.ambiguousOverload o.signature.name).toArray ∧
        accepted.length = 1 ∧ refused.length = 1 := by
  have hAnswer : (oneFunction.register ["F[] =: TEXT", "G[] =: TEXT"] .plain
      (.done (.text ""))).1.toOption = some 1 := by decide +kernel
  have hFirst : ((oneFunction.register ["F[] =: TEXT", "G[] =: TEXT"] .plain
      (.done (.text ""))).2.registry.overloads "F").length = 1 := by decide +kernel
  generalize hRegister : oneFunction.register _ _ _ = answer at hAnswer hFirst ⊢
  obtain ⟨answer, after⟩ := answer
  cases answer with
  | error cause => cases hAnswer
  | ok n =>
      obtain rfl : n = 1 := Option.some.inj hAnswer
      obtain ⟨-, -, -, -, hCount⟩ := registration_laws (Machine.bare 8 [] .fresh)
        [.user "F[] =: INTEGER" .plain #[], .user "F[" .plain #[]]
      obtain ⟨signatures, accepted, refused, -, hEnrolls, hAccepted, hRefused⟩ :=
        hCount _ _ _ _ _ hRegister
      exact ⟨after, accepted, refused, rfl, hFirst, hEnrolls.reported, hAccepted, hRefused⟩

end CellMachine
