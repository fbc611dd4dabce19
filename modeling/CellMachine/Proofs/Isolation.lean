import CellMachine.Core.Library
import CellMachine.Proofs.FrameBalance

/-!
# What a run can see

Two runs of one computation are compared, in machines with the same active frame and the same
streams but with different surroundings: other values in the waiting frames, and further calls
pending below those of the first machine (`Surroundings.Agree`).  As long as the first run does not
miss a pending call, the two end alike, and the further calls are still there, untouched
(`Isolated`).

The computations are put together from native functions that neither run programs nor tear the
machine down.  Such a function could observe that a nested run missed a pending call; nothing is
said about it here.  Neither is it said that the second run misses a call where the first does: it
does NOT, and `call_isolated_iff` shows that this is the only difference.
-/

namespace CellMachine

/-! ## Quiet machines -/

/-- The body runs no programs but its own code. -/
def Overload.Quiet (o : Overload) : Prop :=
  ∀ resolve, o.body = .native resolve → ∀ args, (resolve args).Quiet

/-- No function that the machine can come to run re-enters the machine. -/
def Machine.Quiet (m : Machine) : Prop := ∀ o, m.Holds o → o.Quiet

theorem Machine.Evolves.quiet {m m' : Machine} (h : m.Evolves m') (hQuiet : m.Quiet) : m'.Quiet :=
  fun o ho => hQuiet o (h.holds o ho)

/-! ### The core library -/

theorem CoreFunction.resolve_steady (f : CoreFunction) (args : Args) : (f.resolve args).Steady := by
  unfold resolve
  split
  · trivial
  · split
    · unfold Core.concat
      split
      · trivial
      · split <;> trivial
      · trivial
    · unfold Core.write
      split
      · intro refusal
        cases refusal <;> trivial
      · trivial
    · intro line
      cases line <;> trivial
    · unfold Core.assign
      split <;> trivial

/-- The body is a core function, and an assignment takes by value what it assigns. -/
def Overload.IsCore (o : Overload) : Prop :=
  ∃ f : CoreFunction, o.body = .native f.resolve ∧
    (f = .assign → o.signature.params = [.byReference "x" .any, .byValue "y" .any])

theorem Core.library_isCore : ∀ o ∈ library, o.IsCore := by
  simp only [library, List.forall_mem_cons, List.not_mem_nil, false_implies, implies_true, and_true]
  and_intros
  all_goals
    refine ⟨_, rfl, ?_⟩
    simp

theorem Core.library_quiet : ∀ o ∈ library, o.Quiet := by
  intro o ho resolve hBody args
  obtain ⟨f, hf, -⟩ := library_isCore o ho
  rw [hf] at hBody
  cases hBody
  exact (f.resolve_steady args).quiet

theorem Registry.mem_append {name key : String} {added o : Overload} {overloads : List Overload}
    {entries : List (String × List Overload)}
    (h : (append name added entries).lookup key = some overloads) (ho : o ∈ overloads) :
    o = added ∨ ∃ earlier, entries.lookup key = some earlier ∧ o ∈ earlier := by
  induction entries with
  | nil =>
      rw [append, List.lookup_cons] at h
      split at h
      · cases h
        exact Or.inl (List.mem_singleton.1 ho)
      · cases h
  | cons entry rest ih =>
      obtain ⟨first, members⟩ := entry
      rw [append] at h
      split at h
      · rw [List.lookup_cons] at h ⊢
        split at h
        · cases h
          rcases List.mem_append.1 ho with hEarlier | hAdded
          · exact Or.inr ⟨members, rfl, hEarlier⟩
          · exact Or.inl (List.mem_singleton.1 hAdded)
        · exact Or.inr ⟨overloads, h, ho⟩
      · rw [List.lookup_cons] at h ⊢
        split at h
        · exact Or.inr ⟨overloads, h, ho⟩
        · exact ih h

namespace Machine

/-- Adding a function adds at most that function to what the machine can come to run. -/
theorem addFunction_holds {m : Machine} {o other : Overload}
    (h : (m.addFunction o).2.Holds other) : other = o ∨ m.Holds other := by
  unfold addFunction Registry.register at h
  by_cases hAdmitted : m.registry.admits o = true
  · simp only [hAdmitted, if_true] at h
    rcases h with ⟨name, overloads, hGet, hMem⟩ | hPending
    · rcases Registry.mem_append hGet hMem with rfl | ⟨earlier, hEarlier, hMem⟩
      · exact Or.inl rfl
      · exact Or.inr (Or.inl ⟨name, earlier, hEarlier, hMem⟩)
    · exact Or.inr (Or.inr hPending)
  · simp only [hAdmitted] at h
    exact Or.inr h

theorem addFunctions_holds {m : Machine} {overloads : List Overload} {other : Overload}
    (h : (m.addFunctions overloads).2.Holds other) : other ∈ overloads ∨ m.Holds other := by
  induction overloads generalizing m with
  | nil => exact Or.inr h
  | cons o rest ih =>
      rcases ih h with hRest | hFirst
      · exact Or.inl (List.mem_cons_of_mem _ hRest)
      · rcases addFunction_holds hFirst with rfl | hEarlier
        · exact Or.inl List.mem_cons_self
        · exact Or.inr hEarlier

theorem withCore_holds {m : Machine} {o : Overload} (h : m.withCore.Holds o) :
    o ∈ Core.library ∨ m.Holds o := addFunctions_holds h

/-- No core function re-enters the machine. -/
theorem withCore_quiet {m : Machine} (hm : m.Quiet) : m.withCore.Quiet := by
  intro o ho
  rcases withCore_holds ho with hCore | hEarlier
  · exact Core.library_quiet o hCore
  · exact hm o hEarlier

end Machine

/-! ## Surroundings that agree -/

/-- Surroundings that differ in the contents of the waiting frames and in further pending calls. -/
structure Surroundings.Agree (outer : List PendingCall) (s t : Surroundings) : Prop where
  pending : t.pending = s.pending ++ outer
  registry : t.registry = s.registry
  maxCallDepth : t.maxCallDepth = s.maxCallDepth
  depth : t.waiting.length = s.waiting.length

theorem Surroundings.Agree.pending_within {outer : List PendingCall} {m : Machine}
    {s : Surroundings} (h : m.surroundings.Agree outer s) :
    (m.within s).pending = m.pending ++ outer := h.pending

theorem Surroundings.Agree.get?_within {outer : List PendingCall} {m : Machine}
    {s : Surroundings} (h : m.surroundings.Agree outer s) (name : String) :
    (m.within s).registry.get? name = m.registry.get? name := by
  change s.registry.get? name = _
  rw [h.registry]
  rfl

namespace Machine

variable {outer : List PendingCall} {m : Machine} {s : Surroundings}

theorem callDepth_within (h : m.surroundings.Agree outer s) :
    (m.within s).callDepth = m.callDepth := by
  change s.waiting.length + 1 = m.calls.waiting.length + 1
  rw [h.depth]
  rfl

theorem initCall_within (h : m.surroundings.Agree outer s) (name : String) :
    ∃ s', (m.initCall name).2.surroundings.Agree outer s' ∧
      (m.within s).initCall name = answering (·.within s') (m.initCall name) := by
  unfold initCall
  rw [h.get?_within]
  cases m.registry.get? name with
  | none => exact ⟨s, h, rfl⟩
  | some overloads =>
      refine ⟨{ s with pending := .init name overloads :: s.pending }, ?_, rfl⟩
      refine ⟨?_, h.registry, h.maxCallDepth, h.depth⟩
      change _ :: s.pending = _ :: m.pending ++ outer
      rw [h.pending]
      rfl

theorem help_within (h : m.surroundings.Agree outer s) (name : String) :
    (m.within s).help name = answering (·.within s) (m.help name) := by
  unfold help
  rw [h.get?_within]
  cases m.registry.get? name with
  | none => rfl
  | some overloads => exact (within_exchange s).printLines m _

theorem enter_within (h : m.surroundings.Agree outer s) :
    ∃ t, m.enter.surroundings.Agree outer t ∧ (m.within s).enter = m.enter.within t := by
  refine ⟨{ s with waiting := m.calls.active :: s.waiting }, ?_, rfl⟩
  refine ⟨h.pending, h.registry, h.maxCallDepth, ?_⟩
  change s.waiting.length + 1 = m.calls.waiting.length + 1
  rw [h.depth]
  rfl

/-- Both machines return to the frame before if neither changed the frames below. -/
theorem leave_within {m' : Machine} {s' : Surroundings} (hStart : m.surroundings.Agree outer s)
    (h : m'.surroundings.Agree outer s') (hFirst : m'.calls.waiting = m.enter.calls.waiting)
    (hSecond : (m'.within s').calls.waiting = (m.within s).enter.calls.waiting) :
    ∃ t, m'.leave.surroundings.Agree outer t ∧ (m'.within s').leave = m'.leave.within t := by
  rw [leave_eq hFirst, leave_eq hSecond]
  refine ⟨{ s' with waiting := s.waiting }, ?_, rfl⟩
  exact ⟨h.pending, h.registry, h.maxCallDepth, hStart.depth⟩

/-- The second machine gives up as many calls as the first, all of them above the further ones. -/
theorem settle_within {m' : Machine} {s' : Surroundings} (hStart : m.surroundings.Agree outer s)
    (h : m'.surroundings.Agree outer s') :
    ∃ t, (m'.settle m.pending.length).surroundings.Agree outer t ∧
      (m'.within s').settle (m.within s).pending.length =
        (m'.settle m.pending.length).within t := by
  have hCount : (m'.within s').pending.length - (m.within s).pending.length =
      m'.pending.length - m.pending.length := by
    rw [hStart.pending_within, h.pending_within, List.length_append, List.length_append]
    omega
  refine ⟨{ s' with pending := m'.pending.drop (m'.pending.length - m.pending.length) ++ outer },
    ⟨rfl, h.registry, h.maxCallDepth, h.depth⟩, ?_⟩
  unfold settle
  rw [hCount, h.pending_within, List.drop_append_of_le_length (by omega)]
  rfl

end Machine

/-! ## Isolated computations -/

/-- The first outcome is a missed call, or the second is the same in surroundings that agree. -/
inductive Outcome.Matches {α : Type} (outer : List PendingCall) : Outcome α → Outcome α → Prop
  | ok {value : α} {m : Machine} {s : Surroundings} (h : m.surroundings.Agree outer s) :
      Matches outer (.ok value m) (.ok value (m.within s))
  | fault {cause : Fault} {m : Machine} {s : Surroundings} (h : m.surroundings.Agree outer s) :
      Matches outer (.fault cause m) (.fault cause (m.within s))
  | exhausted : Matches outer .exhausted .exhausted
  | missed {m : Machine} {o : Outcome α} (h : outer ≠ []) :
      Matches outer (.fault .noPendingCall m) o

/-- What is done to the machines afterwards may keep them alike. -/
theorem Outcome.Matches.onMachine {α : Type} {outer : List PendingCall} {first second : Outcome α}
    (h : first.Matches outer second) {f g : Machine → Machine}
    (hAlike : ∀ {m s}, first.machine? = some m → second.machine? = some (m.within s) →
      m.surroundings.Agree outer s →
      ∃ t, (f m).surroundings.Agree outer t ∧ g (m.within s) = (f m).within t) :
    (first.onMachine f).Matches outer (second.onMachine g) := by
  cases h with
  | ok h =>
      obtain ⟨t, hAgree, hEq⟩ := hAlike rfl rfl h
      simp only [Outcome.onMachine, hEq]
      exact .ok hAgree
  | fault h =>
      obtain ⟨t, hAgree, hEq⟩ := hAlike rfl rfl h
      simp only [Outcome.onMachine, hEq]
      exact .fault hAgree
  | exhausted => exact .exhausted
  | missed h => exact .missed h

namespace Exec

variable {α β : Type} {outer : List PendingCall}

/-- The computation ends alike in surroundings that agree, unless it misses a pending call. -/
structure Isolated (outer : List PendingCall) (x : Exec α) : Prop where
  orderly : Orderly x
  alike : ∀ {m : Machine} {s : Surroundings}, m.Quiet → m.surroundings.Agree outer s →
    (x m).Matches outer (x (m.within s))

namespace Isolated

theorem of_local {x : Exec α} (hx : Local x) : Isolated outer x where
  orderly := Machine.Evolves.frameable.of_local hx
  alike {m s} _ hAgree := by
    rw [hx.commutes (Machine.within_exchange s) m]
    cases hOutcome : x m with
    | ok value m' =>
        rw [← hx.surroundings_eq (m := m) (by rw [hOutcome]; rfl)] at hAgree
        exact .ok hAgree
    | fault cause m' =>
        rw [← hx.surroundings_eq (m := m) (by rw [hOutcome]; rfl)] at hAgree
        exact .fault hAgree
    | exhausted => exact .exhausted

theorem lift {f : Machine → α × Machine} (hf : Orderly (Exec.lift f))
    (hAlike : ∀ {m s}, m.surroundings.Agree outer s →
      ∃ s', (f m).2.surroundings.Agree outer s' ∧ f (m.within s) = Machine.answering (·.within s') (f m)) :
    Isolated outer (Exec.lift f) where
  orderly := hf
  alike {m s} _ hAgree := by
    obtain ⟨s', hAgree', hEq⟩ := hAlike hAgree
    unfold Exec.lift
    rw [hEq]
    exact .ok hAgree'

/-- The second computation may depend on what is known of the first one's value. -/
theorem bind_of {x : Exec α} {f : α → Exec β} (hx : Isolated outer x) (hf : ∀ a, Orderly (f a))
    (hAlike : ∀ {m m' : Machine} {a : α}, m.Quiet → x m = .ok a m' → Isolated outer (f a)) :
    Isolated outer (x >>= f) where
  orderly := Machine.Evolves.frameable.bind hx.orderly hf
  alike {m s} hQuiet hAgree := by
    change (Exec.bind x f m).Matches outer (Exec.bind x f (m.within s))
    unfold Exec.bind
    have hFirst := hx.alike hQuiet hAgree
    generalize hOutcome : x m = first at hFirst
    generalize x (m.within s) = second at hFirst
    cases hFirst with
    | ok hAgree' =>
        -- No function turns up in the first computation that was not held before.
        have hEvolves := hx.orderly.relates (m := m) (by rw [hOutcome]; rfl)
        exact (hAlike hQuiet hOutcome).alike (hEvolves.quiet hQuiet) hAgree'
    | fault hAgree' => exact .fault hAgree'
    | exhausted => exact .exhausted
    | missed hOuter => exact .missed hOuter

theorem bind {x : Exec α} {f : α → Exec β} (hx : Isolated outer x)
    (hf : ∀ a, Isolated outer (f a)) : Isolated outer (x >>= f) :=
  hx.bind_of (fun a => (hf a).orderly) fun {_ _ a} _ _ => hf a

/-- A fresh frame hides the frames below it from the computation, and they are back afterwards. -/
theorem inFrame {x : Exec α} (hx : Isolated outer x) : Isolated outer (framed x) where
  orderly := Machine.Evolves.frameable.inFrame hx.orderly
  alike {m s} hQuiet hAgree := by
    obtain ⟨t, hEnter, hEq⟩ := Machine.enter_within hAgree
    have hInner := hx.alike (m := m.enter) hQuiet hEnter
    rw [← hEq] at hInner
    rw [framed_eq, framed_eq]
    refine hInner.onMachine fun hFirst hSecond h => ?_
    exact Machine.leave_within hAgree h (hx.orderly.relates hFirst).waiting
      (hx.orderly.relates hSecond).waiting

theorem compositional : Compositional (Isolated outer) where
  of_local := of_local
  bind := bind
  exhausted := ⟨Keeps.exhausted, fun _ _ => .exhausted⟩
  inFrame := inFrame
  depths f := by
    refine lift (f := fun m => (f m.callDepth m.maxCallDepth, m)) (Keeps.lift Machine.Evolves.refl)
      fun {m s} hAgree => ⟨s, hAgree, ?_⟩
    rw [Machine.callDepth_within hAgree]
    change (f _ s.maxCallDepth, _) = _
    rw [hAgree.maxCallDepth]
    rfl

end Isolated

/-! ## Pending calls -/

theorem settling_isolated {x : Exec α} (hx : Isolated outer x) : Isolated outer (settling x) where
  orderly := settling_orderly hx.orderly
  alike {m s} hQuiet hAgree := by
    rw [settling_eq, settling_eq]
    exact (hx.alike hQuiet hAgree).onMachine fun _ _ h => Machine.settle_within hAgree h

/-- Where no call is pending the first machine misses it, and so does the second unless there are
further calls. -/
theorem matches_of_missed {x : Exec α}
    (hx : ∀ n : Machine, n.pending = [] → x n = .fault .noPendingCall n) {m : Machine}
    {s : Surroundings} (hAgree : m.surroundings.Agree outer s) (hPending : m.pending = []) :
    (x m).Matches outer (x (m.within s)) := by
  rw [hx m hPending]
  cases outer with
  | nil =>
      have hNone : (m.within s).pending = [] := by
        rw [hAgree.pending_within, hPending]
        rfl
      rw [hx _ hNone]
      exact .fault hAgree
  | cons c rest => exact .missed (List.cons_ne_nil c rest)

theorem bindArgument_isolated (param : Option String) (mode : PassMode) (a : Argument) :
    Isolated outer (bindArgument param mode a) where
  orderly := bindArgument_orderly param mode a
  alike {m s} _ hAgree := by
    cases hPending : m.pending with
    | nil =>
        refine matches_of_missed (fun n hn => ?_) hAgree hPending
        unfold bindArgument
        rw [hn]
    | cons innermost rest =>
        unfold bindArgument
        rw [hAgree.pending_within, hPending, List.cons_append]
        have hBound (c : PendingCall) : ({ m with pending := c :: rest } : Machine).surroundings.Agree
            outer { s with pending := c :: (rest ++ outer) } :=
          ⟨rfl, hAgree.registry, hAgree.maxCallDepth, hAgree.depth⟩
        dsimp only
        split
        · exact .ok hAgree
        · split
          · exact .ok (hBound _)
          · -- The refusal is reported, which no surroundings see.
            rename_i d _
            exact .ok (m := ({ m with pending := _ :: rest } : Machine).report d) (s := { s with
              pending := _ :: (rest ++ outer) }) (hBound (innermost.bind Handle.valid param a mode).1)

theorem bindTop_isolated (param : Option String) (mode : PassMode) :
    Isolated outer (bindTop param mode) where
  orderly := bindTop_orderly param mode
  alike {m s} hQuiet hAgree := by
    cases hPending : m.pending with
    | nil =>
        refine matches_of_missed (fun n hn => ?_) hAgree hPending
        rw [bindTop_eq, hn]
        rfl
    | cons innermost rest =>
        rw [bindTop_eq, bindTop_eq, hAgree.pending_within, hPending]
        exact ((Isolated.of_local popArgument_local).bind
          (bindArgument_isolated param mode)).alike hQuiet hAgree

theorem takePending_isolated : Isolated outer takePending where
  orderly := takePending_orderly
  alike {m s} _ hAgree := by
    cases hPending : m.pending with
    | nil =>
        refine matches_of_missed (fun n hn => ?_) hAgree hPending
        unfold takePending
        rw [hn]
    | cons innermost rest =>
        unfold takePending
        rw [hAgree.pending_within, hPending]
        exact .ok (s := { s with pending := rest ++ outer })
          ⟨rfl, hAgree.registry, hAgree.maxCallDepth, hAgree.depth⟩

theorem runBody_isolated {execute : Code → Exec Ending}
    (hExecute : ∀ code, Isolated outer (execute code)) {o : Overload} (hQuiet : o.Quiet)
    (args : Args) : Isolated outer (runBody execute o args) := by
  unfold runBody
  cases hBody : o.body with
  | native resolve =>
      exact Isolated.compositional.runNative _ (Or.inl (hQuiet resolve hBody args))
  | user code => exact Isolated.compositional.runUser hExecute o.signature code args

/-- The overloads of the call that is taken were held by the machine, so they are quiet. -/
theorem call_isolated {execute : Code → Exec Ending}
    (hExecute : ∀ code, Isolated outer (execute code)) : Isolated outer (call execute) := by
  refine takePending_isolated.bind_of (fun pending => ?_) fun {m m' pending} hQuiet hTake => ?_
  · exact Machine.Evolves.frameable.compositional.makeCall pending fun o _ args =>
      Machine.Evolves.frameable.runBody (fun code => (hExecute code).orderly) o args
  · have hTaken := mem_of_takePending hTake
    exact Isolated.compositional.makeCall pending fun o ho args =>
      runBody_isolated hExecute (hQuiet o (Or.inr ⟨pending, hTaken, ho⟩)) args

/-- Every computation of the machine is isolated. -/
theorem isolated_running : Running fun {α} (x : Exec α) => Isolated outer x where
  toCompositional := Isolated.compositional
  settling := settling_isolated
  badTarget _ _ := ⟨Machine.Evolves.frameable.fault fun _ => trivial, fun _ h => .fault h⟩
  badCondition _ := ⟨Machine.Evolves.frameable.fault fun _ => trivial, fun _ h => .fault h⟩
  initCall name := .lift (initCall_orderly name) fun h => Machine.initCall_within h name
  help name := .lift (help_orderly name) fun {m s} h => by
    refine ⟨s, ?_, Machine.help_within h name⟩
    rw [m.help_surroundings name]
    exact h
  bindTop := bindTop_isolated
  call := call_isolated

theorem execute_isolated (fuel : Nat) (code : Code) : Isolated outer (execute fuel code) :=
  isolated_running.execute fuel code

/-! ## Calls while other calls are pending -/

/-- A call takes itself off the pending calls, and what its bodies open they complete or give up. -/
theorem call_pending_length_lt {fuel : Nat} {m m' : Machine} (hPending : m.pending ≠ [])
    (h : (call (execute fuel) m).machine? = some m') : m'.pending.length < m.pending.length := by
  have hKept : Frameable (fun m m' => m'.pending.length ≤ m.pending.length) fun _ _ => True := {
    trans := fun h h' => Nat.le_trans h' h
    active := fun h => Nat.le_of_eq (congrArg (fun s => s.pending.length) h)
    framed := fun h => h
    underflow := fun _ => trivial
    leave := fun _ => trivial }
  obtain ⟨invoked, outer, hCons⟩ := List.exists_cons_of_ne_nil hPending
  unfold call at h
  rw [takePending_bind hCons] at h
  have hMade := hKept.compositional.makeCall invoked fun o _ args =>
    hKept.runBody (fun code => ⟨settling_pending_length_le (x := runFrom fuel code 0),
      fun _ => trivial⟩) o args
  have hLe : m'.pending.length ≤ outer.length := hMade.relates h
  rw [hCons, List.length_cons]
  omega

end Exec

namespace Machine

/-- The machine with further calls pending below its own. -/
def reopen (m : Machine) (outer : List PendingCall) : Machine :=
  { m with pending := m.pending ++ outer }

end Machine

/-- An isolated computation that does not miss a pending call leaves further ones alone. -/
theorem Exec.Isolated.reopen_eq {α : Type} {outer : List PendingCall} {x : Exec α}
    (hx : Isolated outer x) {m : Machine} (hQuiet : m.Quiet)
    (hKept : ∀ m', x m ≠ .fault .noPendingCall m') :
    x (m.reopen outer) = (x m).onMachine (·.reopen outer) := by
  let s : Surroundings := { m.surroundings with pending := m.pending ++ outer }
  have hReopen : m.reopen outer = m.within s := rfl
  rw [hReopen]
  have hAlike := hx.alike hQuiet (s := s) ⟨rfl, rfl, rfl, rfl⟩
  have hFirst := @Keeps.relates _ _ _ _ hx.orderly m
  have hSecond := @Keeps.relates _ _ _ _ hx.orderly (m.within s)
  generalize x m = first at hAlike hFirst hKept
  generalize x (m.within s) = second at hAlike hSecond
  -- Neither run changes the waiting frames, which are the same in both.
  have hEq {m' : Machine} {s' : Surroundings} (hm : first.machine? = some m')
      (hn : second.machine? = some (m'.within s')) (h : m'.surroundings.Agree outer s') :
      m'.within s' = m'.reopen outer := by
    have hWaiting : s'.waiting = m'.calls.waiting :=
      (hSecond hn).waiting.trans (hFirst hm).waiting.symm
    unfold Machine.within Machine.reopen
    rw [hWaiting, h.pending, h.registry, h.maxCallDepth]
    rfl
  cases hAlike with
  | ok h => exact congrArg _ (hEq rfl rfl h)
  | fault h => exact congrArg _ (hEq rfl rfl h)
  | exhausted => rfl
  | missed h => exact absurd rfl (hKept _)

/-- When a call leaves the calls alone that are pending around it: it behaves as if it were the
only one, and they are all there afterwards, exactly if by itself it would not miss a pending call.
Otherwise it binds to or makes one of them, for it looks for any pending call and not for one that
its bodies opened. -/
theorem call_isolated_iff (fuel : Nat) (m : Machine) (invoked : PendingCall)
    (outer : List PendingCall) (hOuter : outer ≠ [])
    (hQuiet : ({ m with pending := [invoked] } : Machine).Quiet) :
    (Exec.call (Exec.execute fuel) { m with pending := invoked :: outer } =
        (Exec.call (Exec.execute fuel) { m with pending := [invoked] }).onMachine
          (·.reopen outer) ∧
      ∀ m', (Exec.call (Exec.execute fuel) { m with pending := invoked :: outer }).machine? =
        some m' → m'.pending = outer) ↔
    ∀ m', Exec.call (Exec.execute fuel) { m with pending := [invoked] } ≠
      .fault .noPendingCall m' := by
  constructor
  · -- A call is only missed where none is pending, and here the further ones are.
    rintro ⟨hAlike, -⟩ m' hMissed
    rw [hMissed] at hAlike
    have hNone : m'.pending ++ outer = [] :=
      (Exec.call_orderly (Exec.execute_orderly fuel)).raises hAlike
    exact hOuter (List.append_eq_nil_iff.1 hNone).2
  · intro hKept
    have hIsolated : Exec.Isolated outer (Exec.call (Exec.execute fuel)) :=
      Exec.call_isolated (Exec.execute_isolated fuel)
    have hAlike := hIsolated.reopen_eq hQuiet hKept
    have hReopen : ({ m with pending := [invoked] } : Machine).reopen outer =
        { m with pending := invoked :: outer } := rfl
    rw [hReopen] at hAlike
    refine ⟨hAlike, fun m' hEnds => ?_⟩
    rw [hAlike] at hEnds
    rw [Outcome.machine?_onMachine, Option.map_eq_some_iff] at hEnds
    obtain ⟨m₁, hm₁, rfl⟩ := hEnds
    -- By itself the call leaves none pending, so what is left are the further ones.
    have hLess := Exec.call_pending_length_lt (List.cons_ne_nil _ _) hm₁
    have hNone : m₁.pending = [] := by
      apply List.eq_nil_of_length_eq_zero
      simpa using hLess
    unfold Machine.reopen
    rw [hNone]
    rfl

/-! ### Two bodies while a call waits for its argument -/

/-- A call of a function without parameters that is ready to be made. -/
def callOf (name : String) (body : Code) : PendingCall :=
  .init name [⟨⟨name, [], .any, .plain⟩, .user body⟩]

/-- A call that has no argument yet. -/
def awaiting : PendingCall :=
  .init "Await" [⟨⟨"Await", [.byValue "x" .any], .any, .plain⟩, .user #[]⟩]

/-- A body that opens, binds and makes a call of its own. -/
def addingBody : Code :=
  #[⟨.initCall "Plus", 1⟩, ⟨.push (.integer 2), 2⟩, ⟨.bind none .automatic, 3⟩,
    ⟨.push (.integer 3), 4⟩, ⟨.bind none .automatic, 5⟩, ⟨.call, 6⟩]

/-- A body that binds an argument without having opened a call. -/
def bindingBody : Code :=
  #[⟨.push (.integer 2), 1⟩, ⟨.bind none .automatic, 2⟩, ⟨.push (.integer 9), 3⟩]

/-- A machine at top level with the core library. -/
def coreMachine : Machine := (Machine.bare 8 [] .fresh).withCore

theorem coreMachine_quiet : coreMachine.Quiet := by
  refine Machine.withCore_quiet ?_
  rintro o (⟨name, overloads, hGet, -⟩ | ⟨c, hc, -⟩)
  · cases hGet
  · cases hc

/-- Whether a call was made with success. -/
def Outcome.made : Outcome Bool → Bool
  | ok succeeded _ => succeeded
  | fault _ _ => false
  | exhausted => false

theorem Outcome.exists_of_made {o : Outcome Bool} (h : o.made = true) :
    ∃ m', o = .ok true m' := by
  cases o with
  | ok succeeded m' =>
      obtain rfl : succeeded = true := h
      exact ⟨m', rfl⟩
  | fault cause m' => cases h
  | exhausted => cases h

theorem call_isolated_adding :
    Exec.call (Exec.execute 20)
        { coreMachine with pending := callOf "Add" addingBody :: [awaiting] } =
      (Exec.call (Exec.execute 20)
        { coreMachine with pending := [callOf "Add" addingBody] }).onMachine
          (·.reopen [awaiting]) ∧
    ∀ m', (Exec.call (Exec.execute 20)
        { coreMachine with pending := callOf "Add" addingBody :: [awaiting] }).machine? = some m' →
      m'.pending = [awaiting] := by
  have hQuiet : ({ coreMachine with pending := [callOf "Add" addingBody] } : Machine).Quiet := by
    rintro o (hRegistered | ⟨c, hc, ho⟩)
    · exact coreMachine_quiet o (Or.inl hRegistered)
    · obtain rfl := List.mem_singleton.1 hc
      obtain rfl := List.mem_singleton.1 ho
      intro resolve hBody
      cases hBody
  have hMade : (Exec.call (Exec.execute 20)
      { coreMachine with pending := [callOf "Add" addingBody] }).made = true := by
    decide +kernel
  refine (call_isolated_iff 20 coreMachine (callOf "Add" addingBody) [awaiting]
    (List.cons_ne_nil _ _) hQuiet).2 fun m' hMissed => ?_
  have hFailed := congrArg Outcome.made hMissed
  rw [hMade] at hFailed
  cases hFailed

/-- A body that binds without having opened a call binds to the call that waits around it, where
it would miss a pending call by itself. -/
theorem call_binds_for_caller :
    (∃ m', Exec.call (Exec.execute 8) { Machine.bare 8 [] .fresh with
        pending := [callOf "Bind" bindingBody, awaiting] } = .ok true m' ∧
      m'.pending ≠ [awaiting]) ∧
    ∃ m', Exec.call (Exec.execute 8) { Machine.bare 8 [] .fresh with
        pending := [callOf "Bind" bindingBody] } = .fault .noPendingCall m' := by
  refine ⟨⟨_, rfl, fun hSame => ?_⟩, _, rfl⟩
  have hBound := congrArg (List.map fun c => c.slots.map Option.isSome) hSame
  exact absurd hBound (by decide)

end CellMachine
