import CellMachine.Machine.Run
import CellMachine.Proofs.Binding
import CellMachine.Proofs.Homogeneity
import CellMachine.Signature.Parser
import Mathlib.Data.List.Forall2

/-!
# Bodies run on arguments that fit

A listable overload is bound to a whole list by the tag of that list, and its body is run on what
is in the list, at whatever depth the parameter accepts it.  Main statement: a call whose arguments
were bound one after the other runs bodies only on argument vectors that fit the signature, that
is, with one cell for each parameter which the parameter accepts directly, or is by reference and
not bound yet, or is its default.

Acceptance is closed downwards in the order of tags: what accepts the tag of a list accepts the
types of its items.  This needs well-formed arguments, and signatures whose defaults are never
taken apart; those that are read from descriptions have such defaults.  It does NOT follow that the
items have the declared type itself: a parameter of type `NUMBER` is given integers.
-/

namespace CellMachine
namespace CellType

/-! ## Acceptance goes down -/

/-- What accepts a tag accepts what the tag covers. -/
theorem accepts_of_covers {wanted element t : CellType} (h : wanted.accepts element = true)
    (hCovers : element.Covers t) : t = .undetermined ∨ wanted.accepts t = true := by
  rcases hCovers.cases with rfl | rfl | ⟨rfl, hNumeric⟩ | ⟨element', t', rfl, rfl, hInner⟩
  · exact Or.inr h
  · exact Or.inl rfl
  · -- Of the types that accept mixed numbers, both accept each kind of number.
    right
    cases wanted with
    | any => rfl
    | number => exact hNumeric
    | _ => cases h
  · right
    cases wanted with
    | any => rfl
    | list wanted' =>
        rw [accepts, Bool.or_eq_true, beq_iff_eq] at h ⊢
        rcases h with rfl | h
        · exact Or.inl (undetermined_covers hInner)
        · exact accepts_of_covers h hInner
    | _ => cases h

theorem acceptsElements_list_iff {wanted element : CellType} :
    wanted.acceptsElements (.list element) = true ↔
      element = .undetermined ∨ wanted.accepts element = true ∨
        wanted.acceptsElements element = true := by
  rw [acceptsElements, Bool.or_eq_true, Bool.or_eq_true, beq_iff_eq, or_assoc]

theorem acceptsElements_of_covers {wanted element t : CellType}
    (h : wanted.acceptsElements element = true) (hCovers : element.Covers t) :
    t = .undetermined ∨ wanted.acceptsElements t = true := by
  induction element generalizing t with
  | list element ih =>
      rcases hCovers.cases with rfl | rfl | ⟨hNumber, -⟩ | ⟨element', t', hList, rfl, hInner⟩
      · exact Or.inr h
      · exact Or.inl rfl
      · cases hNumber
      · cases hList
        right
        rw [acceptsElements_list_iff] at h ⊢
        rcases h with rfl | h | h
        · -- A list of empty lists without a tag has items of just that type.
          exact Or.inl (undetermined_covers hInner)
        · exact (accepts_of_covers h hInner).imp_right Or.inl
        · exact (ih h hInner).imp_right Or.inr
  | _ => cases h

end CellType

namespace Param

/-! ## Parameters and cells -/

/-- The cell may be passed to a body for the parameter. -/
def Fits (p : Param) (cell : Cell) : Prop :=
  (p.byRef = true ∧ (cell.isReference = true ∨ p.accepts cell = true)) ∨
    (p.byRef = false ∧ cell.isReference = false ∧ p.accepts cell = true) ∨
    p.default = some cell

/-- The cell may be passed to a call for the parameter: it fits, or what is in it will. -/
def Binds (listable : Bool) (p : Param) (cell : Cell) : Prop :=
  p.Fits cell ∨
    (listable = true ∧ p.byRef = false ∧ cell.isReference = false ∧ cell.WellFormed ∧
      p.acceptsBroadcast cell = true)

/-- What a parameter that is read from a description has: it is not of the type of nulls, and its
default is not taken apart. -/
structure Sound (p : Param) : Prop where
  type_ne_null : p.type ≠ .null
  default_whole : ∀ cell, p.default = some cell → p.spreads cell = false

/-- A null counts by the type it stands for, which only a parameter of any type cannot tell from
the type of nulls. -/
theorem Sound.accepts_of_type {p : Param} (hp : p.Sound) {cell : Cell}
    (h : p.type.accepts cell.type = true) : p.accepts cell = true := by
  unfold accepts
  split
  · have hAny : p.type = .any := by
      have hNull := hp.type_ne_null
      change p.type.accepts .null = true at h
      cases hType : p.type with
      | any => rfl
      | null => exact absurd hType hNull
      | _ => rw [hType] at h; cases h
    rw [hAny]
    rfl
  · exact h

/-- What is in a list that is taken apart is accepted, or taken apart in turn. -/
theorem Sound.acceptsBroadcast_item {p : Param} (hp : p.Sound) {element : CellType} {item : Cell}
    (h : p.type.acceptsElements (.list element) = true) (hCovers : element.Covers item.type) :
    p.acceptsBroadcast item = true := by
  have hType := item.type_ne_undetermined
  unfold acceptsBroadcast
  rw [Bool.or_eq_true]
  rcases CellType.acceptsElements_list_iff.1 h with rfl | hAccepts | hElements
  · exact absurd (CellType.undetermined_covers hCovers) hType
  · left
    exact hp.accepts_of_type ((CellType.accepts_of_covers hAccepts hCovers).resolve_left hType)
  · right
    exact (CellType.acceptsElements_of_covers hElements hCovers).resolve_left hType

/-- A cell that is passed to a call and has not to be taken apart fits. -/
theorem Binds.fits {listable : Bool} {p : Param} {cell : Cell} (h : p.Binds listable cell)
    (hWhole : listable = true → p.spreads cell = false) : p.Fits cell := by
  rcases h with h | ⟨hListable, hByRef, hValue, -, hBroadcast⟩
  · exact h
  · have hAccepts := hWhole hListable
    unfold spreads at hAccepts
    rw [hByRef, hBroadcast] at hAccepts
    exact Or.inr (Or.inl ⟨hByRef, hValue, by simpa using hAccepts⟩)

/-- Only a list is taken apart, and each of its items may be passed to a call in its place. -/
theorem Sound.binds_item {p : Param} (hp : p.Sound) {listable : Bool} {cell : Cell}
    (h : p.Binds listable cell) (hSpreads : p.spreads cell = true) :
    ∃ element items, cell = .list element items ∧ ∀ item ∈ items, p.Binds listable item := by
  have hParts : p.byRef = false ∧ p.accepts cell = false ∧ p.acceptsBroadcast cell = true := by
    unfold spreads at hSpreads
    simpa [and_assoc] using hSpreads
  obtain ⟨hByRef, hRefused, hBroadcast⟩ := hParts
  have hElements : p.type.acceptsElements cell.type = true := by
    unfold acceptsBroadcast at hBroadcast
    rw [hRefused] at hBroadcast
    exact hBroadcast
  rcases h with hFits | ⟨hListable, -, -, hFormed, -⟩
  · -- A cell that fits is not taken apart: it is accepted, by reference or a default.
    rcases hFits with ⟨hRef, -⟩ | ⟨-, -, hAccepts⟩ | hDefault
    · rw [hByRef] at hRef
      cases hRef
    · rw [hRefused] at hAccepts
      cases hAccepts
    · rw [hp.default_whole cell hDefault] at hSpreads
      cases hSpreads
  · -- Here well-formedness comes in: the tag that was accepted covers the item.
    cases cell with
    | list element items =>
        refine ⟨element, items, rfl, fun item hItem => ?_⟩
        obtain ⟨hValue, hCovers, hItemFormed⟩ := Cell.wellFormed_list_iff.1 hFormed item hItem
        exact Or.inr ⟨hListable, hByRef, hValue, hItemFormed,
          hp.acceptsBroadcast_item hElements hCovers⟩
    | stream stream => cases stream <;> cases hElements
    | _ => cases hElements

end Param

/-! ## Signatures that are read -/

theorem CellType.ofName?_ne_null (text : List Char) : ofName? text ≠ some .null := by
  unfold ofName?
  dsimp only
  split <;> simp

theorem CellType.read_ne_null {text : List Char} {t : CellType} (h : CellType.read text = .ok t) :
    t ≠ .null := by
  rw [CellType.read] at h
  split at h
  · rename_i inner _
    cases hInner : CellType.read inner with
    | error e => rw [hInner] at h; cases h
    | ok element =>
        rw [hInner] at h
        cases h
        simp
  · split at h
    · rename_i hName
      cases h
      rintro rfl
      exact ofName?_ne_null _ hName
    · cases h

theorem CellType.read_of_ofName? {text : List Char} {t : CellType}
    (hPlain : elementText? text = none) (hName : ofName? (Text.trim text) = some t) :
    CellType.read text = .ok t := by
  rw [CellType.read]
  split
  · rename_i hList
    rw [hPlain] at hList
    cases hList
  · rw [hName]

/-- A default that may stand is accepted or a null, so it is not taken apart. -/
theorem Param.spreads_of_admits {p : Param} {cell : Cell} (h : p.admits cell = true) :
    p.spreads cell = false := by
  unfold admits at h
  rw [Bool.or_eq_true] at h
  unfold spreads acceptsBroadcast
  rcases h with hAccepts | hNull
  · simp [hAccepts]
  · split at hNull
    · rename_i placeholder
      have hElements : p.type.acceptsElements (Cell.null placeholder).type = false := rfl
      rw [hElements, Bool.or_false]
      cases p.byRef <;> cases p.accepts (.null placeholder) <;> rfl
    · cases hNull

theorem Param.admits_of_readDefault {p : Param} {text : List Char} {cell : Cell}
    (h : p.readDefault text = .ok cell) : p.admits cell = true := by
  unfold readDefault at h
  split at h
  · cases h
  · split at h
    · rename_i hAdmits
      cases h
      exact hAdmits
    · cases h

theorem Param.read_sound {text : List Char} {p : Param} (h : Param.read text = .ok p) :
    p.Sound := by
  unfold Param.read at h
  dsimp only at h
  split at h
  · cases h
  · rename_i parts _
    cases hType : CellType.read parts.type with
    | error e => rw [hType] at h; cases h
    | ok type =>
        rw [hType] at h
        simp only [Bind.bind, Except.bind] at h
        split at h
        · rename_i default _ _
          cases hDefault : Param.readDefault ⟨String.ofList parts.name, type, none, parts.byRef,
              parts.nullable⟩ default with
          | error e => rw [hDefault] at h; cases h
          | ok cell =>
              rw [hDefault] at h
              cases h
              refine ⟨CellType.read_ne_null hType, fun other hOther => ?_⟩
              cases hOther
              exact spreads_of_admits (admits_of_readDefault hDefault)
        · cases h
        · cases h
        · cases h
          exact ⟨CellType.read_ne_null hType, fun cell hDefault => by cases hDefault⟩

/-- Parameters are read each from its own text, and none has the name of an earlier one. -/
theorem readParams_eq_ok_iff {seen params : List Param} {texts : List (List Char)} :
    readParams seen texts = .ok params ↔
      ∃ more, params = seen ++ more ∧
        List.Forall₂ (fun text p => Param.read text = .ok p) texts more ∧
        more.Pairwise (fun p q => p.name ≠ q.name) ∧
        ∀ p ∈ seen, ∀ q ∈ more, p.name ≠ q.name := by
  induction texts generalizing seen with
  | nil =>
      rw [readParams, Except.ok.injEq]
      constructor
      · rintro rfl
        exact ⟨[], by simp⟩
      · rintro ⟨more, rfl, hRead, -⟩
        rw [List.forall₂_nil_left_iff.1 hRead, List.append_nil]
  | cons text rest ih =>
      rw [readParams]
      cases hParam : Param.read text with
      | error e =>
          refine iff_of_false (fun h => by cases h) ?_
          rintro ⟨more, -, hRead, -⟩
          obtain ⟨p, others, hFirst, -⟩ := List.forall₂_cons_left_iff.1 hRead
          rw [hParam] at hFirst
          cases hFirst
      | ok param =>
          change (if _ then _ else _) = _ ↔ _
          have hSeen : (seen.any fun p => p.name == param.name) = true ↔
              ∃ p ∈ seen, p.name = param.name := by simp
          split
          · rename_i hTwice
            obtain ⟨p, hp, hName⟩ := hSeen.1 hTwice
            refine iff_of_false (fun h => by cases h) ?_
            rintro ⟨more, -, hRead, -, hFresh⟩
            obtain ⟨q, others, hFirst, -, rfl⟩ := List.forall₂_cons_left_iff.1 hRead
            rw [hParam, Except.ok.injEq] at hFirst
            exact hFresh p hp q List.mem_cons_self (hFirst ▸ hName)
          · rename_i hNew
            rw [ih]
            constructor
            · rintro ⟨others, rfl, hRead, hPairwise, hFresh⟩
              refine ⟨param :: others, by simp, .cons hParam hRead, ?_, fun p hp => ?_⟩
              · exact List.pairwise_cons.2 ⟨hFresh param (by simp), hPairwise⟩
              · refine List.forall_mem_cons.2 ⟨fun hName => hNew (hSeen.2 ⟨p, hp, hName⟩), ?_⟩
                exact hFresh p (List.mem_append_left _ hp)
            · rintro ⟨more, rfl, hRead, hPairwise, hFresh⟩
              obtain ⟨q, others, hFirst, hRest, rfl⟩ := List.forall₂_cons_left_iff.1 hRead
              rw [hParam, Except.ok.injEq] at hFirst
              subst hFirst
              rw [List.pairwise_cons] at hPairwise
              refine ⟨others, by simp, hRest, hPairwise.2, fun p hp r hr => ?_⟩
              rcases List.mem_append.1 hp with hp | hp
              · exact hFresh p hp r (List.mem_cons_of_mem _ hr)
              · rw [List.mem_singleton.1 hp]
                exact hPairwise.1 r hr

namespace Signature

/-- The signature is read from a description, and given any flags. -/
def Described (s : Signature) : Prop :=
  ∃ description read, Signature.parse description = .ok read ∧ s = { read with flags := s.flags }

/-- The parts of a description that is read. -/
theorem parse_eq_ok_iff {description : String} {s : Signature} :
    parse description = .ok s ↔ ∃ name inner type texts,
      readHeader? description.toList = some (name, inner, type) ∧
        CellType.read type = .ok s.returns ∧ splitParams inner = .ok texts ∧
        readParams [] texts = .ok s.params ∧ s.params.length ≤ maxParams ∧
        s.name = String.ofList name ∧ s.flags = .plain := by
  unfold parse
  constructor
  · intro h
    split at h
    · cases h
    · rename_i name inner type hHeader
      cases hReturns : CellType.read type with
      | error e => rw [hReturns] at h; cases h
      | ok returns =>
          rw [hReturns] at h
          cases hSplit : splitParams inner with
          | error e => rw [hSplit] at h; cases h
          | ok texts =>
              rw [hSplit] at h
              change (readParams [] texts >>= _) = _ at h
              cases hParams : readParams [] texts with
              | error e => rw [hParams] at h; cases h
              | ok params =>
                  rw [hParams] at h
                  change (if _ then _ else _) = _ at h
                  split at h
                  · cases h
                  · rename_i hCount
                    cases h
                    exact ⟨name, inner, type, texts, hHeader, hReturns, hSplit, hParams,
                      Nat.le_of_not_lt hCount, rfl, rfl⟩
  · rintro ⟨name, inner, type, texts, hHeader, hReturns, hSplit, hParams, hCount, hName, hFlags⟩
    obtain ⟨sName, params, returns, flags⟩ := s
    subst hName hFlags
    simp only [hHeader, hReturns, hSplit, hParams, Bind.bind, Except.bind]
    exact if_neg (Nat.not_lt_of_le hCount)

theorem Described.params {s : Signature} (h : s.Described) :
    (∀ p ∈ s.params, ∃ text, Param.read text = .ok p) ∧
      s.params.Pairwise fun p q => p.name ≠ q.name := by
  obtain ⟨description, read, hParse, hEq⟩ := h
  obtain ⟨-, -, -, texts, -, -, -, hRead, -⟩ := parse_eq_ok_iff.1 hParse
  obtain ⟨params, hParams, hTexts, hPairwise, -⟩ := readParams_eq_ok_iff.1 hRead
  rw [hEq, hParams, List.nil_append]
  refine ⟨fun p hp => ?_, hPairwise⟩
  obtain ⟨index, hIndex, rfl⟩ := List.getElem_of_mem hp
  exact ⟨_, hTexts.get (hTexts.length_eq ▸ hIndex) hIndex⟩

theorem Described.sound {s : Signature} (h : s.Described) : ∀ p ∈ s.params, p.Sound := by
  intro p hp
  obtain ⟨text, hText⟩ := h.params.1 p hp
  exact Param.read_sound hText

theorem Described.names_nodup {s : Signature} (h : s.Described) :
    (s.params.map Param.name).Nodup :=
  List.pairwise_map.2 h.params.2

/-- One cell for each parameter, and each may be passed to a body. -/
def Fits (s : Signature) (cells : List Cell) : Prop := List.Forall₂ Param.Fits s.params cells

end Signature

/-! ## Element-wise application -/

namespace Spread

theorem length_of_commonLength {spreads : List Spread} {count : Nat}
    (h : commonLength spreads = some count) {s : Spread} (hs : s ∈ spreads)
    (hApart : s.apart = true) : s.length = count := by
  have hMem : s.length ∈ (spreads.filter apart).map length :=
    List.mem_map_of_mem (List.mem_filter.2 ⟨hs, hApart⟩)
  unfold commonLength at h
  split at h
  · rename_i hNone
    rw [hNone] at hMem
    cases hMem
  · rename_i first rest hSome
    rw [hSome] at hMem
    split at h
    · rename_i hAll
      cases h
      rcases List.mem_cons.1 hMem with hFirst | hRest
      · exact hFirst
      · exact beq_iff_eq.1 (List.all_eq_true.1 hAll _ hRest)
    · cases h

/-- The share of an element-wise call may be passed to a call for the same parameter. -/
theorem binds_element {listable : Bool} {p : Param} (hp : p.Sound) {cell : Cell}
    (h : p.Binds listable cell) {index : Nat}
    (hIndex : (ofParam p cell).apart = true → index < (ofParam p cell).length) :
    p.Binds listable (element index (ofParam p cell)) := by
  by_cases hSpreads : p.spreads cell = true
  · obtain ⟨tag, items, rfl, hItems⟩ := hp.binds_item h hSpreads
    have hLength : index < items.length := hIndex hSpreads
    unfold ofParam
    rw [hSpreads]
    change p.Binds listable (items[index]?.getD _)
    rw [List.getElem?_eq_getElem hLength]
    exact hItems _ (List.getElem_mem hLength)
  · rw [Bool.not_eq_true] at hSpreads
    unfold ofParam
    rw [hSpreads]
    exact h

/-- What passes from an argument to the share of an element-wise call passes from the arguments to
the arguments of all such calls. -/
theorem forall₂_rows {R : Param → Cell → Prop} {signature : Signature} {args : Args} {count : Nat}
    (hCount : commonLength (ofArgs signature args) = some count)
    (hArgs : List.Forall₂ R signature.params args.cells)
    (hShare : ∀ p ∈ signature.params, ∀ cell index, R p cell →
      ((ofParam p cell).apart = true → index < (ofParam p cell).length) →
      R p (element index (ofParam p cell)))
    {row : List Cell} (hRow : row ∈ rows (ofArgs signature args) count) :
    List.Forall₂ R signature.params row := by
  obtain ⟨index, hIndex, rfl⟩ := List.mem_map.1 hRow
  have hWithin : ∀ s ∈ ofArgs signature args, s.apart = true → index < s.length := by
    intro s hs hApart
    rw [length_of_commonLength hCount hs hApart]
    exact List.mem_range.1 hIndex
  unfold ofArgs at hWithin ⊢
  clear hRow hCount
  generalize signature.params = params, args.cells = cells at hArgs hShare hWithin ⊢
  induction hArgs with
  | nil => exact .nil
  | cons hFirst hRest ih =>
      rw [List.forall_mem_cons] at hShare
      rw [List.zipWith_cons_cons, List.forall_mem_cons] at hWithin
      exact .cons (hShare.1 _ index hFirst hWithin.1) (ih hShare.2 hWithin.2)

/-- Arguments of which none has to be taken apart fit. -/
theorem fits_of_whole {listable : Bool} {params : List Param} {cells : List Cell}
    (hBinds : List.Forall₂ (Param.Binds listable) params cells)
    (hWhole : listable = true → (List.zipWith ofParam params cells).any apart = false) :
    List.Forall₂ Param.Fits params cells := by
  induction hBinds with
  | nil => exact .nil
  | cons hFirst hRest ih =>
      simp only [List.zipWith_cons_cons, List.any_cons, Bool.or_eq_false_iff] at hWhole
      exact .cons (hFirst.fits fun h => (hWhole h).1) (ih fun h => (hWhole h).2)

end Spread

namespace Exec

theorem collect_congr {inner inner' : List Cell → Exec Cell} {rows : List (List Cell)}
    (h : ∀ row ∈ rows, inner row = inner' row) (element : CellType) (done : List Cell) :
    collect inner element done rows = collect inner' element done rows := by
  induction rows generalizing element done with
  | nil => rfl
  | cons row rest ih =>
      rw [List.forall_mem_cons] at h
      rw [collect, collect, h.1]
      congr 1
      funext result
      split
      · rfl
      · split
        · exact ih h.2 _ _
        · rfl

/-- The element-wise calls are made with arguments that may be passed to a call. -/
theorem broadcast_congr {inner inner' : List Cell → Exec Cell} {signature : Signature} {args : Args}
    (hSound : ∀ p ∈ signature.params, p.Sound)
    (hBinds : List.Forall₂ (Param.Binds signature.flags.listable) signature.params args.cells)
    (h : ∀ cells, List.Forall₂ (Param.Binds signature.flags.listable) signature.params cells →
      inner cells = inner' cells) :
    broadcast inner signature args = broadcast inner' signature args := by
  unfold broadcast
  dsimp only
  split
  · rfl
  · rename_i count hCount
    refine collect_congr (fun row hRow => h row ?_) _ _
    refine Spread.forall₂_rows hCount hBinds (fun p hp cell index hCell hIndex => ?_) hRow
    exact Spread.binds_element (hSound p hp) hCell hIndex

/-- An invocation runs the body only on arguments that fit, directly and at every level of
element-wise application.  The induction is on the levels, and what it carries from one to the next
is that the arguments may be passed to a call. -/
theorem invokeWithin_congr {run run' : Args → Exec (Cell × Args)} {signature : Signature}
    (hSound : ∀ p ∈ signature.params, p.Sound)
    (hRun : ∀ args, signature.Fits args.cells → run args = run' args) (levels : Nat) {args : Args}
    (hBinds : List.Forall₂ (Param.Binds signature.flags.listable) signature.params args.cells) :
    invokeWithin run signature levels args = invokeWithin run' signature levels args := by
  have hDirect {args : Args}
      (hBinds : List.Forall₂ (Param.Binds signature.flags.listable) signature.params args.cells)
      (hWhole : ¬(signature.flags.listable && needsBroadcast signature args) = true) :
      run args = run' args := by
    refine hRun args (Spread.fits_of_whole hBinds fun hListable => ?_)
    rw [hListable, Bool.true_and, Bool.not_eq_true] at hWhole
    exact hWhole
  induction levels generalizing args with
  | zero =>
      rw [invokeWithin, invokeWithin]
      split
      · rfl
      · split
        · rfl
        · rename_i hWhole
          exact hDirect hBinds hWhole
  | succ levels ih =>
      rw [invokeWithin, invokeWithin]
      split
      · rfl
      · split
        · dsimp only
          rw [broadcast_congr hSound hBinds fun cells hCells => ?_]
          have hCells' := hCells
          rw [← Args.cells_ofCells cells] at hCells'
          rw [ih hCells']
        · rename_i hWhole
          exact hDirect hBinds hWhole

end Exec

/-! ## Binding -/

theorem Param.binds_of_takes {alive : Handle → Bool} {listable : Bool} {p : Param} {a : Argument}
    {mode : PassMode} (hFormed : a.cell.WellFormed) (h : p.takes alive listable a mode = true) :
    p.Binds listable a.cell := by
  unfold takes at h
  rw [Bool.and_eq_true] at h
  have hTaken := h.2
  by_cases hByRef : p.byRef = true
  · rw [if_pos hByRef, Bool.or_eq_true] at hTaken
    exact Or.inl (Or.inl ⟨hByRef, hTaken⟩)
  · rw [if_neg hByRef] at hTaken
    rw [Bool.not_eq_true] at hByRef
    simp only [Bool.and_eq_true, Bool.or_eq_true, Bool.not_eq_true'] at hTaken
    obtain ⟨hValue, hAccepts | ⟨hListable, hBroadcast⟩⟩ := hTaken
    · exact Or.inl (Or.inr (Or.inl ⟨hByRef, hValue, hAccepts⟩))
    · exact Or.inr ⟨hListable, hByRef, hValue, hFormed, hBroadcast⟩

namespace PendingCall

/-- The call comes about by binding well-formed arguments one after the other, each by position or
by name, in any mode and whatever objects are alive at the time. -/
inductive BoundFrom (name : String) (overloads : List Overload) : PendingCall → Prop
  | init : BoundFrom name overloads (.init name overloads)
  | bind {c : PendingCall} (h : BoundFrom name overloads c) (alive : Handle → Bool)
      (param : Option String) {a : Argument} (mode : PassMode) (hFormed : a.cell.WellFormed) :
      BoundFrom name overloads (c.bind alive param a mode).1

/-- What is bound at a position may be passed to all viable overloads there. -/
def Consistent (c : PendingCall) : Prop :=
  ∀ position a, c.slot? position = some a → ∀ o ∈ c.viable, ∀ p,
    o.signature.params[position]? = some p → p.Binds o.signature.flags.listable a.cell

theorem init_consistent (name : String) (overloads : List Overload) :
    (init name overloads).Consistent := by
  intro position a hSlot
  rw [init_slot?] at hSlot
  cases hSlot

theorem bind_consistent {c : PendingCall} (h : c.Consistent) (alive : Handle → Bool)
    (param : Option String) {a : Argument} (mode : PassMode) (hFormed : a.cell.WellFormed) :
    (c.bind alive param a mode).1.Consistent := by
  intro position other hSlot o ho p hp
  rcases slot?_bind hSlot with hOld | ⟨rfl, hTaken⟩
  · exact h position other hOld o (bind_viable_subset alive c param a mode ho) p hp
  · have hTakes := hTaken o ho
    simp only [Overload.takes, hp, Bool.and_eq_true] at hTakes
    exact Param.binds_of_takes hFormed hTakes.2

theorem BoundFrom.consistent {name : String} {overloads : List Overload} {c : PendingCall}
    (h : BoundFrom name overloads c) : c.Consistent := by
  induction h with
  | init => exact init_consistent name overloads
  | bind h alive param mode hFormed ih => exact bind_consistent ih alive param mode hFormed

theorem BoundFrom.viable_subset {name : String} {overloads : List Overload} {c : PendingCall}
    (h : BoundFrom name overloads c) : c.viable ⊆ overloads := by
  induction h with
  | init => exact fun _ ho => ho
  | bind h alive param mode hFormed ih =>
      exact fun _ ho => ih (bind_viable_subset alive _ param _ mode ho)

/-- What a call passes on for a parameter: the argument at its position, or its default. -/
theorem binds_cellFor {c : PendingCall} (h : c.Consistent) {o : Overload} (ho : o ∈ c.viable)
    (hMissing : c.missing? o = none) {position : Nat} {p : Param}
    (hp : o.signature.params[position]? = some p) :
    p.Binds o.signature.flags.listable (cellFor p (c.slot? position)) := by
  cases hSlot : c.slot? position with
  | some a => exact h position a hSlot o ho p hp
  | none =>
      -- Without an argument the parameter is optional, for none that is required is missing.
      have hEntry : (p, c.slot? position) ∈ c.assignment o := by
        unfold assignment
        refine List.mem_map.2 ⟨(p, position), ?_, rfl⟩
        exact List.mk_mem_zipIdx_iff_getElem?.2 hp
      unfold missing? at hMissing
      rw [Option.map_eq_none_iff, List.find?_eq_none] at hMissing
      have hOptional := hMissing _ hEntry
      rw [hSlot] at hOptional
      cases hDefault : p.default with
      | none => simp [Param.isRequired, hDefault] at hOptional
      | some cell =>
          left
          right
          right
          simp [cellFor, hDefault]

/-- What holds of a parameter and what it is given at each position holds of the arguments. -/
theorem forall₂_args {c : PendingCall} {bound : BoundCall} (hFinish : c.finish = .ok bound)
    {R : Param → Cell → Prop}
    (h : ∀ position p, bound.overload.signature.params[position]? = some p →
      R p (cellFor p (c.slot? position))) :
    List.Forall₂ R bound.overload.signature.params bound.args.cells := by
  rw [(finish_eq_ok hFinish).2.2.1, Args.cells_ofCells]
  unfold assignment
  rw [List.map_map, List.forall₂_iff_get]
  refine ⟨by simp, fun position hLeft hRight => ?_⟩
  have hp : bound.overload.signature.params[position]? =
      some (bound.overload.signature.params.get ⟨position, hLeft⟩) :=
    List.getElem?_eq_getElem hLeft
  simpa using h position _ hp

theorem binds_args {c : PendingCall} (h : c.Consistent) {bound : BoundCall}
    (hFinish : c.finish = .ok bound) :
    List.Forall₂ (Param.Binds bound.overload.signature.flags.listable)
      bound.overload.signature.params bound.args.cells := by
  obtain ⟨hViable, hMissing, -⟩ := finish_eq_ok hFinish
  exact forall₂_args hFinish fun _ _ hp => binds_cellFor h hViable hMissing hp

end PendingCall

/-- Bodies are run on arguments that fit and on no others: whatever is done in place of a body for
arguments that do not fit its signature, the call that was bound over overloads with described
signatures does the same. -/
theorem call_runs_fitting {execute : Code → Exec Ending}
    {run : Overload → Args → Exec (Cell × Args)} {name : String} {overloads : List Overload}
    {c : PendingCall} {outer : List PendingCall} {m : Machine}
    (hDescribed : ∀ o ∈ overloads, o.signature.Described)
    (hBound : PendingCall.BoundFrom name overloads c) (hPending : m.pending = c :: outer)
    (hRun : ∀ o ∈ overloads, ∀ args, o.signature.Fits args.cells →
      run o args = Exec.runBody execute o args) :
    (Exec.takePending >>= Exec.makeCall run) m = Exec.call execute m := by
  have hMake : Exec.makeCall run c = Exec.makeCall (Exec.runBody execute) c := by
    unfold Exec.makeCall
    cases hFinish : c.finish with
    | error d => rfl
    | ok bound =>
        have hMember := hBound.viable_subset (PendingCall.finish_eq_ok hFinish).1
        have hInvoke : Exec.invoke run bound.overload bound.args =
            Exec.invoke (Exec.runBody execute) bound.overload bound.args :=
          Exec.invokeWithin_congr (hDescribed _ hMember).sound (hRun _ hMember) _
            (PendingCall.binds_args hBound.consistent hFinish)
        dsimp only
        rw [hInvoke]
  unfold Exec.call
  rw [Exec.takePending_bind hPending, Exec.takePending_bind hPending, hMake]

/-! ### A list of lists for one number -/

/-- A listable function that gives its number back. -/
def sameNumber : Overload where
  signature := ⟨"Same", [.byValue "x" .number], .number, ⟨true, false⟩⟩
  body := .user #[⟨.pushRef "x", 1⟩]

theorem sameNumber_described : sameNumber.signature.Described := by
  have hHeader : readHeader? "Same[x->NUMBER] =: NUMBER".toList =
      some ("Same".toList, "x->NUMBER".toList, "NUMBER".toList) := by decide +kernel
  have hType : CellType.read "NUMBER".toList = .ok .number :=
    CellType.read_of_ofName? (by decide +kernel) (by decide +kernel)
  have hBare : Text.between? ['\x7b'] ['\x7d'] (Text.trim "x->NUMBER".toList) = none := by
    decide +kernel
  have hParts : ParamText.read? (Text.trim "x->NUMBER".toList) =
      some ⟨['x'], false, "NUMBER".toList, false, none⟩ := by rfl
  have hParam : Param.read "x->NUMBER".toList = .ok (.byValue "x" .number) := by
    unfold Param.read
    simp only [hBare, hParts, hType]
    rfl
  have hParams : readParams [] ["x->NUMBER".toList] = .ok [.byValue "x" .number] := by
    rw [readParams, hParam]
    rfl
  have hSplit : splitParams "x->NUMBER".toList = .ok ["x->NUMBER".toList] := rfl
  refine ⟨"Same[x->NUMBER] =: NUMBER", ⟨"Same", [.byValue "x" .number], .number, .plain⟩, ?_, rfl⟩
  unfold Signature.parse
  simp only [hHeader, hType, hSplit, hParams, Bind.bind, Except.bind]
  rfl

/-- A list of an empty list without a tag and of a list of integers. -/
def nestedIntegers : Cell :=
  .list (.list .integer) [.list .undetermined [], .list .integer [.integer 4, .integer 5]]

theorem nestedIntegers_wellFormed : nestedIntegers.WellFormed := by
  have hEmpty := Cell.wellFormed_nil .undetermined
  have hIntegers : (Cell.list .integer [.integer 4, .integer 5]).WellFormed := by
    refine Cell.wellFormed_list_iff.2 (List.forall_mem_cons.2 ⟨⟨rfl, rfl, .leaf rfl⟩, ?_⟩)
    exact List.forall_mem_singleton.2 ⟨rfl, rfl, .leaf rfl⟩
  refine Cell.wellFormed_list_iff.2 (List.forall_mem_cons.2 ⟨⟨rfl, rfl, hEmpty⟩, ?_⟩)
  exact List.forall_mem_singleton.2 ⟨rfl, rfl, hIntegers⟩

/-- A machine that is about to apply the function to the list of lists. -/
def spreadingMachine : Machine :=
  { Machine.bare 8 [] .fresh with
    pending := [((PendingCall.init "Same" [sameNumber]).bind (fun _ => true) none
      (.ofValue nestedIntegers) .automatic).1] }

/-- The body is not run on any of the lists. -/
theorem call_runs_no_list :
    (Exec.takePending >>= Exec.makeCall fun o args =>
      if args.cells.all fun cell => cell.asItems?.isNone then
        Exec.runBody (Exec.execute 8) o args
      else Exec.exhausted) spreadingMachine = Exec.call (Exec.execute 8) spreadingMachine := by
  have hDescribed : ∀ o ∈ [sameNumber], o.signature.Described :=
    List.forall_mem_singleton.2 sameNumber_described
  refine call_runs_fitting hDescribed (.bind .init _ _ _ nestedIntegers_wellFormed) rfl
    fun o ho args hFits => ?_
  obtain rfl := List.mem_singleton.1 ho
  obtain ⟨cell, rest, hCell, hRest, hCells⟩ := List.forall₂_cons_left_iff.1 hFits
  obtain rfl := List.forall₂_nil_left_iff.1 hRest
  have hNumber : (Param.byValue "x" .number).accepts cell = true := by
    rcases hCell with ⟨hByRef, -⟩ | ⟨-, -, hAccepts⟩ | hDefault
    · cases hByRef
    · exact hAccepts
    · cases hDefault
  have hPlain : cell.asItems? = none := by
    cases cell with
    | list element items => cases hNumber
    | _ => rfl
  rw [hCells]
  simp [hPlain]

end CellMachine
