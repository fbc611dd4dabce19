import CellMachine.Core.Comparison
import CellMachine.Proofs.ExactArithmetic
import CellMachine.Proofs.Homogeneity

/-!
# Exact comparison of cells

Integers and fractions compare as the numbers they denote, in any mix.  Equality goes further: every
cell without a float has a meaning, in which numbers stand for their values, lists for their items
without a tag, and handles for their objects, and two such cells are equal exactly if they mean the
same.  So equality is an equivalence relation on them, whatever the kinds of the cells and however
their lists are nested.

Nothing of this is said of floats, and equality is NOT an equivalence on them: a float that is no
number differs from itself, and two integers may be promoted to the same float.

Main statement: `comparison_coherent`.
-/

namespace CellMachine

/-! ## Numbers -/

/-- Cross multiplication compares the values: both products are the values times one positive
number. -/
theorem Rational.compare_eq (p q : Rational) : p.compare q = Ord.compare p.value q.value := by
  have hScale : StrictMono fun x : ℚ => x * (p.den.toInt * q.den.toInt) := by
    refine strictMono_mul_right_of_pos ?_
    exact mul_pos (Int.cast_pos.2 p.den_pos) (Int.cast_pos.2 q.den_pos)
  have hLeft : p.value * (p.den.toInt * q.den.toInt) = (p.num.toInt * q.den.toInt : Int) := by
    rw [value, ← mul_assoc, div_mul_cancel₀ _ p.den_ne_zero, Int.cast_mul]
  have hRight : q.value * (p.den.toInt * q.den.toInt) = (q.num.toInt * p.den.toInt : Int) := by
    rw [value, mul_comm (p.den.toInt : ℚ), ← mul_assoc, div_mul_cancel₀ _ q.den_ne_zero,
      Int.cast_mul]
  calc
    p.compare q = cmp (p.num.toInt * q.den.toInt) (q.num.toInt * p.den.toInt) :=
      (cmp_eq_compare _ _).symm
    _ = cmp (p.value * (p.den.toInt * q.den.toInt)) (q.value * (p.den.toInt * q.den.toInt)) := by
      rw [hLeft, hRight]
      exact (Int.cast_strictMono.cmp_map_eq _ _).symm
    _ = cmp p.value q.value := hScale.cmp_map_eq _ _
    _ = Ord.compare p.value q.value := cmp_eq_compare _ _

namespace Core

variable {a b : Cell} {x y : ℚ}

/-- Integers and fractions are always comparable, and compare as numbers. -/
theorem compare?_of_denotes (ha : a.Denotes x) (hb : b.Denotes y) :
    compare? a b = some (compare x y) := by
  rcases operands?_cases ha hb with ⟨i, k, rfl, rfl, rfl, rfl⟩ | ⟨p, q, hPair, rfl, rfl⟩
  · change some (compare i.toInt k.toInt) = _
    rw [← cmp_eq_compare, ← cmp_eq_compare, Int.cast_strictMono.cmp_map_eq]
  · have hNumbers : compare? a b = some (p.compare q) := by
      rcases ha with ⟨i, rfl, -⟩ | ⟨r, rfl, -⟩ <;>
      · unfold compare?
        rw [hPair]
    rw [hNumbers, p.compare_eq]

/-- A test of the order of two numbers that decides a relation between them. -/
theorem ordered_of_denotes {test : Ordering → Bool} {P : Prop} [Decidable P] (ha : a.Denotes x)
    (hb : b.Denotes y) (hTest : test (compare x y) = true ↔ P) :
    ordered test a b = .boolean (decide P) := by
  rw [ordered, compare?_of_denotes ha hb, Option.any_some]
  congr 1
  rw [Bool.eq_iff_iff, hTest, decide_eq_true_iff]

theorem less_of_denotes (ha : a.Denotes x) (hb : b.Denotes y) :
    less a b = .boolean (decide (x < y)) :=
  ordered_of_denotes ha hb (Ordering.isLT_iff_eq_lt.trans compare_lt_iff_lt)

theorem greater_of_denotes (ha : a.Denotes x) (hb : b.Denotes y) :
    greater a b = .boolean (decide (y < x)) :=
  ordered_of_denotes ha hb (Ordering.isGT_iff_eq_gt.trans compare_gt_iff_gt)

theorem lessEqual_of_denotes (ha : a.Denotes x) (hb : b.Denotes y) :
    lessEqual a b = .boolean (decide (x ≤ y)) :=
  ordered_of_denotes ha hb (Ordering.isLE_iff_ne_gt.trans compare_le_iff_le)

theorem greaterEqual_of_denotes (ha : a.Denotes x) (hb : b.Denotes y) :
    greaterEqual a b = .boolean (decide (y ≤ x)) :=
  ordered_of_denotes ha hb (Ordering.isGE_iff_ne_lt.trans compare_ge_iff_ge)

theorem valuesEqual_of_denotes (ha : a.Denotes x) (hb : b.Denotes y) :
    valuesEqual a b = decide (x = y) := by
  have hCompare : valuesEqual a b = (compare? a b == some .eq) := by
    rcases ha with ⟨i, rfl, -⟩ | ⟨p, rfl, -⟩ <;>
    rcases hb with ⟨k, rfl, -⟩ | ⟨q, rfl, -⟩ <;>
    · unfold valuesEqual
      rfl
  rw [hCompare, compare?_of_denotes ha hb]
  rw [Bool.eq_iff_iff, decide_eq_true_iff, beq_iff_eq, Option.some_inj, compare_eq_iff_eq]

end Core

/-! ## Meanings -/

/-- What a cell stands for when numbers count by their values, lists by their items, and handles by
the objects behind them. -/
inductive Meaning where
  | boolean (value : Bool)
  | number (value : ℚ)
  /-- A float stands for itself. -/
  | float (value : Binary64)
  | text (value : String)
  | list (items : List Meaning)
  | reference (name : String)
  | object (id : Nat)
  | error (message : String)
  | null (placeholder : CellType)
  | stream (stream : Stream)

namespace Cell

mutual

/-- What a cell stands for; the tags of its lists do not matter. -/
def meaning : Cell → Meaning
  | boolean b => .boolean b
  | integer i => .number i.toInt
  | float x => .float x
  | rational q => .number q.value
  | text s => .text s
  | list _ items => .list (meanings items)
  | reference name => .reference name
  | handle object => .object object.id
  | error message => .error message
  | null placeholder => .null placeholder
  | stream s => .stream s

def meanings : List Cell → List Meaning
  | [] => []
  | item :: rest => meaning item :: meanings rest

end

mutual

/-- Whether there is a float in the cell, at any depth. -/
def hasFloat : Cell → Bool
  | float _ => true
  | list _ items => anyFloat items
  | _ => false

def anyFloat : List Cell → Bool
  | [] => false
  | item :: rest => hasFloat item || anyFloat rest

end

theorem Denotes.meaning_eq {cell : Cell} {x : ℚ} (h : cell.Denotes x) :
    cell.meaning = .number x := by
  rcases h with ⟨i, rfl, rfl⟩ | ⟨q, rfl, hq⟩
  · rw [meaning]
  · rw [meaning, Rational.is_iff.1 hq]

/-- A cell without floats is a number or is compared as it is. -/
theorem exists_denotes_or {cell : Cell} (h : cell.hasFloat = false) :
    (∃ x, cell.Denotes x) ∨ Core.Num.ofCell? cell = none := by
  cases cell with
  | integer i => exact Or.inl ⟨_, denotes_integer i⟩
  | rational q => exact Or.inl ⟨_, denotes_rational q⟩
  | float x => cases h
  | _ => exact Or.inr rfl

end Cell

namespace Core

/-! ## Equality -/

/-- The relation between cells that equality decides. -/
def Same (a b : Cell) : Prop := equal a b = .boolean true

theorem same_iff {a b : Cell} : Same a b ↔ valuesEqual a b = true := by
  unfold Same equal
  rw [Cell.boolean.injEq]

theorem allValuesEqual_iff {xs ys : List Cell} :
    allValuesEqual xs ys = true ↔ List.Forall₂ Same xs ys := by
  induction xs generalizing ys with
  | nil => cases ys <;> simp [allValuesEqual]
  | cons x xs ih => cases ys <;> simp [allValuesEqual, same_iff, ih]

/-- Lists are equal if their items are, whatever their tags. -/
theorem same_list_iff {s t : CellType} {xs ys : List Cell} :
    Same (.list s xs) (.list t ys) ↔ List.Forall₂ Same xs ys := by
  rw [same_iff, valuesEqual, allValuesEqual_iff]

/-- Cells are compared as they are, unless both are lists or both are numbers. -/
theorem valuesEqual_eq_equals {a b : Cell} (hLists : a.asItems? = none ∨ b.asItems? = none)
    (hNumbers : Num.ofCell? a = none ∨ Num.ofCell? b = none) :
    valuesEqual a b = a.equals b := by
  have hNoLists : ∀ s xs t ys, a = .list s xs → b = .list t ys → False := by
    rintro s xs t ys rfl rfl
    rcases hLists with h | h <;> cases h
  rw [valuesEqual.eq_2 a b hNoLists]
  rcases hNumbers with hNone | hNone
  · rw [hNone]
  · rw [hNone]
    cases Num.ofCell? a <;> rfl

theorem equals_iff_meaning_eq {a b : Cell} (hLists : a.asItems? = none ∨ b.asItems? = none)
    (hNumbers : Num.ofCell? a = none ∨ Num.ofCell? b = none) :
    a.equals b = true ↔ a.meaning = b.meaning := by
  cases a <;> cases b <;>
    simp_all [Cell.equals, Cell.meaning, Num.ofCell?, Cell.asItems?]

/-- Cells that are not both lists are equal if they mean the same. -/
theorem same_iff_of_leaf {a b : Cell} (hLists : a.asItems? = none ∨ b.asItems? = none)
    (ha : a.hasFloat = false) (hb : b.hasFloat = false) : Same a b ↔ a.meaning = b.meaning := by
  have hOther (hNumbers : Num.ofCell? a = none ∨ Num.ofCell? b = none) :
      Same a b ↔ a.meaning = b.meaning := by
    rw [same_iff, valuesEqual_eq_equals hLists hNumbers, equals_iff_meaning_eq hLists hNumbers]
  rcases Cell.exists_denotes_or ha with ⟨x, hx⟩ | hNone
  · rcases Cell.exists_denotes_or hb with ⟨y, hy⟩ | hNone
    · rw [same_iff, valuesEqual_of_denotes hx hy, decide_eq_true_iff, hx.meaning_eq, hy.meaning_eq,
        Meaning.number.injEq]
    · exact hOther (Or.inr hNone)
  · exact hOther (Or.inl hNone)

/-- Lists of cells are equal item by item if their meanings are the same. -/
theorem forall₂_same_iff {xs ys : List Cell}
    (h : ∀ x ∈ xs, ∀ y, x.hasFloat = false → y.hasFloat = false →
      (Same x y ↔ x.meaning = y.meaning))
    (hxs : Cell.anyFloat xs = false) (hys : Cell.anyFloat ys = false) :
    List.Forall₂ Same xs ys ↔ Cell.meanings xs = Cell.meanings ys := by
  induction xs generalizing ys with
  | nil => cases ys <;> simp [Cell.meanings]
  | cons x xs ih =>
      cases ys with
      | nil => simp [Cell.meanings]
      | cons y ys =>
          rw [Cell.anyFloat, Bool.or_eq_false_iff] at hxs hys
          rw [List.forall_mem_cons] at h
          rw [List.forall₂_cons, Cell.meanings, Cell.meanings, List.cons.injEq,
            h.1 y hxs.1 hys.1, ih h.2 hxs.2 hys.2]

/-- Cells without floats are equal if they mean the same.  The induction is over the nesting of the
first one; the second one is a list of items or is compared as it is. -/
theorem same_iff_meaning_eq {a b : Cell} (ha : a.hasFloat = false) (hb : b.hasFloat = false) :
    Same a b ↔ a.meaning = b.meaning := by
  induction a using Cell.induct generalizing b with
  | leaf a hLeaf => exact same_iff_of_leaf (Or.inl hLeaf) ha hb
  | list s xs ih =>
      cases b with
      | list t ys =>
          rw [same_list_iff, Cell.meaning, Cell.meaning, Meaning.list.injEq]
          exact forall₂_same_iff (fun x hx y hFirst hSecond => ih x hx hFirst hSecond) ha hb
      | _ => exact same_iff_of_leaf (Or.inr rfl) ha hb

-- Two integers that differ are equal to one float.
example :
    valuesEqual (.integer 0x20000000000001) (.float (.ofInteger 0x20000000000000)) = true ∧
      valuesEqual (.float (.ofInteger 0x20000000000000)) (.integer 0x20000000000000) = true ∧
      valuesEqual (.integer 0x20000000000001) (.integer 0x20000000000000) = false := by
  decide +kernel

/-- Comparison is coherent.  On integers and fractions in any mix all six comparisons agree with the
order of the numbers: exactly one of less, equal and greater holds, at most is the negation of
greater, and both orders are transitive.  On cells without floats equality is an equivalence
relation, which relates what means the same; and it compares lists item by item whatever their
tags. -/
theorem comparison_coherent :
    (∀ {a b : Cell} {x y : ℚ}, a.Denotes x → b.Denotes y →
      less a b = .boolean (decide (x < y)) ∧ greater a b = .boolean (decide (y < x)) ∧
      lessEqual a b = .boolean (decide (x ≤ y)) ∧ greaterEqual a b = .boolean (decide (y ≤ x)) ∧
      equal a b = .boolean (decide (x = y)) ∧ notEqual a b = .boolean (decide (x ≠ y)) ∧
      ((less a b, equal a b, greater a b) = (.boolean true, .boolean false, .boolean false) ∨
        (less a b, equal a b, greater a b) = (.boolean false, .boolean true, .boolean false) ∨
        (less a b, equal a b, greater a b) = (.boolean false, .boolean false, .boolean true)) ∧
      lessEqual a b = negation (greater a b)) ∧
    (∀ {a b c : Cell} {x y z : ℚ}, a.Denotes x → b.Denotes y → c.Denotes z →
      (less a b = .boolean true → less b c = .boolean true → less a c = .boolean true) ∧
      (lessEqual a b = .boolean true → lessEqual b c = .boolean true →
        lessEqual a c = .boolean true)) ∧
    Equivalence (fun a b : { cell : Cell // cell.hasFloat = false } => Same a.1 b.1) ∧
    (∀ {a b : Cell}, a.hasFloat = false → b.hasFloat = false →
      (Same a b ↔ a.meaning = b.meaning)) ∧
    ∀ (s t : CellType) (xs ys : List Cell),
      Same (.list s xs) (.list t ys) ↔ List.Forall₂ Same xs ys := by
  refine ⟨fun {a b x y} ha hb => ?_, fun {a b c x y z} ha hb hc => ?_, ?_,
    same_iff_meaning_eq, fun s t xs ys => same_list_iff⟩
  · have hEqual : equal a b = .boolean (decide (x = y)) := by
      rw [equal, valuesEqual_of_denotes ha hb]
    have hNotEqual : notEqual a b = .boolean (decide (x ≠ y)) := by
      rw [notEqual, valuesEqual_of_denotes ha hb, decide_not]
    refine ⟨less_of_denotes ha hb, greater_of_denotes ha hb, lessEqual_of_denotes ha hb,
      greaterEqual_of_denotes ha hb, hEqual, hNotEqual, ?_, ?_⟩
    · rw [less_of_denotes ha hb, hEqual, greater_of_denotes ha hb]
      rcases lt_trichotomy x y with hLess | rfl | hGreater
      · simp [hLess, hLess.ne, hLess.le]
      · simp
      · simp [hGreater, hGreater.ne', hGreater.le]
    · rw [lessEqual_of_denotes ha hb, greater_of_denotes ha hb]
      simp only [negation, Cell.asBoolean?, ← decide_not, not_lt]
  · rw [less_of_denotes ha hb, less_of_denotes hb hc, less_of_denotes ha hc,
      lessEqual_of_denotes ha hb, lessEqual_of_denotes hb hc, lessEqual_of_denotes ha hc]
    simp only [Cell.boolean.injEq, decide_eq_true_iff]
    exact ⟨lt_trans, le_trans⟩
  · constructor
    · intro a
      exact (same_iff_meaning_eq a.2 a.2).2 rfl
    · intro a b h
      exact (same_iff_meaning_eq b.2 a.2).2 ((same_iff_meaning_eq a.2 b.2).1 h).symm
    · intro a b c h h'
      refine (same_iff_meaning_eq a.2 c.2).2 ?_
      exact ((same_iff_meaning_eq a.2 b.2).1 h).trans ((same_iff_meaning_eq b.2 c.2).1 h')

/-- The greatest word over the next smaller one. -/
def nearOne : Rational := ⟨0x7FFFFFFFFFFFFFFF, 0x7FFFFFFFFFFFFFFE, by decide, by decide +kernel⟩

/-- Greater than `nearOne`, by less than a float can tell. -/
def nextToNearOne : Rational :=
  ⟨0x7FFFFFFFFFFFFFFE, 0x7FFFFFFFFFFFFFFD, by decide, by decide +kernel⟩

theorem comparison_coherent_mixed :
    less (.rational nearOne) (.rational nextToNearOne) = .boolean true ∧
      less (.rational nextToNearOne) (.integer 2) = .boolean true ∧
      less (.rational nearOne) (.integer 2) = .boolean true ∧
      Same (.list .number [.integer 2, .rational minusThreeFifths])
        (.list .rational [.rational (.ofInteger 2), .rational minusThreeFifths]) := by
  obtain ⟨hExact, hTransitive, -, hMeaning, -⟩ := comparison_coherent
  have hNear := Cell.denotes_rational nearOne
  have hNext := Cell.denotes_rational nextToNearOne
  have hTwo := Cell.denotes_integer 2
  have hFirst : less (.rational nearOne) (.rational nextToNearOne) = .boolean true := by
    have hLess : nearOne.value < nextToNearOne.value := by
      decide +kernel
    rw [(hExact hNear hNext).1, decide_eq_true hLess]
  have hSecond : less (.rational nextToNearOne) (.integer 2) = .boolean true := by
    have hLess : nextToNearOne.value < (2 : Int64).toInt := by
      decide +kernel
    rw [(hExact hNext hTwo).1, decide_eq_true hLess]
  refine ⟨hFirst, hSecond, (hTransitive hNear hNext hTwo).1 hFirst hSecond, ?_⟩
  refine (hMeaning rfl rfl).2 ?_
  simp [Cell.meaning, Cell.meanings, Rational.value_ofInteger]

end Core
end CellMachine
