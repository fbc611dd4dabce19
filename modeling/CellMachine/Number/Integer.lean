/-!
# Sixty-four bit integers

Integer cells hold an `Int64`.  All arithmetic is done in `Int` and narrowed afterwards, so a
result that does not fit is reported and never wraps.  Main statement: `narrow?` finds exactly
the word that denotes the given integer (`narrow?_eq_some_iff`), and there is one for the integers
of sixty-four bits only (`narrow?_eq_none_iff`).
-/

namespace CellMachine
namespace Integer

/-- The word that denotes `z`, if there is one. -/
def narrow? (z : Int) : Option Int64 :=
  if -0x8000000000000000 ≤ z ∧ z < 0x8000000000000000 then some (Int64.ofInt z) else none

theorem narrow?_eq_some_iff {z : Int} {i : Int64} : narrow? z = some i ↔ i.toInt = z := by
  have hlo := i.le_toInt
  have hhi := i.toInt_lt
  unfold narrow?
  split
  · rename_i hz
    constructor
    · intro h
      cases h
      exact Int64.toInt_ofInt_of_le hz.1 hz.2
    · intro h
      subst h
      simp
  · rename_i hz
    constructor
    · intro h
      cases h
    · intro h
      omega

theorem narrow?_toInt (i : Int64) : narrow? i.toInt = some i :=
  narrow?_eq_some_iff.2 rfl

/-- The integers that a word denotes. -/
def IsWord (z : Int) : Prop := -0x8000000000000000 ≤ z ∧ z < 0x8000000000000000

instance (z : Int) : Decidable (IsWord z) := inferInstanceAs (Decidable (_ ∧ _))

theorem isWord_toInt (i : Int64) : IsWord i.toInt := ⟨i.le_toInt, i.toInt_lt⟩

theorem isWord_iff {z : Int} : IsWord z ↔ ∃ i : Int64, i.toInt = z := by
  constructor
  · intro h
    exact ⟨Int64.ofInt z, Int64.toInt_ofInt_of_le h.1 h.2⟩
  · rintro ⟨i, rfl⟩
    exact isWord_toInt i

theorem narrow?_eq_none_iff {z : Int} : narrow? z = none ↔ ¬IsWord z := by
  rw [isWord_iff, Option.eq_none_iff_forall_ne_some]
  constructor
  · rintro h ⟨i, hi⟩
    exact h i (narrow?_eq_some_iff.2 hi)
  · intro h i hi
    exact h ⟨i, narrow?_eq_some_iff.1 hi⟩

/-- The value of a run of decimal digits, `none` if another character is met. -/
def digits? : List Char → Option Nat :=
  go 0
where
  go (acc : Nat) : List Char → Option Nat
    | [] => some acc
    | c :: rest => if c.isDigit then go (acc * 10 + (c.toNat - 48)) rest else none

/-- The value of a nonempty run of decimal digits. -/
def natural? : List Char → Option Nat
  | [] => none
  | text => digits? text

/-- Read an optional sign and at least one decimal digit, nothing else; a value that does not
fit a word is refused. -/
def read? : List Char → Option Int64
  | '-' :: rest => (natural? rest).bind fun n => narrow? (-(n : Int))
  | '+' :: rest => (natural? rest).bind fun n => narrow? n
  | text => (natural? text).bind fun n => narrow? n

/-- Decimal digits of a natural number. -/
def renderNat (n : Nat) : String :=
  String.ofList (Nat.toDigits 10 n)

/-- Decimal text with a minus sign for negative values. -/
def renderInt : Int → String
  | .ofNat n => renderNat n
  | .negSucc n => "-" ++ renderNat (n + 1)

/-- Decimal text of a word. -/
def render (i : Int64) : String :=
  renderInt i.toInt

end Integer
end CellMachine
