/-!
# Blank characters

The white space of the text formats: the twenty-five code points with the Unicode property
`White_Space`.  Signature texts, literals and input lines are trimmed by this class, so a
no-break space or an ideographic space counts as blank, while a zero-width space does NOT.
-/

namespace CellMachine
namespace Text

/-- The code points with the property `White_Space`. -/
def isBlank (c : Char) : Bool :=
  let n := c.toNat
  (0x0009 ≤ n && n ≤ 0x000D) || n == 0x0020 || n == 0x0085 || n == 0x00A0 || n == 0x1680 ||
    (0x2000 ≤ n && n ≤ 0x200A) || n == 0x2028 || n == 0x2029 || n == 0x202F || n == 0x205F ||
    n == 0x3000

/-- Drop the blanks in front. -/
def trimStart (s : List Char) : List Char :=
  s.dropWhile isBlank

/-- Drop the blanks at the end. -/
def trimEnd (s : List Char) : List Char :=
  (s.reverse.dropWhile isBlank).reverse

/-- Drop the blanks at both ends. -/
def trim (s : List Char) : List Char :=
  trimEnd (trimStart s)

/-- The text between a given beginning and a given end, when both are there without overlap. -/
def between? (opening closing s : List Char) : Option (List Char) :=
  if opening.isPrefixOf s then
    let rest := s.drop opening.length
    if closing.isSuffixOf rest then some (rest.take (rest.length - closing.length)) else none
  else none

theorem length_trim_le (s : List Char) : (trim s).length ≤ s.length := by
  have h₁ := (List.dropWhile_sublist isBlank (l := (trimStart s).reverse)).length_le
  have h₂ := (List.dropWhile_sublist isBlank (l := s)).length_le
  simp only [trim, trimEnd, trimStart, List.length_reverse] at *
  omega

theorem length_of_between? {opening closing s inner : List Char}
    (h : between? opening closing s = some inner) :
    inner.length + opening.length + closing.length = s.length := by
  unfold between? at h
  split at h
  · rename_i ho
    dsimp only at h
    split at h
    · rename_i hc
      cases h
      have h₁ := List.IsPrefix.length_le ( List.isPrefixOf_iff_prefix.1 ho)
      have h₂ := List.IsSuffix.length_le (List.isSuffixOf_iff_suffix.1 hc)
      simp only [List.length_take, List.length_drop] at *
      omega
    · cases h
  · cases h

example : isBlank ' ' ∧ isBlank '\t' ∧ isBlank '\u00a0' ∧ isBlank '\u3000' := by decide

example : ¬ isBlank '\u200b' ∧ ¬ isBlank 'a' := by decide

end Text
end CellMachine
