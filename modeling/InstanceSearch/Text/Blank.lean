/-
  Blank text.

  A text is blank if it holds nothing but white space.  White space are the characters with the Unicode
  property White_Space: 25 of them, in ten ranges.  Zero-width characters such as U+200B and U+FEFF
  do not have the property.
-/
namespace InstanceSearch

/-- The characters with the property White_Space, as ranges of code points. -/
def whiteSpaceRanges : List (Nat × Nat) :=
  [(0x09, 0x0D), (0x20, 0x20), (0x85, 0x85), (0xA0, 0xA0), (0x1680, 0x1680), (0x2000, 0x200A),
    (0x2028, 0x2029), (0x202F, 0x202F), (0x205F, 0x205F), (0x3000, 0x3000)]

/-- White space, by the Unicode property. -/
def isWhiteSpace (c : Char) : Bool :=
  whiteSpaceRanges.any fun r => decide (r.1 ≤ c.toNat ∧ c.toNat ≤ r.2)

/-- Nothing but white space. -/
def isBlank (s : String) : Bool := s.toList.all isWhiteSpace

/-- The white space of ASCII that core knows is white space here. -/
theorem isWhiteSpace_of_isWhitespace {c : Char} (h : c.isWhitespace = true) :
    isWhiteSpace c = true := by
  simp only [Char.isWhitespace, Bool.or_eq_true, decide_eq_true_eq] at h
  rcases h with ((h | h) | h) | h <;> subst h <;> decide

/-- The ten ranges hold 25 characters. -/
example : (whiteSpaceRanges.map fun r => r.2 - r.1 + 1).sum = 25 := by decide

end InstanceSearch
