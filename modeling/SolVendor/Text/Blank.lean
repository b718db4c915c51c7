/-!
# Text — blank characters

`isBlank` is Unicode's `White_Space` property, given by its ranges. Every
character that core calls whitespace is blank (`isBlank_of_isWhitespace`);
the converse fails from the line tabulation on.
-/

namespace SolVendor.Text

/-- The code points with the property `White_Space`, as inclusive ranges in ascending order. -/
def blankRanges : List (Nat × Nat) :=
  [(0x09, 0x0D), (0x20, 0x20), (0x85, 0x85), (0xA0, 0xA0), (0x1680, 0x1680), (0x2000, 0x200A),
   (0x2028, 0x2029), (0x202F, 0x202F), (0x205F, 0x205F), (0x3000, 0x3000)]

/-- A character is blank when its code point lies in one of `blankRanges`. -/
def isBlank (c : Char) : Bool :=
  blankRanges.any fun r => r.1 ≤ c.toNat && c.toNat ≤ r.2

/-- The ranges are in ascending order and do not touch. -/
theorem pairwise_blankRanges :
    blankRanges.Pairwise fun r s => r.1 ≤ r.2 ∧ r.2 < s.1 := by decide

/-- What core counts as whitespace is blank. -/
theorem isBlank_of_isWhitespace {c : Char} (h : c.isWhitespace = true) : isBlank c = true := by
  simp only [Char.isWhitespace, Bool.or_eq_true, decide_eq_true_eq] at h
  rcases h with ((rfl | rfl) | rfl) | rfl <;> decide

end SolVendor.Text
