/-!
# Text — decimal digits

`isDecimalDigit` is the general category `Nd` of Unicode 16.0. The
standard encodes every set of decimal digits as a run from zero to nine,
so the table `zeros` lists the zeros alone. The digits of ASCII are
decimal digits (`isDecimalDigit_of_isDigit`), the only ones in ASCII
(`isDecimalDigit_iff_of_lt`); 750 others are too.
-/

namespace SolVendor.Text

/-- The code points of the zeros of all sets of decimal digits, in ascending order. -/
def zeros : List Nat :=
  [0x30, 0x660, 0x6F0, 0x7C0, 0x966, 0x9E6, 0xA66, 0xAE6, 0xB66, 0xBE6, 0xC66, 0xCE6, 0xD66,
   0xDE6, 0xE50, 0xED0, 0xF20, 0x1040, 0x1090, 0x17E0, 0x1810, 0x1946, 0x19D0, 0x1A80, 0x1A90,
   0x1B50, 0x1BB0, 0x1C40, 0x1C50, 0xA620, 0xA8D0, 0xA900, 0xA9D0, 0xA9F0, 0xAA50, 0xABF0,
   0xFF10, 0x104A0, 0x10D30, 0x10D40, 0x11066, 0x110F0, 0x11136, 0x111D0, 0x112F0, 0x11450,
   0x114D0, 0x11650, 0x116C0, 0x116D0, 0x116DA, 0x11730, 0x118E0, 0x11950, 0x11BF0, 0x11C50,
   0x11D50, 0x11DA0, 0x11F50, 0x16130, 0x16A60, 0x16AC0, 0x16B50, 0x16D70, 0x1CCF0, 0x1D7CE,
   0x1D7D8, 0x1D7E2, 0x1D7EC, 0x1D7F6, 0x1E140, 0x1E2F0, 0x1E4F0, 0x1E5F1, 0x1E950, 0x1FBF0]

/-- A decimal digit lies less than ten code points after some zero. -/
def isDecimalDigit (c : Char) : Bool :=
  zeros.any fun z => z ≤ c.toNat && c.toNat < z + 10

/-- The runs of ten do not overlap, so there are exactly ten digits to a zero. -/
theorem pairwise_zeros : zeros.Pairwise fun y z => y + 10 ≤ z := by decide

/-- The digits of ASCII are decimal digits. -/
theorem isDecimalDigit_of_isDigit {c : Char} (h : c.isDigit = true) : isDecimalDigit c = true := by
  simp only [Char.isDigit, Bool.and_eq_true, decide_eq_true_eq] at h
  have h₁ : 0x30 ≤ c.toNat := h.1
  have h₂ : c.toNat ≤ 0x39 := h.2
  simp only [isDecimalDigit, zeros, List.any_cons, Bool.or_eq_true, Bool.and_eq_true,
    decide_eq_true_eq]
  exact .inl ⟨h₁, by omega⟩

/-- In ASCII there are no other decimal digits. -/
theorem isDecimalDigit_iff_of_lt {c : Char} (h : c.toNat < 128) :
    isDecimalDigit c = true ↔ c.isDigit = true := by
  refine ⟨fun hd => ?_, isDecimalDigit_of_isDigit⟩
  have hzeros : zeros = 0x30 :: zeros.tail := rfl
  have hrest : ∀ z ∈ zeros.tail, 128 ≤ z := by decide
  unfold isDecimalDigit at hd
  rw [hzeros, List.any_cons, Bool.or_eq_true, List.any_eq_true] at hd
  simp only [Bool.and_eq_true, decide_eq_true_eq] at hd
  rcases hd with ⟨hlow, hhigh⟩ | ⟨z, hz, hlow, -⟩
  · simp only [Char.isDigit, Bool.and_eq_true, decide_eq_true_eq]
    exact ⟨hlow, show c.toNat ≤ 0x39 by omega⟩
  · have hz := hrest z hz
    omega

end SolVendor.Text
