/-!
# Text — lines of bytes

A line ends at a line feed. What follows the last line feed is a line of
its own only if it is not empty, so a final line feed opens no line. Each
line loses one carriage return at its end.
-/

namespace SolVendor.Text

/-- The byte that ends a line. -/
def lineFeed : UInt8 := 0x0A

/-- The byte that a line may lose at its end. -/
def carriageReturn : UInt8 := 0x0D

/-- Cut at each line feed, which belongs to no piece; the rest after the last one is a piece unless
it is empty. -/
def cutLines : List UInt8 → List (List UInt8)
  | [] => []
  | b :: bs =>
    if b = lineFeed then [] :: cutLines bs
    else match cutLines bs with
      | [] => [[b]]
      | line :: lines => (b :: line) :: lines

/-- Drop one carriage return at the end, if there is one. -/
def dropReturn (line : List UInt8) : List UInt8 :=
  if line.getLast? = some carriageReturn then line.dropLast else line

/-- The lines of a file, as bytes without their ends. -/
def lines (bs : List UInt8) : List (List UInt8) :=
  (cutLines bs).map dropReturn

/-- No piece holds a line feed. -/
theorem lineFeed_notMem_of_mem_cutLines {bs line : List UInt8} (h : line ∈ cutLines bs) :
    lineFeed ∉ line := by
  induction bs generalizing line with
  | nil => simp [cutLines] at h
  | cons b bs ih =>
    simp only [cutLines] at h
    split at h
    · rcases List.mem_cons.1 h with rfl | h
      · simp
      · exact ih h
    · rename_i hb
      split at h
      · rcases List.mem_singleton.1 h with rfl
        simpa using Ne.symm hb
      · rename_i l ls hl
        rcases List.mem_cons.1 h with rfl | h
        · simpa [Ne.symm hb] using ih (hl ▸ List.mem_cons_self)
        · exact ih (hl ▸ List.mem_cons_of_mem _ h)

end SolVendor.Text
