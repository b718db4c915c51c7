/-!
# Text — decoding UTF-8 with replacement

A decoder for arbitrary bytes. It never fails: a byte sequence that no
character begins with, and a character that breaks off, each become one
replacement character, and decoding goes on at the byte that did not fit.
The decoder is a machine with one state, the unfinished character, and
one step per byte; `decode` runs it over a list of bytes.
-/

namespace SolVendor.Text.Utf8

/-- What stands for bytes that are not UTF-8. -/
def replacement : Char := Char.ofNat 0xFFFD

/-- A character whose first bytes have been read: the bits read so far, the number of bytes still
missing, and the bounds of the next one. The bounds exclude overlong forms, surrogates and code
points past the last plane at the second byte already. -/
structure Unfinished where
  bits : Nat
  missing : Nat
  low : Nat
  high : Nat
deriving DecidableEq, Repr

/-- Between characters, or inside one. -/
abbrev State := Option Unfinished

/-- Read a byte that begins something: a whole character, the first byte of a longer one, or a byte
that no character begins with. -/
def start (b : Nat) : List Char × State :=
  if b < 0x80 then ([Char.ofNat b], none)
  else if b < 0xC2 then ([replacement], none)
  else if b < 0xE0 then ([], some ⟨b - 0xC0, 1, 0x80, 0xBF⟩)
  else if b = 0xE0 then ([], some ⟨0, 2, 0xA0, 0xBF⟩)
  else if b = 0xED then ([], some ⟨0xD, 2, 0x80, 0x9F⟩)
  else if b < 0xF0 then ([], some ⟨b - 0xE0, 2, 0x80, 0xBF⟩)
  else if b = 0xF0 then ([], some ⟨0, 3, 0x90, 0xBF⟩)
  else if b < 0xF4 then ([], some ⟨b - 0xF0, 3, 0x80, 0xBF⟩)
  else if b = 0xF4 then ([], some ⟨4, 3, 0x80, 0x8F⟩)
  else ([replacement], none)

/-- Read one byte. Inside a character a byte within the bounds continues it; any other byte breaks
it off and begins something itself. -/
def step : State → Nat → List Char × State
  | none, b => start b
  | some u, b =>
    if u.low ≤ b ∧ b ≤ u.high then
      let bits := u.bits * 64 + (b - 0x80)
      if u.missing ≤ 1 then ([Char.ofNat bits], none)
      else ([], some ⟨bits, u.missing - 1, 0x80, 0xBF⟩)
    else
      let (cs, s) := start b
      (replacement :: cs, s)

/-- What the end of the input adds: a character that is still unfinished breaks off. -/
def finish : State → List Char
  | none => []
  | some _ => [replacement]

/-- Decode from a state. -/
def run : State → List UInt8 → List Char
  | s, [] => finish s
  | s, b :: bs =>
    let (cs, t) := step s b.toNat
    cs ++ run t bs

/-- Decode any bytes. -/
def decode (bs : List UInt8) : List Char :=
  run none bs

/-- Text of ASCII characters decodes to itself. -/
theorem decode_ascii (bs : List UInt8) (h : ∀ b ∈ bs, b.toNat < 0x80) :
    decode bs = bs.map fun b => Char.ofNat b.toNat := by
  induction bs with
  | nil => rfl
  | cons b bs ih =>
    have hb := h b (by simp)
    have := ih fun c hc => h c (by simp [hc])
    simp only [decode] at this
    simp [decode, run, step, start, hb, this]

end SolVendor.Text.Utf8
