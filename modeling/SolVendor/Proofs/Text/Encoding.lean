import SolVendor.Text.Line
import SolVendor.Text.Utf8
/-!
# Text — texts as bytes

Encoding writes the characters of a text one after the other as UTF-8, and
decoding reads them back, whatever they are (`decode_encode`): the bounds
that the decoder sets for the second byte let every character through. A
byte below 128 stands for itself only, so the line feeds of the bytes are
those of the text, and lines that are written one after the other are read
again as they were (`lines_encode`).
-/

namespace SolVendor.Text

namespace Utf8

variable {c : Char} {cs : List Char} {b : UInt8} {bs : List UInt8} {n : Nat} {u : Unfinished}

/-- The bytes of a text. -/
def encode (cs : List Char) : List UInt8 :=
  cs.flatMap String.utf8EncodeChar

@[simp] theorem encode_nil : encode [] = [] := rfl

@[simp] theorem encode_cons (c : Char) (cs : List Char) :
    encode (c :: cs) = String.utf8EncodeChar c ++ encode cs := List.flatMap_cons

@[simp] theorem encode_append (cs ds : List Char) : encode (cs ++ ds) = encode cs ++ encode ds :=
  List.flatMap_append

/-- These are the bytes of a string. -/
theorem toList_toUTF8_ofList (cs : List Char) : (String.ofList cs).toUTF8.data.toList = encode cs := by
  show (cs.flatMap String.utf8EncodeChar).toByteArray.data.toList = _
  simp [encode]

/-! ## Reading one character -/

/-- The first byte of two. -/
theorem start_of_two (hlow : 0xC2 ≤ n) (hhigh : n < 0xE0) :
    start n = ([], some ⟨n - 0xC0, 1, 0x80, 0xBF⟩) := by
  unfold start
  rw [if_neg (by omega), if_neg (by omega), if_pos hhigh]

/-- The first byte of three. -/
theorem start_of_three (hlow : 0xE0 ≤ n) (hhigh : n < 0xF0) :
    start n = ([], some ⟨n - 0xE0, 2, if n = 0xE0 then 0xA0 else 0x80,
      if n = 0xED then 0x9F else 0xBF⟩) := by
  unfold start
  rw [if_neg (by omega), if_neg (by omega), if_neg (by omega)]
  by_cases hfirst : n = 0xE0
  · subst hfirst
    rfl
  by_cases hsurrogate : n = 0xED
  · subst hsurrogate
    rfl
  · rw [if_neg hfirst, if_neg hsurrogate, if_pos hhigh, if_neg hfirst, if_neg hsurrogate]

/-- The first byte of four. -/
theorem start_of_four (hlow : 0xF0 ≤ n) (hhigh : n ≤ 0xF4) :
    start n = ([], some ⟨n - 0xF0, 3, if n = 0xF0 then 0x90 else 0x80,
      if n = 0xF4 then 0x8F else 0xBF⟩) := by
  unfold start
  rw [if_neg (by omega), if_neg (by omega), if_neg (by omega), if_neg (by omega),
    if_neg (by omega), if_neg (by omega)]
  by_cases hfirst : n = 0xF0
  · subst hfirst
    rfl
  by_cases hlast : n = 0xF4
  · subst hlast
    rfl
  · rw [if_neg hfirst, if_pos (by omega), if_neg hfirst, if_neg hlast]

/-- A byte that begins a longer character is kept in the state. -/
theorem run_of_start (h : start b.toNat = ([], some u)) : run none (b :: bs) = run (some u) bs := by
  simp [run, step, h]

/-- A byte within the bounds continues a character that lacks more. -/
theorem run_of_missing (hlow : u.low ≤ b.toNat) (hhigh : b.toNat ≤ u.high) (hmissing : 1 < u.missing) :
    run (some u) (b :: bs) =
      run (some ⟨u.bits * 64 + (b.toNat - 0x80), u.missing - 1, 0x80, 0xBF⟩) bs := by
  simp [run, step, hlow, hhigh, Nat.not_le.2 hmissing]

/-- The last byte ends a character. -/
theorem run_of_last (hlow : u.low ≤ b.toNat) (hhigh : b.toNat ≤ u.high) (hmissing : u.missing = 1) :
    run (some u) (b :: bs) = Char.ofNat (u.bits * 64 + (b.toNat - 0x80)) :: run none bs := by
  simp [run, step, hlow, hhigh, hmissing]

/-- **A character that has been written is read again.** -/
theorem run_encodeChar (c : Char) (bs : List UInt8) :
    run none (String.utf8EncodeChar c ++ bs) = c :: run none bs := by
  have hvalid : c.toNat < 0xD800 ∨ 0xDFFF < c.toNat ∧ c.toNat < 0x110000 := c.valid
  have hback : ∀ {n : Nat}, n = c.toNat → Char.ofNat n = c := by
    rintro n rfl
    exact Char.ofNat_toNat c
  have hbyte : ∀ {n : Nat}, n < 256 → (UInt8.ofNat n).toNat = n := fun h =>
    UInt8.toNat_ofNat_of_lt h
  unfold String.utf8EncodeChar
  rw [show c.val.toNat = c.toNat from rfl]
  generalize hn : c.toNat = n at hvalid hback
  simp only
  split
  · have hb : (UInt8.ofNat n).toNat = n := hbyte (by omega)
    simp only [List.singleton_append, run, step, hb]
    rw [start, if_pos (by omega)]
    simp [hback]
  split
  · have hb₁ : (UInt8.ofNat (n / 64 % 32 + 192)).toNat = n / 64 % 32 + 192 := hbyte (by omega)
    have hb₂ : (UInt8.ofNat (n % 64 + 128)).toNat = n % 64 + 128 := hbyte (by omega)
    simp only [List.cons_append, List.nil_append]
    rw [run_of_start (by rw [hb₁]; exact start_of_two (by omega) (by omega)),
      run_of_last (by rw [hb₂]; simp) (by rw [hb₂]; simp; omega) rfl, hback (by rw [hb₂]; simp; omega)]
  split
  · have hb₁ : (UInt8.ofNat (n / 4096 % 16 + 224)).toNat = n / 4096 % 16 + 224 := hbyte (by omega)
    have hb₂ : (UInt8.ofNat (n / 64 % 64 + 128)).toNat = n / 64 % 64 + 128 := hbyte (by omega)
    have hb₃ : (UInt8.ofNat (n % 64 + 128)).toNat = n % 64 + 128 := hbyte (by omega)
    simp only [List.cons_append, List.nil_append]
    rw [run_of_start (by rw [hb₁]; exact start_of_three (by omega) (by omega)),
      run_of_missing (by rw [hb₂]; simp only; split <;> omega)
        (by rw [hb₂]; simp only; split <;> omega) (by simp),
      run_of_last (by rw [hb₃]; simp) (by rw [hb₃]; simp; omega) rfl,
      hback (by rw [hb₂, hb₃]; simp only; omega)]
  · have hb₁ : (UInt8.ofNat (n / 262144 % 8 + 240)).toNat = n / 262144 % 8 + 240 := hbyte (by omega)
    have hb₂ : (UInt8.ofNat (n / 4096 % 64 + 128)).toNat = n / 4096 % 64 + 128 := hbyte (by omega)
    have hb₃ : (UInt8.ofNat (n / 64 % 64 + 128)).toNat = n / 64 % 64 + 128 := hbyte (by omega)
    have hb₄ : (UInt8.ofNat (n % 64 + 128)).toNat = n % 64 + 128 := hbyte (by omega)
    simp only [List.cons_append, List.nil_append]
    rw [run_of_start (by rw [hb₁]; exact start_of_four (by omega) (by omega)),
      run_of_missing (by rw [hb₂]; simp only; split <;> omega)
        (by rw [hb₂]; simp only; split <;> omega) (by simp),
      run_of_missing (by rw [hb₃]; simp) (by rw [hb₃]; simp; omega) (by simp),
      run_of_last (by rw [hb₄]; simp) (by rw [hb₄]; simp; omega) rfl,
      hback (by rw [hb₂, hb₃, hb₄]; simp only; omega)]

/-- **Decoding undoes encoding.** -/
theorem decode_encode (cs : List Char) : decode (encode cs) = cs := by
  unfold decode
  induction cs with
  | nil => rfl
  | cons c cs ih => rw [encode_cons, run_encodeChar, ih]

/-- **A byte below 128 is a character of its own.** -/
theorem toNat_eq_of_mem_encodeChar (hb : b ∈ String.utf8EncodeChar c) (hlow : b.toNat < 0x80) :
    c.toNat = b.toNat := by
  have hbyte : ∀ {n : Nat}, b = UInt8.ofNat n → n < 256 → b.toNat = n := by
    rintro n rfl h
    exact UInt8.toNat_ofNat_of_lt h
  unfold String.utf8EncodeChar at hb
  rw [show c.val.toNat = c.toNat from rfl] at hb
  generalize c.toNat = n at hb
  simp only at hb
  split at hb
  · exact (hbyte (List.mem_singleton.1 hb) (by omega)).symm
  -- All bytes of longer characters are 128 or more.
  split at hb
  · simp only [List.mem_cons, List.not_mem_nil, or_false] at hb
    rcases hb with hb | hb <;> have := hbyte hb (by omega) <;> omega
  split at hb
  · simp only [List.mem_cons, List.not_mem_nil, or_false] at hb
    rcases hb with hb | hb | hb <;> have := hbyte hb (by omega) <;> omega
  · simp only [List.mem_cons, List.not_mem_nil, or_false] at hb
    rcases hb with hb | hb | hb | hb <;> have := hbyte hb (by omega) <;> omega

/-- A character below 128 is one byte. -/
theorem encodeChar_of_lt (h : c.toNat < 0x80) : String.utf8EncodeChar c = [UInt8.ofNat c.toNat] := by
  unfold String.utf8EncodeChar
  rw [show c.val.toNat = c.toNat from rfl]
  exact if_pos (Nat.le_of_lt_succ h)

/-- **What a text holds of the characters below 128 is what its bytes hold.** -/
theorem mem_encode_iff (h : c.toNat < 0x80) : UInt8.ofNat c.toNat ∈ encode cs ↔ c ∈ cs := by
  have hbyte : (UInt8.ofNat c.toNat).toNat = c.toNat :=
    UInt8.toNat_ofNat_of_lt (Nat.lt_trans h (by decide))
  constructor
  · intro hb
    obtain ⟨d, hd, hb⟩ := List.mem_flatMap.1 hb
    have hcode : d.toNat = c.toNat := by
      rw [toNat_eq_of_mem_encodeChar hb (by omega), hbyte]
    exact Char.toNat_inj.1 hcode ▸ hd
  · intro hc
    exact List.mem_flatMap.2 ⟨c, hc, by rw [encodeChar_of_lt h]; exact List.mem_singleton_self _⟩

/-- A text begins with such a character if its bytes do. -/
theorem head?_encode_iff (h : c.toNat < 0x80) :
    (encode cs).head? = some (UInt8.ofNat c.toNat) ↔ cs.head? = some c := by
  cases cs with
  | nil => simp
  | cons d cs =>
    obtain ⟨b, bs, hb⟩ := List.exists_cons_of_ne_nil (String.utf8EncodeChar_ne_nil (c := d))
    rw [encode_cons, hb, List.cons_append, List.head?_cons, List.head?_cons, Option.some_inj,
      Option.some_inj]
    constructor
    · rintro rfl
      have hmem : c ∈ [d] := (mem_encode_iff h).1 (by simp [hb])
      exact (List.mem_singleton.1 hmem).symm
    · rintro rfl
      rw [encodeChar_of_lt h] at hb
      exact (List.cons.inj hb).1.symm

/-- A text without a line feed is written without one. -/
theorem lineFeed_notMem_encode (h : '\n' ∉ cs) : lineFeed ∉ encode cs :=
  fun hb => h ((mem_encode_iff (by decide)).1 hb)

/-- A text ends in a carriage return if its bytes do. -/
theorem getLast?_encode_ne (h : cs.getLast? ≠ some '\r') : (encode cs).getLast? ≠ some carriageReturn := by
  rcases List.eq_nil_or_concat cs with rfl | ⟨front, c, rfl⟩
  · simp
  · intro hlast
    rw [List.concat_eq_append, encode_append, encode_cons, encode_nil, List.append_nil,
      List.getLast?_append] at hlast
    have hmem : carriageReturn ∈ String.utf8EncodeChar c := by
      rcases hc : (String.utf8EncodeChar c).getLast? with _ | b
      · exact absurd (List.getLast?_eq_none_iff.1 hc) String.utf8EncodeChar_ne_nil
      · rw [hc] at hlast
        rw [← Option.some.inj hlast]
        exact List.mem_of_getLast? hc
    have hcode : c.toNat = '\r'.toNat := toNat_eq_of_mem_encodeChar hmem (by decide)
    exact h (by simp [Char.toNat_inj.1 hcode])

end Utf8

/-! ## Reading lines -/

variable {line bs : List UInt8}

/-- The bytes up to a line feed are a line. -/
theorem cutLines_append (h : lineFeed ∉ line) :
    cutLines (line ++ lineFeed :: bs) = line :: cutLines bs := by
  induction line with
  | nil => simp [cutLines]
  | cons b line ih =>
    rw [List.mem_cons, not_or] at h
    rw [List.cons_append, cutLines, if_neg (Ne.symm h.1), ih h.2]

/-- A line that does not end in a carriage return loses nothing. -/
theorem dropReturn_of_ne (h : line.getLast? ≠ some carriageReturn) : dropReturn line = line :=
  if_neg h

theorem dropReturn_concat (line : List UInt8) : dropReturn (line ++ [carriageReturn]) = line := by
  unfold dropReturn
  rw [if_pos (by simp), List.dropLast_concat]

/-- How a line ends: with a line feed, or with a carriage return and a line feed. -/
def ending (returns : Bool) : List Char :=
  if returns then ['\r', '\n'] else ['\n']

/-- A text that can be a line, however that ends. -/
structure IsLine (cs : List Char) : Prop where
  lineFeed : '\n' ∉ cs
  carriageReturn : cs.getLast? ≠ some '\r'

/-- **Lines that have been written are read again**, each without its end. -/
theorem lines_encode (texts : List (List Char × Bool)) (h : ∀ t ∈ texts, IsLine t.1) :
    lines (Utf8.encode (texts.flatMap fun t => t.1 ++ ending t.2)) =
      texts.map fun t => Utf8.encode t.1 := by
  have hfeed : Utf8.encode ['\n'] = [lineFeed] := by decide
  have hreturn : Utf8.encode ['\r', '\n'] = [carriageReturn, lineFeed] := by decide
  unfold lines
  induction texts with
  | nil => rfl
  | cons t texts ih =>
    have ht := h t List.mem_cons_self
    have hline := Utf8.lineFeed_notMem_encode ht.lineFeed
    rw [List.flatMap_cons, Utf8.encode_append, Utf8.encode_append, List.map_cons,
      ← ih fun t ht => h t (List.mem_cons_of_mem _ ht)]
    cases hend : t.2 with
    | false =>
      rw [ending, if_neg Bool.false_ne_true, hfeed, List.append_assoc, List.singleton_append,
        cutLines_append hline, List.map_cons,
        dropReturn_of_ne (Utf8.getLast?_encode_ne ht.carriageReturn)]
    | true =>
      have hline' : lineFeed ∉ Utf8.encode t.1 ++ [carriageReturn] := by
        rw [List.mem_append, not_or]
        exact ⟨hline, by decide⟩
      rw [ending, if_pos rfl, hreturn,
        show Utf8.encode t.1 ++ [carriageReturn, lineFeed] =
          (Utf8.encode t.1 ++ [carriageReturn]) ++ [lineFeed] by simp, List.append_assoc,
        List.singleton_append, cutLines_append hline', List.map_cons, dropReturn_concat]

end SolVendor.Text
