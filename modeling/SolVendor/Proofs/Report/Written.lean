import SolVendor.Proofs.Dependency.Semantic
import SolVendor.Proofs.Report.Reader
/-!
# Report — what is written is JSON

A document that is written down is a JSON text, and it stands for what the
document was made of (`isDocument_chars`). Strings are read between their
quotes (`string?_flatMap_escape`), numbers by their digits
(`word?_toDigits`), and the line breaks between items are blanks.
-/

namespace SolVendor

namespace Json

variable {c : Char} {cs : List Char} {v : Value}

/-! ## Strings -/

/-- The digits of a number below 16 are hexadecimal ones. -/
theorem hexDigit?_digitChar : ∀ n < 16, hexDigit? n.digitChar = some n := by decide

theorem units?_of_isPlain (h : isPlain c = true) : units? (c :: cs) = (c.toNat :: ·) <$> units? cs := by
  obtain ⟨hbackslash, -⟩ := Reading.ne_of_isPlain h
  rw [units?]
  · rw [if_pos h]
  · exact fun _ _ _ _ _ heq => absurd heq hbackslash
  · exact fun _ _ heq => absurd heq hbackslash

/-- No short form begins with the letter that four digits follow. -/
theorem units?_shorthand {e : Char} (h : shorthand? e = some c) (cs : List Char) :
    units? ('\\' :: e :: cs) = (c.toNat :: ·) <$> units? cs := by
  have hletter : e ≠ 'u' := by
    rintro rfl
    cases h
  rw [units?]
  · rw [h]
    cases units? cs <;> rfl
  · exact fun _ _ _ _ _ heq => absurd heq hletter

/-- A control character has two digits. -/
theorem units?_of_lt (h : c.toNat < 0x20) (cs : List Char) :
    units? ('\\' :: 'u' :: '0' :: '0' :: (c.toNat / 16).digitChar :: (c.toNat % 16).digitChar :: cs) =
      (c.toNat :: ·) <$> units? cs := by
  have hdigits : hexDigits? '0' '0' (c.toNat / 16).digitChar (c.toNat % 16).digitChar =
      some c.toNat := by
    have hzero : hexDigit? '0' = some 0 := rfl
    simp only [hexDigits?, hzero, hexDigit?_digitChar _ (show c.toNat / 16 < 16 by omega),
      hexDigit?_digitChar _ (show c.toNat % 16 < 16 by omega), Option.bind_eq_bind, Option.bind_some,
      Option.pure_def, Option.some.injEq]
    omega
  rw [units?, hdigits]
  cases units? cs <;> rfl

/-- **An escaped character stands for itself.** -/
theorem units?_escape (c : Char) (cs : List Char) :
    units? (escape c ++ cs) = (c.toNat :: ·) <$> units? cs := by
  unfold escape
  split_ifs with hquote hbackslash hb ht hn hf hr hlow
  · subst hquote
    exact units?_shorthand rfl cs
  · subst hbackslash
    exact units?_shorthand rfl cs
  · subst hb
    exact units?_shorthand rfl cs
  · subst ht
    exact units?_shorthand rfl cs
  · subst hn
    exact units?_shorthand rfl cs
  · subst hf
    exact units?_shorthand rfl cs
  · subst hr
    exact units?_shorthand rfl cs
  · exact units?_of_lt hlow cs
  · refine units?_of_isPlain ?_
    simp only [isPlain, Bool.and_eq_true, decide_eq_true_eq]
    exact ⟨⟨hquote, hbackslash⟩, Nat.le_of_not_lt hlow⟩

theorem units?_flatMap_escape (cs : List Char) :
    units? (cs.flatMap escape) = some (cs.map Char.toNat) := by
  induction cs with
  | nil => rfl
  | cons c cs ih =>
    rw [List.flatMap_cons, units?_escape, ih]
    rfl

/-- No character is half a character. -/
theorem isHalf_toNat (c : Char) : isFirstHalf c.toNat = false ∧ isSecondHalf c.toNat = false := by
  have hvalid : c.toNat < 0xD800 ∨ 0xDFFF < c.toNat ∧ c.toNat < 0x110000 := c.valid
  simp only [isFirstHalf, isSecondHalf, Bool.and_eq_false_iff, decide_eq_false_iff_not]
  omega

theorem characters?_map_toNat (cs : List Char) : characters? (cs.map Char.toNat) = some cs := by
  induction cs with
  | nil => rfl
  | cons c cs ih =>
    obtain ⟨hfirst, hsecond⟩ := isHalf_toNat c
    cases cs with
    | nil => simp [characters?, hfirst, hsecond]
    | cons d cs =>
      rw [List.map_cons, List.map_cons, characters?, hfirst, hsecond, ← List.map_cons, ih]
      simp

/-- **A string is read between its quotes.** -/
theorem string?_flatMap_escape (s : String) : string? (s.toList.flatMap escape) = some s := by
  unfold string?
  rw [units?_flatMap_escape, Option.bind_some, characters?_map_toNat]
  simp

/-! ## Numbers -/

/-- The digits of a number stand for it: they have no zero in front, and no fraction or exponent
behind. -/
theorem unsigned?_toDigits (n : Nat) : unsigned? (Nat.toDigits 10 n) = some (n : Rat) := by
  have hdigits : ∀ c ∈ Nat.toDigits 10 n, c.isDigit = true := fun c hc =>
    Version.isDigit_of_mem_toDigits hc
  have htake : (Nat.toDigits 10 n).takeWhile Char.isDigit = Nat.toDigits 10 n :=
    List.takeWhile_eq_self_iff.2 hdigits
  have hdrop : (Nat.toDigits 10 n).dropWhile Char.isDigit = [] :=
    List.dropWhile_eq_nil_iff.2 hdigits
  have hfront : ¬ (Nat.toDigits 10 n = [] ∨
      (Nat.toDigits 10 n).head? = some '0' ∧ Nat.toDigits 10 n ≠ ['0']) := by
    rcases Version.isNumeral_toDigits n with hzero | ⟨d, ds, hds, hlow, -, -⟩
    · rw [hzero]
      decide
    · rw [hds]
      rintro (h | ⟨h, -⟩)
      · cases h
      · rw [Option.some.inj h] at hlow
        exact absurd hlow (by decide)
  unfold unsigned?
  simp only [htake, hdrop, if_neg hfront, fraction?, exponent?, Option.bind_eq_bind, Option.bind_some,
    List.append_nil, List.length_nil, Nat.ofDigitChars_ten_toDigits]
  have hone : (10 : Rat) ^ ((0 : Int) - (0 : Nat)) = 1 := Rat.zpow_zero 10
  rw [hone, Rat.mul_one]
  rfl

/-- **A number is read by its digits.** -/
theorem word?_toDigits (n : Nat) : word? (Nat.toDigits 10 n) = some (.num n) := by
  have hletter : ∀ {c : Char} {w : List Char}, Nat.toDigits 10 n = c :: w → c.isDigit = true := by
    intro c w hw
    exact Version.isDigit_of_mem_toDigits (n := n) (hw ▸ List.mem_cons_self)
  have hnumber : number? (Nat.toDigits 10 n) = some (n : Rat) := by
    rw [← unsigned?_toDigits, number?]
    intro w hw
    exact absurd (hletter hw) (by decide)
  unfold word?
  rw [if_neg fun hw => absurd (hletter hw) (by decide),
    if_neg fun hw => absurd (hletter hw) (by decide),
    if_neg fun hw => absurd (hletter hw) (by decide), hnumber]
  rfl

/-! ## Documents -/

mutual

/-- What a document stands for. -/
def value : Json → Value
  | bool b => .bool b
  | num n => .num n
  | str s => .str s
  | arr items => .arr (values items)
  | obj members => .obj (memberValues members)

/-- What the items of a list stand for. -/
def values : List Json → List Value
  | [] => []
  | item :: items => value item :: values items

/-- What the members of an object stand for. -/
def memberValues : List (String × Json) → List (String × Value)
  | [] => []
  | (key, j) :: members => (key, value j) :: memberValues members

end

theorem values_eq_map (items : List Json) : values items = items.map value := by
  induction items with
  | nil => rfl
  | cons item items ih => rw [values, ih, List.map_cons]

theorem isSpace_nil : IsSpace [] := fun _ h => absurd h List.not_mem_nil

theorem isSpace_newLine (level : Nat) : IsSpace (newLine level) := by
  intro c hc
  rcases List.mem_cons.1 hc with rfl | hc
  · rfl
  · rw [List.eq_of_mem_replicate hc]
    rfl

theorem writes_quote (s : String) : Writes (.value (.str s)) (quote s) :=
  .str (string?_flatMap_escape s)

theorem writes_member {before after : List Char} (hbefore : IsSpace before) (key : String)
    (h : Writes (.value v) cs) (hafter : IsSpace after) :
    Writes (.member (key, v)) (before ++ quote key ++ [':', ' '] ++ cs ++ after) := by
  have hblank : IsSpace [' '] := by simp [IsSpace, isBlank]
  have hmember := Writes.member hbefore (string?_flatMap_escape key) isSpace_nil
    (.spaced hblank h hafter)
  simpa [quote] using hmember

mutual

/-- **A document is written as the grammar says.** -/
theorem writes_chars (level : Nat) : (j : Json) → Writes (.value j.value) (j.chars level)
  | bool true => .word (by simp [chars, isWordChar]) rfl
  | bool false => .word (by simp [chars, isWordChar]) rfl
  | num n => by
    refine .word (fun c hc => ?_) (word?_toDigits n)
    have hdigit : c.isDigit = true := Version.isDigit_of_mem_toDigits hc
    simp [isWordChar, Char.isAlphanum, hdigit]
  | str s => writes_quote s
  | arr [] => .noItems isSpace_nil
  | arr (item :: items) => by
    have hitems := writes_itemChars level (isSpace_newLine (level + 1)) (writes_chars (level + 1) item)
      items
    simpa [value, values, chars] using Writes.arr hitems
  | obj [] => .noMembers isSpace_nil
  | obj ((key, j) :: members) => by
    have hmembers := writes_memberChars level (isSpace_newLine (level + 1)) key
      (writes_chars (level + 1) j) members
    simpa [value, memberValues, chars] using Writes.obj hmembers

/-- The further items of a list, after the first one. -/
theorem writes_itemChars (level : Nat) {before cs : List Char} {v : Value} (hbefore : IsSpace before)
    (h : Writes (.value v) cs) : (items : List Json) →
      Writes (.items (v :: values items))
        (before ++ cs ++ itemChars (level + 1) items ++ newLine level ++ [']'])
  | [] => by
    have hlast := Writes.lastItem (.spaced hbefore h (isSpace_newLine level))
    simpa [values, itemChars] using hlast
  | item :: items => by
    have hrest := writes_itemChars level (isSpace_newLine (level + 1)) (writes_chars (level + 1) item)
      items
    have hall := Writes.item (.spaced hbefore h isSpace_nil) hrest
    simpa [values, itemChars] using hall

/-- The further members of an object, after the first one. -/
theorem writes_memberChars (level : Nat) {before cs : List Char} {v : Value} (hbefore : IsSpace before)
    (key : String) (h : Writes (.value v) cs) : (members : List (String × Json)) →
      Writes (.members ((key, v) :: memberValues members))
        (before ++ quote key ++ [':', ' '] ++ cs ++ memberChars (level + 1) members ++ newLine level
          ++ ['\x7d'])
  | [] => by
    have hlast := Writes.lastMember (writes_member hbefore key h (isSpace_newLine level))
    simpa [memberValues, memberChars] using hlast
  | (key', j) :: members => by
    have hrest := writes_memberChars level (isSpace_newLine (level + 1)) key'
      (writes_chars (level + 1) j) members
    have hall := Writes.members (writes_member hbefore key h isSpace_nil) hrest
    simpa [memberValues, memberChars] using hall

end

/-- **What is written down is a JSON document**, also with blanks behind it. -/
theorem isDocument_chars (j : Json) {after : List Char} (hafter : IsSpace after) :
    IsDocument j.value (j.chars 0 ++ after) := by
  have hspaced := Writes.spaced isSpace_nil (writes_chars 0 j) hafter
  rw [List.nil_append] at hspaced
  exact hspaced

end Json

end SolVendor
