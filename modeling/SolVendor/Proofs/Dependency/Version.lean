import Mathlib.Data.List.TakeDrop
import SolVendor.Dependency.Version
/-!
# Dependency — versions as they are written

What has been read as a version is valid and is written as it was read
(`valid_of_ofChars?`, `chars_of_ofChars?`). So the characters of a version
are known: digits, those of words, and the signs between its parts
(`isVersionChar_of_mem_chars`).
-/

namespace SolVendor.Version

open Text (isDecimalDigit isDecimalDigit_of_isDigit)

/-- What stands between dots, written with dots between, is what was cut at the dots. -/
theorem identifierChars_splitOn (sign : Char) (cs : List Char) :
    identifierChars sign (cs.splitOn '.') = sign :: cs := by
  obtain ⟨s, ss, hs⟩ := List.exists_cons_of_ne_nil (List.splitOn_ne_nil '.' cs)
  have hjoin : ['.'].intercalate (cs.splitOn '.') = cs := List.intercalate_splitOn '.'
  rw [hs] at hjoin ⊢
  unfold identifierChars
  simp only
  rw [hjoin]

/-- **Splitting off identifiers loses nothing.** -/
theorem identifierChars_append_of_splitIdentifiers {sign : Char} {stop : Char → Bool}
    {cs rest : List Char} {ids : List (List Char)}
    (h : splitIdentifiers sign stop cs = (ids, rest)) : identifierChars sign ids ++ rest = cs := by
  cases cs with
  | nil =>
    unfold splitIdentifiers at h
    obtain ⟨rfl, rfl⟩ := Prod.mk.inj h
    rfl
  | cons c cs =>
    rw [splitIdentifiers] at h
    split at h
    · rename_i hc
      rw [List.span_eq_takeWhile_dropWhile] at h
      obtain ⟨rfl, rfl⟩ := Prod.mk.inj h
      rw [identifierChars_splitOn, hc, List.cons_append, List.takeWhile_append_dropWhile]
    · obtain ⟨rfl, rfl⟩ := Prod.mk.inj h
      rfl

/-- A version that has been read has valid parts, and they make up the text. -/
theorem parts_of_ofChars? {cs : List Char} {v : Version} (h : ofChars? cs = some v) :
    v.Valid ∧ v.chars = cs := by
  unfold ofChars? at h
  split at h
  rename_i marked body hmark
  have hcs : (if marked then ['v'] else []) ++ body = cs := by
    split at hmark
    · obtain ⟨rfl, rfl⟩ := Prod.mk.inj hmark
      rfl
    · obtain ⟨rfl, rfl⟩ := Prod.mk.inj hmark
      rfl
  simp only [List.span_eq_takeWhile_dropWhile] at h
  rcases hpre : splitIdentifiers '-' (· = '+') (body.dropWhile fun c => c ≠ '-' && c ≠ '+')
    with ⟨preRelease, rest⟩
  rw [hpre] at h
  simp only at h
  rcases hbuild : splitIdentifiers '+' (fun _ => false) rest with ⟨build, tail⟩
  rw [hbuild] at h
  simp only at h
  split at h
  · rename_i major minor patch hnumbers
    split at h
    · rename_i hok
      obtain rfl := Option.some.inj h
      simp only [Bool.and_eq_true, decide_eq_true_eq, List.all_eq_true] at hok
      obtain ⟨⟨⟨⟨⟨hmajor, hminor⟩, hpatch⟩, hp⟩, hb⟩, htail⟩ := hok
      refine ⟨⟨hmajor, hminor, hpatch, hp, hb⟩, ?_⟩
      have hjoin : ['.'].intercalate [major, minor, patch] =
          body.takeWhile fun c => c ≠ '-' && c ≠ '+' := by
        rw [← hnumbers, List.intercalate_splitOn]
      have hrest := identifierChars_append_of_splitIdentifiers hbuild
      have hbody := identifierChars_append_of_splitIdentifiers hpre
      rw [htail, List.append_nil] at hrest
      unfold chars
      simp only
      rw [hrest, List.append_assoc, hbody, List.append_assoc, hjoin,
        List.takeWhile_append_dropWhile, hcs]
    · cases h
  · cases h

theorem valid_of_ofChars? {cs : List Char} {v : Version} (h : ofChars? cs = some v) : v.Valid :=
  (parts_of_ofChars? h).1

/-- **A version is written as it was read.** -/
theorem chars_of_ofChars? {cs : List Char} {v : Version} (h : ofChars? cs = some v) :
    v.chars = cs :=
  (parts_of_ofChars? h).2

/-! ## The characters of a version -/

/-- A digit of any script, a character of a word, or a sign between two parts. -/
def isVersionChar (c : Char) : Bool :=
  isDecimalDigit c || isWordChar c || c = '.' || c = '+'

theorem isDecimalDigit_of_mem_isNumber {s : List Char} {c : Char} (h : isNumber s = true)
    (hc : c ∈ s) : isDecimalDigit c = true := by
  unfold isNumber at h
  split at h
  · rw [List.mem_singleton.1 hc]
    decide
  · simp only [Bool.and_eq_true, decide_eq_true_eq, List.all_eq_true] at h
    obtain ⟨⟨hlow, hhigh⟩, hrest⟩ := h
    rcases List.mem_cons.1 hc with rfl | hc
    · refine isDecimalDigit_of_isDigit ?_
      have h₁ : (0x31 : Nat) ≤ c.toNat := hlow
      have h₂ : c.toNat ≤ 0x39 := hhigh
      simp only [Char.isDigit, Bool.and_eq_true, decide_eq_true_eq]
      exact ⟨show (0x30 : Nat) ≤ c.toNat by omega, show c.toNat ≤ 0x39 from h₂⟩
    · exact hrest c hc
  · cases h

theorem isWordChar_of_isWordStart {c : Char} (h : isWordStart c = true) : isWordChar c = true := by
  unfold isWordStart at h
  unfold isWordChar Char.isAlphanum
  rw [Bool.or_eq_true] at h
  rcases h with h | h
  · rw [h]
    rfl
  · rw [h, Bool.or_true]

theorem isVersionChar_of_mem_isPreReleaseIdentifier {s : List Char} {c : Char}
    (h : isPreReleaseIdentifier s = true) (hc : c ∈ s) : isVersionChar c = true := by
  have hdigit : ∀ {d : Char}, isDecimalDigit d = true → isVersionChar d = true := by
    intro d hd
    unfold isVersionChar
    rw [hd]
    rfl
  have hword : ∀ {d : Char}, isWordChar d = true → isVersionChar d = true := by
    intro d hd
    unfold isVersionChar
    rw [hd]
    simp
  unfold isPreReleaseIdentifier at h
  rw [Bool.or_eq_true] at h
  rcases h with h | h
  · exact hdigit (isDecimalDigit_of_mem_isNumber h hc)
  · rw [← List.takeWhile_append_dropWhile (p := isDecimalDigit) (l := s)] at hc
    rcases List.mem_append.1 hc with hc | hc
    · exact hdigit (List.all_eq_true.1 List.all_takeWhile c hc)
    · split at h
      · rename_i d ds hd
        rw [Bool.and_eq_true, List.all_eq_true] at h
        rw [hd] at hc
        rcases List.mem_cons.1 hc with rfl | hc
        · exact hword (isWordChar_of_isWordStart h.1)
        · exact hword (h.2 c hc)
      · cases h

/-- What holds of a separator and of the characters of all parts holds of the text. -/
theorem forall_mem_intercalate {p : Char → Bool} {sep : Char} {parts : List (List Char)}
    (hsep : p sep = true) (h : ∀ s ∈ parts, ∀ c ∈ s, p c = true) :
    ∀ c ∈ [sep].intercalate parts, p c = true := by
  induction parts with
  | nil => simp
  | cons s parts ih =>
    obtain ⟨hs, hparts⟩ := List.forall_mem_cons.1 h
    cases parts with
    | nil => simpa using hs
    | cons t parts =>
      intro c hc
      rw [List.intercalate_cons_cons, List.append_assoc] at hc
      rcases List.mem_append.1 hc with hc | hc
      · exact hs c hc
      · rcases List.mem_cons.1 hc with rfl | hc
        · exact hsep
        · exact ih hparts c hc

theorem forall_mem_identifierChars {p : Char → Bool} {sign : Char} {ids : List (List Char)}
    (hsign : p sign = true) (hdot : p '.' = true) (h : ∀ s ∈ ids, ∀ c ∈ s, p c = true) :
    ∀ c ∈ identifierChars sign ids, p c = true := by
  intro c hc
  unfold identifierChars at hc
  split at hc
  · exact absurd hc List.not_mem_nil
  · rcases List.mem_cons.1 hc with rfl | hc
    · exact hsign
    · exact forall_mem_intercalate hdot h c hc

/-- **The characters of a valid version.** -/
theorem isVersionChar_of_mem_chars {v : Version} (h : v.Valid) :
    ∀ c ∈ v.chars, isVersionChar c = true := by
  obtain ⟨hmajor, hminor, hpatch, hpre, hbuild⟩ := h
  have hnumber : ∀ s : List Char, isNumber s = true → ∀ c ∈ s, isVersionChar c = true := by
    intro s hs c hc
    unfold isVersionChar
    rw [isDecimalDigit_of_mem_isNumber hs hc]
    rfl
  intro c hc
  unfold chars at hc
  rcases List.mem_append.1 hc with hc | hc
  · rcases List.mem_append.1 hc with hc | hc
    · rcases List.mem_append.1 hc with hc | hc
      · split at hc
        · rw [List.mem_singleton.1 hc]
          decide
        · exact absurd hc List.not_mem_nil
      · refine forall_mem_intercalate (by decide) ?_ c hc
        intro s hs
        simp only [List.mem_cons, List.not_mem_nil, or_false] at hs
        rcases hs with rfl | rfl | rfl
        · exact hnumber _ hmajor
        · exact hnumber _ hminor
        · exact hnumber _ hpatch
    · exact forall_mem_identifierChars (by decide) (by decide)
        (fun s hs c hc => isVersionChar_of_mem_isPreReleaseIdentifier (hpre s hs) hc) c hc
  · refine forall_mem_identifierChars (by decide) (by decide) (fun s hs c hc => ?_) c hc
    have hb := hbuild s hs
    unfold isBuildIdentifier at hb
    rw [Bool.and_eq_true, List.all_eq_true] at hb
    unfold isVersionChar
    rw [hb.2 c hc]
    simp

end SolVendor.Version
