import Mathlib.Data.List.Basic
import SolVendor.Proofs.Dependency.Grammar
/-!
# Dependency — semantic versions

A semantic version consists of three natural numbers and two lists of
identifiers, all of them written in ASCII. A version of a dependency has a
reading as one, after the `v` that may be in front of it, just if it is
written in ASCII (`parse_semantic_iff`), and every semantic version is the
version of a dependency (`SemanticVersion.Valid.ofChars?_eq`). What is not
written in ASCII are decimal digits of other scripts, which the grammar
allows after the first digit of a number and in front of the first letter
of an identifier.
-/

namespace SolVendor

/-! ## Numbers as they are written -/

namespace Version

open Text (isDecimalDigit isDecimalDigit_iff_of_lt isDecimalDigit_of_isDigit)

variable {s : List Char} {n : Nat}

theorem digitChar_sub_of_isDigit {c : Char} (h : c.isDigit = true) :
    c.toNat - 48 < 10 ∧ (c.toNat - 48).digitChar = c := by
  have hbounds : 48 ≤ c.toNat ∧ c.toNat ≤ 57 := by
    simp only [Char.isDigit, Bool.and_eq_true, decide_eq_true_eq] at h
    exact h
  have hlt : c.toNat - 48 < 10 := by omega
  refine ⟨hlt, Char.toNat_inj.1 ?_⟩
  rw [Nat.toNat_digitChar_of_lt_ten hlt]
  omega

/-- Digits written after a number are the digits of a larger number. -/
theorem toDigits_ofDigitChars (hn : 0 < n) (hs : ∀ c ∈ s, c.isDigit = true) :
    Nat.toDigits 10 (Nat.ofDigitChars 10 s n) = Nat.toDigits 10 n ++ s := by
  induction s generalizing n with
  | nil => rw [Nat.ofDigitChars_nil, List.append_nil]
  | cons c s ih =>
    obtain ⟨hc, hs⟩ := List.forall_mem_cons.1 hs
    obtain ⟨hlt, hchar⟩ := digitChar_sub_of_isDigit hc
    have hzero : '0'.toNat = 48 := rfl
    rw [Nat.ofDigitChars_cons, hzero, ih (by omega) hs,
      ← Nat.toDigits_append_toDigits (by omega) hn hlt, Nat.toDigits_of_lt_base hlt, hchar,
      List.append_assoc, List.singleton_append]

/-- **A numeral in ASCII is a number as it is written.** -/
theorem IsNumeral.exists_toDigits (h : IsNumeral s) (hascii : ∀ c ∈ s, c.toNat < 128) :
    ∃ n, s = Nat.toDigits 10 n := by
  rcases h with rfl | ⟨c, cs, rfl, hlow, hhigh, hcs⟩
  · exact ⟨0, (Nat.toDigits_zero 10).symm⟩
  · have hbounds : 49 ≤ c.toNat ∧ c.toNat ≤ 57 := ⟨hlow, hhigh⟩
    have hc : c.isDigit = true := by
      simp only [Char.isDigit, Bool.and_eq_true, decide_eq_true_eq]
      exact ⟨show 48 ≤ c.toNat by omega, hbounds.2⟩
    obtain ⟨hlt, hchar⟩ := digitChar_sub_of_isDigit hc
    have hdigits : ∀ d ∈ cs, d.isDigit = true := fun d hd =>
      (isDecimalDigit_iff_of_lt (hascii d (List.mem_cons_of_mem _ hd))).1 (hcs d hd)
    refine ⟨Nat.ofDigitChars 10 cs (c.toNat - 48), ?_⟩
    rw [toDigits_ofDigitChars (by omega) hdigits, Nat.toDigits_of_lt_base hlt, hchar]
    rfl

/-- **A number is written as a numeral.** -/
theorem isNumeral_toDigits (n : Nat) : IsNumeral (Nat.toDigits 10 n) := by
  induction n using Nat.strong_induction_on with
  | _ n ih =>
    rw [Nat.toDigits_eq_if (by omega)]
    have hdigit : ∀ m, m < 10 → 0 < m → '1' ≤ m.digitChar ∧ m.digitChar ≤ '9' := by decide
    split
    · rename_i hlt
      rcases Nat.eq_zero_or_pos n with rfl | hpos
      · exact .inl rfl
      · exact .inr ⟨_, [], rfl, (hdigit n hlt hpos).1, (hdigit n hlt hpos).2,
          fun d hd => absurd hd List.not_mem_nil⟩
    · rename_i hge
      have hlast : isDecimalDigit (n % 10).digitChar = true := by
        refine isDecimalDigit_of_isDigit ?_
        rw [Nat.isDigit_digitChar, decide_eq_true_eq]
        omega
      rcases ih (n / 10) (by omega) with hzero | ⟨c, cs, heq, hlow, hhigh, hcs⟩
      · have hvalue : Nat.ofDigitChars 10 (Nat.toDigits 10 (n / 10)) 0 = n / 10 :=
          Nat.ofDigitChars_ten_toDigits
        rw [hzero] at hvalue
        have hnone : n / 10 = 0 := hvalue.symm
        omega
      · rw [heq]
        refine .inr ⟨c, cs ++ [(n % 10).digitChar], rfl, hlow, hhigh, ?_⟩
        exact List.forall_mem_append.2 ⟨hcs, List.forall_mem_singleton.2 hlast⟩

theorem isDigit_of_mem_toDigits {c : Char} (hc : c ∈ Nat.toDigits 10 n) : c.isDigit = true :=
  Nat.isDigit_of_mem_toDigits (by omega) (by omega) hc

theorem toDigits_inj {m : Nat} (h : Nat.toDigits 10 m = Nat.toDigits 10 n) : m = n := by
  have hvalue : Nat.ofDigitChars 10 (Nat.toDigits 10 m) 0 = m := Nat.ofDigitChars_ten_toDigits
  rw [h, Nat.ofDigitChars_ten_toDigits] at hvalue
  exact hvalue.symm

/-! ## Identifiers -/

/-- What holds of the characters of a text holds of those of its parts. -/
theorem forall_mem_of_forall_mem_intercalate {P : Char → Prop} {sep : Char} {parts : List (List Char)}
    (h : ∀ c ∈ [sep].intercalate parts, P c) : ∀ s ∈ parts, ∀ c ∈ s, P c := by
  cases parts with
  | nil => exact fun s hs => absurd hs List.not_mem_nil
  | cons s parts =>
    rw [intercalate_cons_eq, List.forall_mem_append] at h
    refine List.forall_mem_cons.2 ⟨h.1, fun t ht c hc => h.2 c ?_⟩
    exact List.mem_flatten.2 ⟨sep :: t, List.mem_map_of_mem ht, List.mem_cons_of_mem _ hc⟩

theorem forall_mem_of_forall_mem_identifierChars {P : Char → Prop} {sign : Char}
    {ids : List (List Char)} (h : ∀ c ∈ identifierChars sign ids, P c) : ∀ s ∈ ids, ∀ c ∈ s, P c := by
  cases ids with
  | nil => exact fun s hs => absurd hs List.not_mem_nil
  | cons s ids =>
    have hparts : ∀ c ∈ ['.'].intercalate (s :: ids), P c := fun c hc => h c (List.mem_cons_of_mem _ hc)
    exact forall_mem_of_forall_mem_intercalate hparts

theorem toNat_lt_of_isAlphanum {c : Char} (h : c.isAlphanum = true ∨ c = '-') : c.toNat < 128 := by
  rcases h with h | rfl
  · rcases Bool.or_eq_true_iff.1 (show (c.isAlpha || c.isDigit) = true from h) with h | h
    · exact (toNat_of_isAlpha h).2
    · exact (toNat_le_of_isDigit h).trans_lt (by decide)
  · decide

theorem isAlphanum_of_isDigit {c : Char} (h : c.isDigit = true) : c.isAlphanum = true := by
  unfold Char.isAlphanum
  rw [h, Bool.or_true]

/-- A word, and a number as it is written if it holds digits only. -/
def IsSemantic (s : List Char) : Prop :=
  IsBuild s ∧ ((∀ c ∈ s, c.isDigit = true) → ∃ n, s = Nat.toDigits 10 n)

theorem isSemantic_toDigits (n : Nat) : IsSemantic (Nat.toDigits 10 n) :=
  ⟨⟨Nat.toDigits_ne_nil, fun _ hc => .inl (isAlphanum_of_isDigit (isDigit_of_mem_toDigits hc))⟩,
    fun _ => ⟨n, rfl⟩⟩

/-- **In ASCII the identifiers of a pre-release are those of a semantic version.** -/
theorem IsPreRelease.isSemantic (h : IsPreRelease s) (hascii : ∀ c ∈ s, c.toNat < 128) :
    IsSemantic s := by
  rcases h with h | ⟨digits, c, cs, rfl, hdigits, hc, hcs⟩
  · obtain ⟨n, rfl⟩ := h.exists_toDigits hascii
    exact isSemantic_toDigits n
  · have hletter : c.isDigit = false := by
      have hnot := isDecimalDigit_of_isWordStart (isWordStart_iff.2 hc)
      rw [← Bool.not_eq_true]
      intro hdigit
      rw [isDecimalDigit_of_isDigit hdigit] at hnot
      cases hnot
    refine ⟨⟨List.append_ne_nil_of_right_ne_nil _ (List.cons_ne_nil _ _), ?_⟩, fun hall => ?_⟩
    · refine List.forall_mem_append.2 ⟨fun d hd => ?_, List.forall_mem_cons.2 ⟨?_, hcs⟩⟩
      · have hlt := hascii d (List.mem_append_left _ hd)
        exact .inl (isAlphanum_of_isDigit ((isDecimalDigit_iff_of_lt hlt).1 (hdigits d hd)))
      · exact isWordChar_iff.1 (isWordChar_of_isWordStart (isWordStart_iff.2 hc))
    · rw [hall c (by simp)] at hletter
      cases hletter

/-- **Every identifier of a semantic version can be one of a pre-release.** -/
theorem IsSemantic.isPreRelease (h : IsSemantic s) : IsPreRelease s := by
  obtain ⟨⟨-, hword⟩, hnumber⟩ := h
  have hdigits : ∀ d ∈ s.takeWhile Char.isDigit, d.isDigit = true :=
    List.all_eq_true.1 List.all_takeWhile
  have hsplit : s.takeWhile Char.isDigit ++ s.dropWhile Char.isDigit = s :=
    List.takeWhile_append_dropWhile
  cases hrest : s.dropWhile Char.isDigit with
  | nil =>
    rw [hrest, List.append_nil] at hsplit
    rw [hsplit] at hdigits
    obtain ⟨n, rfl⟩ := hnumber hdigits
    exact .inl (isNumeral_toDigits n)
  | cons c cs =>
    have hc : ¬ c.isDigit = true := by
      have hhead := List.head?_dropWhile_not Char.isDigit s
      rw [hrest] at hhead
      simpa using hhead
    rw [hrest] at hsplit
    obtain ⟨hwordc, hwordcs⟩ : (c.isAlphanum = true ∨ c = '-') ∧ ∀ d ∈ cs, d.isAlphanum = true ∨ d = '-' := by
      rw [← hsplit, List.forall_mem_append, List.forall_mem_cons] at hword
      exact hword.2
    refine .inr ⟨_, c, cs, hsplit.symm, fun d hd => isDecimalDigit_of_isDigit (hdigits d hd), ?_, hwordcs⟩
    refine hwordc.imp_left fun h => ?_
    unfold Char.isAlphanum at h
    exact (Bool.or_eq_true_iff.1 h).resolve_right hc

end Version

/-! ## Versions -/

/-- Three natural numbers and two lists of identifiers. -/
structure SemanticVersion where
  major : Nat
  minor : Nat
  patch : Nat
  preRelease : List (List Char)
  build : List (List Char)

namespace SemanticVersion

open Version Text

variable {v v' : SemanticVersion} {marked marked' : Bool}

/-- Identifiers are words in ASCII; in a pre-release, those of digits only are numbers without a zero in
front. -/
structure Valid (v : SemanticVersion) : Prop where
  preRelease : ∀ s ∈ v.preRelease, IsSemantic s
  build : ∀ s ∈ v.build, IsBuild s

/-- The version written down. -/
def chars (v : SemanticVersion) : List Char :=
  ['.'].intercalate [Nat.toDigits 10 v.major, Nat.toDigits 10 v.minor, Nat.toDigits 10 v.patch]
    ++ identifierChars '-' v.preRelease ++ identifierChars '+' v.build

/-- The version of a dependency that is written in the same way, with a mark in front or without one. -/
def toVersion (v : SemanticVersion) (marked : Bool) : Version :=
  ⟨marked, Nat.toDigits 10 v.major, Nat.toDigits 10 v.minor, Nat.toDigits 10 v.patch, v.preRelease, v.build⟩

theorem chars_toVersion (v : SemanticVersion) (marked : Bool) :
    (v.toVersion marked).chars = if marked then 'v' :: v.chars else v.chars := by
  cases marked with
  | true => rfl
  | false => rfl

theorem exists_chars_toVersion {cs : List Char} :
    (∃ marked, (v.toVersion marked).chars = cs) ↔ cs = v.chars ∨ cs = 'v' :: v.chars := by
  rw [Bool.exists_bool, chars_toVersion, chars_toVersion, eq_comm (a := cs), eq_comm (a := cs)]
  simp

theorem Valid.toVersion (h : v.Valid) : (v.toVersion marked).Valid :=
  ⟨isNumber_iff.2 (isNumeral_toDigits _), isNumber_iff.2 (isNumeral_toDigits _),
    isNumber_iff.2 (isNumeral_toDigits _),
    fun s hs => isPreReleaseIdentifier_iff_isPreRelease.2 (h.preRelease s hs).isPreRelease,
    fun s hs => isBuildIdentifier_iff.2 (h.build s hs)⟩

/-- **Every semantic version is read as a version**, marked or not. -/
theorem Valid.ofChars?_eq (h : v.Valid) (marked : Bool) :
    ofChars? (if marked then 'v' :: v.chars else v.chars) = some (v.toVersion marked) := by
  rw [← chars_toVersion]
  exact ofChars?_chars h.toVersion

theorem toVersion_inj (h : v.toVersion marked = v'.toVersion marked') : v = v' := by
  cases v
  cases v'
  unfold toVersion at h
  obtain ⟨-, hmajor, hminor, hpatch, rfl, rfl⟩ := Version.mk.inj h
  obtain rfl := toDigits_inj hmajor
  obtain rfl := toDigits_inj hminor
  obtain rfl := toDigits_inj hpatch
  rfl

/-- **The text determines the semantic version**, and whether it is marked. -/
theorem Valid.eq_of_chars_eq (h : v.Valid) (h' : v'.Valid)
    (heq : (v.toVersion marked).chars = (v'.toVersion marked').chars) : v = v' :=
  toVersion_inj (h.toVersion.eq_of_chars_eq h'.toVersion heq)

/-- A semantic version is written in ASCII. -/
theorem Valid.toNat_lt_of_mem_chars (h : v.Valid) :
    ∀ c ∈ (v.toVersion marked).chars, c.toNat < 128 := by
  have hword : ∀ {s : List Char}, IsBuild s → ∀ c ∈ s, decide (c.toNat < 128) = true :=
    fun hs c hc => decide_eq_true (toNat_lt_of_isAlphanum (hs.2 c hc))
  have hnumbers : ∀ c ∈ (v.toVersion marked).numberChars, decide (c.toNat < 128) = true := by
    refine forall_mem_intercalate (by decide) fun s hs => ?_
    simp only [List.mem_cons, List.not_mem_nil, or_false] at hs
    rcases hs with rfl | rfl | rfl
    · exact hword (isSemantic_toDigits v.major).1
    · exact hword (isSemantic_toDigits v.minor).1
    · exact hword (isSemantic_toDigits v.patch).1
  have hpre : ∀ c ∈ identifierChars '-' v.preRelease, decide (c.toNat < 128) = true :=
    forall_mem_identifierChars (by decide) (by decide) fun s hs => hword (h.preRelease s hs).1
  have hbuild : ∀ c ∈ identifierChars '+' v.build, decide (c.toNat < 128) = true :=
    forall_mem_identifierChars (by decide) (by decide) fun s hs => hword (h.build s hs)
  have hmark : ∀ c ∈ (if marked then ['v'] else []), decide (c.toNat < 128) = true := by
    cases marked with
    | true =>
      rw [if_pos rfl]
      exact List.forall_mem_singleton.2 (by decide)
    | false => exact fun c hc => absurd hc List.not_mem_nil
  intro c hc
  rw [Version.chars_eq, List.mem_append, List.mem_append, List.mem_append] at hc
  refine of_decide_eq_true ?_
  rcases hc with hc | hc | hc | hc
  · exact hmark c hc
  · exact hnumbers c hc
  · exact hpre c hc
  · exact hbuild c hc

/-- **A version in ASCII is a semantic one**, but for its mark. -/
theorem exists_toVersion_eq {w : Version} (h : w.Valid) (hascii : ∀ c ∈ w.chars, c.toNat < 128) :
    ∃ v : SemanticVersion, v.Valid ∧ v.toVersion w.marked = w := by
  obtain ⟨hmajor, hminor, hpatch, hpre, hbuild⟩ := h
  rw [Version.chars_eq] at hascii
  simp only [List.forall_mem_append] at hascii
  obtain ⟨-, hnumbers, hprechars, -⟩ := hascii
  have hnumbers := forall_mem_of_forall_mem_intercalate hnumbers
  obtain ⟨major, hmajor⟩ := (isNumber_iff.1 hmajor).exists_toDigits (hnumbers _ (by simp))
  obtain ⟨minor, hminor⟩ := (isNumber_iff.1 hminor).exists_toDigits (hnumbers _ (by simp))
  obtain ⟨patch, hpatch⟩ := (isNumber_iff.1 hpatch).exists_toDigits (hnumbers _ (by simp))
  refine ⟨⟨major, minor, patch, w.preRelease, w.build⟩, ⟨fun s hs => ?_, fun s hs => ?_⟩, ?_⟩
  · exact (isPreReleaseIdentifier_iff_isPreRelease.1 (hpre s hs)).isSemantic
      (forall_mem_of_forall_mem_identifierChars hprechars s hs)
  · exact isBuildIdentifier_iff.1 (hbuild s hs)
  · unfold toVersion
    cases w
    simp only [← hmajor, ← hminor, ← hpatch]

end SemanticVersion

namespace Dependency

open Version Text

/-- **The version of a dependency is a semantic version just if it is written in ASCII**, and then it is so
in one way only. What it holds beside ASCII are decimal digits of other scripts. -/
theorem parse_semantic_iff {text : String} {d : Dependency} (h : parse text = .ok d) :
    ((∀ c ∈ d.version.toList, c.toNat < 128) ↔
      ∃! v : SemanticVersion, v.Valid ∧
        (d.version.toList = v.chars ∨ d.version.toList = 'v' :: v.chars)) ∧
    ∀ c ∈ d.version.toList, 128 ≤ c.toNat → isDecimalDigit c = true := by
  obtain ⟨p, hp, -, rfl⟩ := ((parse_characterisation text).1 d).1 h
  have hversion : p.dependency.version.toList = p.version.chars := String.toList_ofList
  simp only [hversion, ← SemanticVersion.exists_chars_toVersion]
  refine ⟨⟨fun hascii => ?_, ?_⟩, fun c hc hlarge => ?_⟩
  · obtain ⟨v, hv, heq⟩ := SemanticVersion.exists_toVersion_eq hp.valid hascii
    refine ⟨v, ⟨hv, _, congrArg Version.chars heq⟩, ?_⟩
    rintro v' ⟨hv', marked', heq'⟩
    have hsame : (v'.toVersion marked').chars = (v.toVersion p.version.marked).chars := by rw [heq', heq]
    exact hv'.eq_of_chars_eq hv hsame
  · rintro ⟨v, ⟨hv, marked, heq⟩, -⟩
    rw [← heq]
    exact hv.toNat_lt_of_mem_chars
  · have hchar := isVersionChar_of_mem_chars hp.valid c hc
    unfold isVersionChar at hchar
    simp only [Bool.or_eq_true, decide_eq_true_eq] at hchar
    rcases hchar with ((hdigit | hword) | rfl) | rfl
    · exact hdigit
    · have hlt := toNat_lt_of_isAlphanum (isWordChar_iff.1 hword)
      omega
    · exact absurd hlarge (by decide)
    · exact absurd hlarge (by decide)

/-- A version with a mark, a pre-release and a build is a semantic one. -/
theorem parse_semantic_iff_sample :
    ∃! v : SemanticVersion, v.Valid ∧
      ("v1.20.3-rc.1+build.5".toList = v.chars ∨ "v1.20.3-rc.1+build.5".toList = 'v' :: v.chars) := by
  have hd : parse "a/b@v1.20.3-rc.1+build.5" =
      .ok ⟨"a/b", "v1.20.3-rc.1+build.5", "a/b@v1.20.3-rc.1+build.5"⟩ := by decide +kernel
  have hascii : ("v1.20.3-rc.1+build.5".toList.all fun c => decide (c.toNat < 128)) = true := by decide
  exact (parse_semantic_iff hd).1.1 fun c hc => of_decide_eq_true (List.all_eq_true.1 hascii c hc)

-- Of the numbers of a version, all but the first digit may be of another script.
example : (parse "a/b@1\u0663.0.0").map Dependency.version = .ok "1\u0663.0.0" := by decide +kernel

end Dependency

end SolVendor
