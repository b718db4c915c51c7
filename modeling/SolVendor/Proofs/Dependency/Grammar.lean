import Mathlib.Data.List.Basic
import SolVendor.Dependency.Pattern
import SolVendor.Proofs.Dependency.Reading
import SolVendor.Proofs.Text.Language
/-!
# Dependency — the grammar of dependencies

A text is a dependency just if it is made of an owner, a repository and the
parts of a version as the grammar has them (`Parts.IsGrammatical`). There
is only one way to make it of such parts, the two fields of the dependency
are what stands on either side of the only `@`, and these are also the
groups of the pattern (`parse_characterisation`).
-/

namespace SolVendor

/-! ## Identifiers as the grammar has them -/

namespace Version

open Text

variable {s : List Char}

/-- A zero, or a digit from one to nine and then decimal digits. -/
def IsNumeral (s : List Char) : Prop :=
  s = ['0'] ∨ ∃ c cs, s = c :: cs ∧ '1' ≤ c ∧ c ≤ '9' ∧ ∀ d ∈ cs, isDecimalDigit d = true

/-- A numeral, or decimal digits, then an ASCII letter or a hyphen, then ASCII letters, digits and hyphens. -/
def IsPreRelease (s : List Char) : Prop :=
  IsNumeral s ∨ ∃ digits c cs, s = digits ++ c :: cs ∧ (∀ d ∈ digits, isDecimalDigit d = true) ∧
    (c.isAlpha = true ∨ c = '-') ∧ ∀ d ∈ cs, d.isAlphanum = true ∨ d = '-'

/-- Some ASCII letters, digits and hyphens. -/
def IsBuild (s : List Char) : Prop :=
  s ≠ [] ∧ ∀ c ∈ s, c.isAlphanum = true ∨ c = '-'

theorem isWordStart_iff {c : Char} : isWordStart c = true ↔ c.isAlpha = true ∨ c = '-' := by
  unfold isWordStart
  rw [Bool.or_eq_true, decide_eq_true_eq]

theorem isWordChar_iff {c : Char} : isWordChar c = true ↔ c.isAlphanum = true ∨ c = '-' := by
  unfold isWordChar
  rw [Bool.or_eq_true, decide_eq_true_eq]

theorem isNumber_iff : isNumber s = true ↔ IsNumeral s := by
  unfold IsNumeral
  constructor
  · intro h
    unfold isNumber at h
    split at h
    · exact .inl rfl
    · rename_i c cs _
      simp only [Bool.and_eq_true, decide_eq_true_eq, List.all_eq_true] at h
      exact .inr ⟨c, cs, rfl, h.1.1, h.1.2, h.2⟩
    · cases h
  · rintro (rfl | ⟨c, cs, rfl, hlow, hhigh, hcs⟩)
    · rfl
    · unfold isNumber
      split
      · rfl
      · rename_i heq
        obtain ⟨rfl, rfl⟩ := List.cons.inj heq
        simp only [Bool.and_eq_true, decide_eq_true_eq, List.all_eq_true]
        exact ⟨⟨hlow, hhigh⟩, hcs⟩
      · rename_i heq
        cases heq

theorem isPreReleaseIdentifier_iff_isPreRelease : isPreReleaseIdentifier s = true ↔ IsPreRelease s := by
  unfold IsPreRelease
  simp only [isPreReleaseIdentifier_iff, isNumber_iff, isWordStart_iff, isWordChar_iff]

theorem isBuildIdentifier_iff : isBuildIdentifier s = true ↔ IsBuild s := by
  unfold isBuildIdentifier IsBuild
  simp only [Bool.and_eq_true, decide_eq_true_eq, List.all_eq_true, isWordChar_iff]

end Version

/-! ## What the patterns stand for -/

/-- What is written between separators, the first without one. -/
theorem intercalate_cons_eq {sep : Char} {s : List Char} {ids : List (List Char)} :
    [sep].intercalate (s :: ids) = s ++ (ids.map (sep :: ·)).flatten := by
  induction ids generalizing s with
  | nil => simp
  | cons t ids ih =>
    rw [List.intercalate_cons_cons, ih]
    simp

namespace Version

theorem identifierChars_cons {sign : Char} {s : List Char} {ids : List (List Char)} :
    identifierChars sign (s :: ids) = sign :: (s ++ (ids.map ('.' :: ·)).flatten) := by
  rw [← intercalate_cons_eq]
  rfl

/-- There are no more identifiers than characters. -/
theorem length_le_identifierChars {sign : Char} (ids : List (List Char)) :
    ids.length ≤ (identifierChars sign ids).length := by
  cases ids with
  | nil => exact Nat.zero_le _
  | cons s ids =>
    have hrest : ids.length ≤ ((ids.map ('.' :: ·)).flatten).length := by
      induction ids with
      | nil => exact Nat.zero_le _
      | cons t ids ih =>
        rw [List.map_cons, List.flatten_cons, List.length_append, List.length_cons,
          List.length_cons]
        omega
    rw [identifierChars_cons, List.length_cons, List.length_cons, List.length_append]
    omega

end Version

namespace Dependency

open Text Version

variable {bound : Nat} {sign : Char} {p : Pattern} {P : List Char → Prop} {s t : List Char}

/-- An owner or a repository: some characters that are neither blank nor `@` nor a slash. -/
def IsNameText (s : List Char) : Prop :=
  s ≠ [] ∧ ∀ c ∈ s, isBlank c = false ∧ c ≠ '@' ∧ c ≠ '/'

theorem isNameChar_iff {c : Char} : isNameChar c = true ↔ isBlank c = false ∧ c ≠ '@' ∧ c ≠ '/' := by
  unfold isNameChar
  simp only [Bool.and_eq_true, Bool.not_eq_true', decide_eq_true_eq, and_assoc]

theorem isNameText_iff : IsNameText s ↔ isNamePart s = true ∧ '/' ∉ s := by
  unfold IsNameText isNamePart
  simp only [Bool.and_eq_true, decide_eq_true_eq, List.all_eq_true, Bool.not_eq_true']
  constructor
  · rintro ⟨hne, hall⟩
    exact ⟨⟨hne, fun c hc => ⟨(hall c hc).1, (hall c hc).2.1⟩⟩, fun hmem => (hall _ hmem).2.2 rfl⟩
  · rintro ⟨⟨hne, hall⟩, hslash⟩
    exact ⟨hne, fun c hc => ⟨(hall c hc).1, (hall c hc).2, fun heq => hslash (heq ▸ hc)⟩⟩

theorem describes_namePattern : namePattern.Describes fun t =>
    ∃ owner repository, IsNameText owner ∧ IsNameText repository ∧ t = owner ++ '/' :: repository := by
  have hpart : (Pattern.repeated true isNameChar).Describes IsNameText :=
    Pattern.describes_repeated.congr fun t => by simp only [IsNameText, isNameChar_iff]
  refine (hpart.seq (Pattern.describes_word.seq hpart)).congr fun t => ⟨?_, ?_⟩
  · rintro ⟨owner, _, howner, ⟨_, repository, rfl, hrepository, rfl⟩, rfl⟩
    exact ⟨owner, repository, howner, hrepository, rfl⟩
  · rintro ⟨owner, repository, howner, hrepository, rfl⟩
    exact ⟨owner, _, howner, ⟨_, repository, rfl, hrepository, rfl⟩, rfl⟩

theorem describes_numberPattern : numberPattern.Describes IsNumeral := by
  refine (Pattern.describes_word.either (Pattern.describes_char.seq Pattern.describes_many)).congr
    fun t => or_congr_right ⟨?_, ?_⟩
  · rintro ⟨_, cs, ⟨c, hc, rfl⟩, hcs, rfl⟩
    simp only [Bool.and_eq_true, decide_eq_true_eq] at hc
    exact ⟨c, cs, rfl, hc.1, hc.2, hcs⟩
  · rintro ⟨c, cs, rfl, hlow, hhigh, hcs⟩
    have hc : ('1' ≤ c && c ≤ '9') = true := by
      simp only [Bool.and_eq_true, decide_eq_true_eq]
      exact ⟨hlow, hhigh⟩
    exact ⟨[c], cs, ⟨c, hc, rfl⟩, hcs, rfl⟩

theorem describes_preReleasePattern : preReleasePattern.Describes IsPreRelease := by
  refine (describes_numberPattern.either (Pattern.describes_many.seq
    (Pattern.describes_char.seq Pattern.describes_many))).congr fun t => or_congr_right ⟨?_, ?_⟩
  · rintro ⟨digits, _, hdigits, ⟨_, cs, ⟨c, hc, rfl⟩, hcs, rfl⟩, rfl⟩
    exact ⟨digits, c, cs, rfl, hdigits, isWordStart_iff.1 hc, fun d hd => isWordChar_iff.1 (hcs d hd)⟩
  · rintro ⟨digits, c, cs, rfl, hdigits, hc, hcs⟩
    exact ⟨digits, _, hdigits, ⟨_, cs, ⟨c, isWordStart_iff.2 hc, rfl⟩,
      fun d hd => isWordChar_iff.2 (hcs d hd), rfl⟩, rfl⟩

theorem describes_buildPattern : buildPattern.Describes IsBuild :=
  Pattern.describes_repeated.congr fun t => by simp only [IsBuild, isWordChar_iff]

/-- **Identifiers that are announced**, or none at all. -/
theorem describes_identifiersPattern (hp : p.Describes P) :
    (identifiersPattern bound sign p).Describes fun t => ∃ ids : List (List Char),
      ids.length ≤ bound + 1 ∧ (∀ s ∈ ids, P s) ∧ t = identifierChars sign ids := by
  refine (Pattern.describes_word.seq (hp.seq ((Pattern.describes_word.seq hp).upTo bound))).optional.congr
    fun t => ⟨?_, ?_⟩
  · rintro (⟨_, _, rfl, ⟨s, _, hs, ⟨ts, hlength, hts, rfl⟩, rfl⟩, rfl⟩ | rfl)
    · have hmap : (ts.map List.tail).map ('.' :: ·) = ts := by
        rw [List.map_map]
        refine (List.map_congr_left fun u hu => ?_).trans (List.map_id ts)
        obtain ⟨_, u, rfl, -, rfl⟩ := hts u hu
        rfl
      refine ⟨s :: ts.map List.tail, ?_, List.forall_mem_cons.2 ⟨hs, ?_⟩, ?_⟩
      · rw [List.length_cons, List.length_map]
        exact Nat.succ_le_succ hlength
      · intro u hu
        obtain ⟨_, hmem, rfl⟩ := List.mem_map.1 hu
        obtain ⟨_, u, rfl, hP, rfl⟩ := hts _ hmem
        exact hP
      · rw [identifierChars_cons, hmap]
        rfl
    · exact ⟨[], Nat.zero_le _, fun s hs => absurd hs List.not_mem_nil, rfl⟩
  · rintro ⟨ids, hlength, hids, rfl⟩
    cases ids with
    | nil => exact .inr rfl
    | cons s ids =>
      obtain ⟨hs, hids⟩ := List.forall_mem_cons.1 hids
      refine .inl ⟨_, _, rfl, ⟨s, _, hs, ⟨ids.map ('.' :: ·), ?_, ?_, rfl⟩, rfl⟩, ?_⟩
      · rw [List.length_map]
        exact Nat.le_of_succ_le_succ hlength
      · intro u hu
        obtain ⟨u, hmem, rfl⟩ := List.mem_map.1 hu
        exact ⟨_, u, rfl, hids u hmem, rfl⟩
      · rw [identifierChars_cons]
        rfl

/-- **A version, with lists that are not too long for the bound.** -/
theorem describes_versionPattern : (versionPattern bound).Describes fun t => ∃ v : Version,
    v.Valid ∧ v.preRelease.length ≤ bound + 1 ∧ v.build.length ≤ bound + 1 ∧ t = v.chars := by
  have hnumbers : numbersPattern.Describes fun t => ∃ major minor patch,
      IsNumeral major ∧ IsNumeral minor ∧ IsNumeral patch ∧
      t = ['.'].intercalate [major, minor, patch] := by
    have hnumber := describes_numberPattern
    refine (hnumber.seq (Pattern.describes_word.seq (hnumber.seq
      (Pattern.describes_word.seq hnumber)))).congr fun t => ⟨?_, ?_⟩
    · rintro ⟨major, _, hmajor, ⟨_, _, rfl, ⟨minor, _, hminor, ⟨_, patch, rfl, hpatch, rfl⟩, rfl⟩, rfl⟩,
        rfl⟩
      exact ⟨major, minor, patch, hmajor, hminor, hpatch, by simp⟩
    · rintro ⟨major, minor, patch, hmajor, hminor, hpatch, rfl⟩
      exact ⟨major, _, hmajor, ⟨_, _, rfl, ⟨minor, _, hminor, ⟨_, patch, rfl, hpatch, rfl⟩, rfl⟩, rfl⟩,
        by simp⟩
  refine (Pattern.describes_word.optional.seq (hnumbers.seq
    ((describes_identifiersPattern describes_preReleasePattern).seq
      (describes_identifiersPattern describes_buildPattern)))).congr fun t => ⟨?_, ?_⟩
  · rintro ⟨mark, _, hmark, ⟨_, _, ⟨major, minor, patch, hmajor, hminor, hpatch, rfl⟩,
      ⟨_, _, ⟨pre, hprelen, hpre, rfl⟩, ⟨build, hbuildlen, hbuild, rfl⟩, rfl⟩, rfl⟩, rfl⟩
    refine ⟨⟨decide (mark = ['v']), major, minor, patch, pre, build⟩, ⟨isNumber_iff.2 hmajor,
      isNumber_iff.2 hminor, isNumber_iff.2 hpatch,
      fun s hs => isPreReleaseIdentifier_iff_isPreRelease.2 (hpre s hs),
      fun s hs => isBuildIdentifier_iff.2 (hbuild s hs)⟩, hprelen, hbuildlen, ?_⟩
    rw [chars_eq]
    rcases hmark with rfl | rfl
    · rfl
    · rfl
  · rintro ⟨v, ⟨hmajor, hminor, hpatch, hpre, hbuild⟩, hprelen, hbuildlen, rfl⟩
    refine ⟨if v.marked then ['v'] else [], _, ?_, ⟨v.numberChars, _, ⟨v.major, v.minor, v.patch,
      isNumber_iff.1 hmajor, isNumber_iff.1 hminor, isNumber_iff.1 hpatch, rfl⟩,
      ⟨_, _, ⟨v.preRelease, hprelen, fun s hs => ?_, rfl⟩, ⟨v.build, hbuildlen, fun s hs => ?_, rfl⟩,
      rfl⟩, rfl⟩, v.chars_eq⟩
    · cases v.marked with
      | true => exact .inl rfl
      | false => exact .inr rfl
    · exact isPreReleaseIdentifier_iff_isPreRelease.1 (hpre s hs)
    · exact isBuildIdentifier_iff.1 (hbuild s hs)

/-! ## Texts that are made of parts -/

/-- What the text of a dependency is made of. -/
structure Parts where
  owner : List Char
  repository : List Char
  version : Version

namespace Parts

variable {p p' : Parts} {text : String} {d : Dependency}

/-- The parts are as the grammar has them. -/
structure IsGrammatical (p : Parts) : Prop where
  owner : IsNameText p.owner
  repository : IsNameText p.repository
  major : IsNumeral p.version.major
  minor : IsNumeral p.version.minor
  patch : IsNumeral p.version.patch
  preRelease : ∀ s ∈ p.version.preRelease, IsPreRelease s
  build : ∀ s ∈ p.version.build, IsBuild s

/-- Owner and repository with a slash between them. -/
def name (p : Parts) : List Char :=
  p.owner ++ '/' :: p.repository

/-- The text that is made of the parts. -/
def chars (p : Parts) : List Char :=
  p.name ++ '@' :: p.version.chars

/-- The dependency with the two parts of a text on either side of the `@`. -/
def dependency (p : Parts) : Dependency :=
  ⟨String.ofList p.name, String.ofList p.version.chars, String.ofList p.chars⟩

theorem IsGrammatical.valid (h : p.IsGrammatical) : p.version.Valid :=
  ⟨isNumber_iff.2 h.major, isNumber_iff.2 h.minor, isNumber_iff.2 h.patch,
    fun s hs => isPreReleaseIdentifier_iff_isPreRelease.2 (h.preRelease s hs),
    fun s hs => isBuildIdentifier_iff.2 (h.build s hs)⟩

theorem isGrammatical_of_valid (howner : IsNameText p.owner) (hrepository : IsNameText p.repository)
    (h : p.version.Valid) : p.IsGrammatical := by
  obtain ⟨hmajor, hminor, hpatch, hpre, hbuild⟩ := h
  exact ⟨howner, hrepository, isNumber_iff.1 hmajor, isNumber_iff.1 hminor, isNumber_iff.1 hpatch,
    fun s hs => isPreReleaseIdentifier_iff_isPreRelease.1 (hpre s hs),
    fun s hs => isBuildIdentifier_iff.1 (hbuild s hs)⟩

theorem IsGrammatical.at_notMem_name (h : p.IsGrammatical) : '@' ∉ p.name := by
  have howner : '@' ∉ p.owner := fun hmem => (h.owner.2 _ hmem).2.1 rfl
  have hrepository : '@' ∉ p.repository := fun hmem => (h.repository.2 _ hmem).2.1 rfl
  unfold name
  simp [howner, hrepository]

theorem IsGrammatical.at_notMem_version (h : p.IsGrammatical) : '@' ∉ p.version.chars := by
  intro hmem
  have hat := isVersionChar_of_mem_chars h.valid _ hmem
  revert hat
  decide

/-- **A text is made of parts in one way only.** -/
theorem IsGrammatical.eq_of_chars_eq (h : p.IsGrammatical) (h' : p'.IsGrammatical)
    (heq : p.chars = p'.chars) : p = p' := by
  obtain ⟨hname, -, hversion⟩ :=
    (List.append_cons_inj_of_notMem h.at_notMem_name h.at_notMem_version).1 heq
  have hos : '/' ∉ p.owner := fun hmem => (h.owner.2 _ hmem).2.2 rfl
  have hrs : '/' ∉ p.repository := fun hmem => (h.repository.2 _ hmem).2.2 rfl
  obtain ⟨howner, -, hrepository⟩ := (List.append_cons_inj_of_notMem hos hrs).1 hname
  have hparts := h.valid.eq_of_chars_eq h'.valid hversion
  cases p
  cases p'
  obtain rfl := howner
  obtain rfl := hrepository
  obtain rfl := hparts
  rfl

theorem IsGrammatical.ofString?_eq (h : p.IsGrammatical) (htext : p.chars = text.toList) :
    ofString? text = some p.dependency := by
  obtain ⟨howner, hos⟩ := isNameText_iff.1 h.owner
  obtain ⟨hrepository, hrs⟩ := isNameText_iff.1 h.repository
  have hread : (ofChars? p.version.chars).isSome = true := by
    rw [ofChars?_chars h.valid]
    rfl
  have htext' : text.toList = p.owner ++ '/' :: (p.repository ++ '@' :: p.version.chars) := by
    rw [← htext]
    unfold chars name
    rw [List.append_assoc]
    rfl
  rw [ofString?_of_parts howner hrepository hos hrs hread htext']
  unfold dependency
  rw [htext, String.ofList_toList]
  rfl

/-- **What is read from a text is what it is made of.** -/
theorem ofString?_eq_some_iff : ofString? text = some d ↔
    ∃ p : Parts, p.IsGrammatical ∧ p.chars = text.toList ∧ p.dependency = d := by
  constructor
  · intro h
    obtain ⟨-, owner, repository, version, -, -, htext, ho, hr, hos, hrs, hread⟩ := parts_of_ofString? h
    obtain ⟨v, hv⟩ := Option.isSome_iff_exists.1 hread
    obtain ⟨hvalid, rfl⟩ := parts_of_ofChars? hv
    have hp : (⟨owner, repository, v⟩ : Parts).IsGrammatical :=
      isGrammatical_of_valid (isNameText_iff.2 ⟨ho, hos⟩) (isNameText_iff.2 ⟨hr, hrs⟩) hvalid
    have hmade : (⟨owner, repository, v⟩ : Parts).chars = text.toList := by
      unfold chars name
      rw [htext, List.append_assoc]
      rfl
    have hsame := (hp.ofString?_eq hmade).symm.trans h
    exact ⟨_, hp, hmade, Option.some.inj hsame⟩
  · rintro ⟨p, hp, htext, rfl⟩
    exact hp.ofString?_eq htext

/-- The text has room for all identifiers. -/
theorem length_identifiers_le (p : Parts) :
    p.version.preRelease.length ≤ p.chars.length ∧ p.version.build.length ≤ p.chars.length := by
  have hpre : _ ≤ (identifierChars '-' p.version.preRelease).length := length_le_identifierChars _
  have hbuild : _ ≤ (identifierChars '+' p.version.build).length := length_le_identifierChars _
  unfold chars
  rw [Version.chars_eq, List.length_append, List.length_cons, List.length_append, List.length_append,
    List.length_append]
  constructor
  · omega
  · omega

end Parts

/-! ## The pattern of a dependency -/

variable {text : String} {d : Dependency}

theorem isGroupless_identifiersPattern (hp : p.isGroupless = true) :
    (identifiersPattern bound sign p).isGroupless = true := by
  have hword : (Pattern.word [sign]).isGroupless = true := Pattern.isGroupless_word
  have hrest : (Pattern.seq (.word ['.']) p).isGroupless = true :=
    Bool.and_eq_true_iff.2 ⟨Pattern.isGroupless_word, hp⟩
  have hlist := Pattern.isGroupless_upTo hrest bound
  exact Bool.and_eq_true_iff.2
    ⟨Bool.and_eq_true_iff.2 ⟨hword, Bool.and_eq_true_iff.2 ⟨hp, hlist⟩⟩, rfl⟩

theorem isGroupless_versionPattern : (versionPattern bound).isGroupless = true :=
  Bool.and_eq_true_iff.2 ⟨rfl, Bool.and_eq_true_iff.2 ⟨rfl, Bool.and_eq_true_iff.2
    ⟨isGroupless_identifiersPattern rfl, isGroupless_identifiersPattern rfl⟩⟩⟩

/-- **The groups of the pattern are the fields of the dependency.** The bound has to allow for as many
identifiers as the text has room for. -/
theorem groups?_eq (hbound : text.length ≤ bound) :
    groups? bound text = (ofString? text).map fun d => (d.name, d.version) := by
  have hname : namePattern.isGroupless = true := rfl
  have hgrouped : pattern bound = .grouped namePattern ['@'] (versionPattern bound) := rfl
  unfold groups?
  rw [hgrouped]
  cases hways : (Pattern.grouped namePattern ['@'] (versionPattern bound)).ways text.toList with
  | nil =>
    cases hread : ofString? text with
    | none => rfl
    | some d =>
      obtain ⟨p, hp, htext, -⟩ := Parts.ofString?_eq_some_iff.1 hread
      obtain ⟨hpre, hbuild⟩ := p.length_identifiers_le
      have hlength : p.chars.length ≤ bound := by
        rw [htext, String.length_toList]
        exact hbound
      have hway : (Pattern.grouped namePattern ['@'] (versionPattern bound)).ways
          (p.owner ++ '/' :: p.repository ++ (['@'] ++ p.version.chars)) ≠ [] :=
        Pattern.ways_grouped_ne_nil describes_namePattern describes_versionPattern
          ⟨p.owner, p.repository, hp.owner, hp.repository, rfl⟩
          ⟨p.version, hp.valid, by omega, by omega, rfl⟩
      rw [show p.owner ++ '/' :: p.repository ++ (['@'] ++ p.version.chars) = text.toList from htext] at hway
      exact absurd hways hway
  | cons w ws =>
    have hmem : w ∈ (Pattern.grouped namePattern ['@'] (versionPattern bound)).ways text.toList := by
      rw [hways]
      exact List.mem_cons_self
    obtain ⟨⟨owner, repository, howner, hrepository, hfirst⟩, ⟨v, hv, -, -, hsecond⟩, htext⟩ :=
      Pattern.exists_of_mem_ways_grouped describes_namePattern describes_versionPattern hname
        isGroupless_versionPattern hmem
    rw [hfirst, hsecond] at htext
    have hp : (⟨owner, repository, v⟩ : Parts).IsGrammatical :=
      Parts.isGrammatical_of_valid howner hrepository hv
    rw [hp.ofString?_eq htext.symm, Option.map_some, List.head?_cons, Option.map_some, hfirst, hsecond]
    rfl

/-! ## What is accepted -/

/-- **A text is read as a dependency just if the grammar has it**, and then it has one reading: there is only
one way to make it of parts, the name and the version are what stands on either side of its only `@` and what
the groups of the pattern keep, and what is written for the dependency is the text. -/
theorem parse_characterisation (text : String) :
    (∀ d, parse text = .ok d ↔
      ∃ p : Parts, p.IsGrammatical ∧ p.chars = text.toList ∧ p.dependency = d) ∧
    (∀ p p' : Parts, p.IsGrammatical → p'.IsGrammatical → p.chars = text.toList →
      p'.chars = text.toList → p = p') ∧
    (∀ d, parse text = .ok d →
      text.toList = d.name.toList ++ '@' :: d.version.toList ∧
      '@' ∉ d.name.toList ∧ '@' ∉ d.version.toList ∧
      d.path = text ∧ d.toString = text ∧ parse d.toString = .ok d) ∧
    (∀ bound, text.length ≤ bound →
      groups? bound text = (ofString? text).map fun d => (d.name, d.version)) := by
  have hparse : ∀ d, parse text = .ok d ↔
      ∃ p : Parts, p.IsGrammatical ∧ p.chars = text.toList ∧ p.dependency = d := by
    intro d
    rw [← Parts.ofString?_eq_some_iff]
    unfold parse
    cases ofString? text with
    | none => simp
    | some d' => simp
  refine ⟨hparse, ?_, ?_, fun bound hbound => groups?_eq hbound⟩
  · intro p p' hp hp' hchars hchars'
    exact hp.eq_of_chars_eq hp' (hchars.trans hchars'.symm)
  · intro d hd
    obtain ⟨p, hp, htext, rfl⟩ := (hparse d).1 hd
    have hname : p.dependency.name.toList = p.name := String.toList_ofList
    have hversion : p.dependency.version.toList = p.version.chars := String.toList_ofList
    have hpath : p.dependency.path = text := by
      unfold Parts.dependency
      rw [htext, String.ofList_toList]
    have hstring : p.dependency.toString = text := by
      unfold toString
      rw [← String.toList_inj, String.toList_append, String.toList_append, hname, hversion, ← htext]
      unfold Parts.chars
      rw [List.append_assoc]
      rfl
    rw [hname, hversion, hstring]
    exact ⟨htext.symm, hp.at_notMem_name, hp.at_notMem_version, hpath, rfl, hd⟩

end Dependency

end SolVendor
