import Mathlib.Data.List.TakeWhile
import SolVendor.Proofs.Dependency.Key
/-!
# Dependency — what is written is read

A version that has valid parts is read from the text that it is written as
(`Version.ofChars?_eq_some_iff`): no identifier holds the sign that ends it
or announces the next list, and a version that is not marked begins with a
digit. So a version is written in one way only (`Version.Valid.eq_of_chars_eq`).

A dependency is read from an owner, a repository and a version in the same
way (`Dependency.ofString?_of_parts`).
-/

namespace SolVendor

/-- A text is cut where its first part ends, if the second begins with what the first does not hold. -/
theorem span_append_of_head? {p : Char → Bool} {xs ys : List Char} (hxs : ∀ c ∈ xs, p c = true)
    (hys : ∀ c ∈ ys.head?, p c = false) : (xs ++ ys).span p = (xs, ys) := by
  rw [List.span_eq_takeWhile_dropWhile, List.takeWhile_append_of_pos hxs,
    List.dropWhile_append_of_pos hxs]
  cases ys with
  | nil => simp
  | cons c ys =>
    have hc : ¬ p c = true := by simpa using hys c rfl
    rw [List.takeWhile_cons_of_neg hc, List.dropWhile_cons_of_neg hc, List.append_nil]

/-- What does not belong to a class is in no text of characters that do. -/
theorem notMem_of_forall {p : Char → Bool} {s : List Char} {c : Char} (h : ∀ d ∈ s, p d = true)
    (hc : p c = false) : c ∉ s := by
  intro hmem
  rw [h c hmem] at hc
  cases hc

namespace Version

open Text (isDecimalDigit isDecimalDigit_iff_of_lt)

variable {v v' : Version} {s cs rest : List Char} {ids : List (List Char)} {c sign : Char}
  {stop : Char → Bool}

/-! ## Identifiers -/

theorem head?_identifierChars : ∀ c ∈ (identifierChars sign ids).head?, c = sign := by
  cases ids with
  | nil => simp [identifierChars]
  | cons s ids => simp [identifierChars, eq_comm]

/-- **Identifiers are split off as they are written**, if none of them holds a dot or what ends them, and
the text after them begins with what does. -/
theorem splitIdentifiers_identifierChars (hdots : ∀ s ∈ ids, '.' ∉ s)
    (hids : ∀ s ∈ ids, ∀ c ∈ s, stop c = false) (hdot : stop '.' = false)
    (hrest : ∀ c ∈ rest.head?, c ≠ sign ∧ stop c = true) :
    splitIdentifiers sign stop (identifierChars sign ids ++ rest) = (ids, rest) := by
  cases ids with
  | nil =>
    cases rest with
    | nil => rfl
    | cons c rest =>
      obtain ⟨hc, -⟩ := hrest c rfl
      show (if c = sign then _ else ([], c :: rest)) = _
      rw [if_neg hc]
  | cons s ids =>
    have hall : ∀ c ∈ ['.'].intercalate (s :: ids), (!stop c) = true :=
      forall_mem_intercalate (p := fun c => !stop c) (by rw [hdot]; rfl) fun t ht c hc => by
        rw [hids t ht c hc]
        rfl
    have hspan := span_append_of_head? hall fun c hc => by
      rw [(hrest c hc).2]
      rfl
    rw [identifierChars, List.cons_append, splitIdentifiers, if_pos rfl, hspan]
    · simp only [List.splitOn_intercalate '.' hdots (List.cons_ne_nil s ids)]
    · exact List.cons_ne_nil s ids

/-- The letters come after the digits, and belong to ASCII. -/
theorem toNat_of_isAlpha (h : c.isAlpha = true) : 0x39 < c.toNat ∧ c.toNat < 128 := by
  rcases Bool.or_eq_true_iff.1 (show (c.isUpper || c.isLower) = true from h) with h | h
  · obtain ⟨hlow, hhigh⟩ := of_decide_eq_true h
    have hlow : 0x41 ≤ c.toNat := hlow
    have hhigh : c.toNat ≤ 0x5A := hhigh
    omega
  · obtain ⟨hlow, hhigh⟩ := Bool.and_eq_true_iff.1 h
    have hlow : 0x61 ≤ c.toNat := of_decide_eq_true hlow
    have hhigh : c.toNat ≤ 0x7A := of_decide_eq_true hhigh
    omega

theorem toNat_le_of_isDigit (h : c.isDigit = true) : c.toNat ≤ 0x39 :=
  of_decide_eq_true (Bool.and_eq_true_iff.1 h).2

/-- A word begins with no digit. -/
theorem isDecimalDigit_of_isWordStart (h : isWordStart c = true) : isDecimalDigit c = false := by
  unfold isWordStart at h
  rcases Bool.or_eq_true_iff.1 h with h | h
  · obtain ⟨hlow, hhigh⟩ := toNat_of_isAlpha h
    rw [← Bool.not_eq_true, isDecimalDigit_iff_of_lt hhigh]
    intro hdigit
    have hle := toNat_le_of_isDigit hdigit
    omega
  · obtain rfl := of_decide_eq_true h
    decide

/-- **An identifier of a pre-release** is a number, or digits before a word that begins with none. -/
theorem isPreReleaseIdentifier_iff : isPreReleaseIdentifier s = true ↔
    isNumber s = true ∨ ∃ digits c cs, s = digits ++ c :: cs ∧
      (∀ d ∈ digits, isDecimalDigit d = true) ∧ isWordStart c = true ∧
      ∀ d ∈ cs, isWordChar d = true := by
  unfold isPreReleaseIdentifier
  rw [Bool.or_eq_true]
  refine or_congr_right ?_
  constructor
  · intro h
    split at h
    · rename_i c cs hdrop
      rw [Bool.and_eq_true, List.all_eq_true] at h
      refine ⟨s.takeWhile isDecimalDigit, c, cs, ?_, List.all_eq_true.1 List.all_takeWhile, h⟩
      rw [← hdrop, List.takeWhile_append_dropWhile]
    · cases h
  · rintro ⟨digits, c, cs, rfl, hdigits, hc, hcs⟩
    have hnot : ¬ isDecimalDigit c = true := by
      rw [isDecimalDigit_of_isWordStart hc]
      exact Bool.false_ne_true
    rw [List.dropWhile_append_of_pos hdigits, List.dropWhile_cons_of_neg hnot]
    simp only [Bool.and_eq_true, List.all_eq_true]
    exact ⟨hc, hcs⟩

/-- What is neither a digit nor in a word is in no number. -/
theorem notMem_of_isNumber (h : isNumber s = true) (hc : isDecimalDigit c = false) : c ∉ s :=
  notMem_of_forall (fun _ hd => isDecimalDigit_of_mem_isNumber h hd) hc

/-- Nor is it in an identifier of a pre-release. -/
theorem notMem_of_isPreReleaseIdentifier (h : isPreReleaseIdentifier s = true)
    (hc : isDecimalDigit c = false) (hc' : isWordChar c = false) : c ∉ s := by
  rcases isPreReleaseIdentifier_iff.1 h with h | ⟨digits, d, ds, rfl, hdigits, hd, hds⟩
  · exact notMem_of_isNumber h hc
  · have hword : ∀ e ∈ d :: ds, isWordChar e = true :=
      List.forall_mem_cons.2 ⟨isWordChar_of_isWordStart hd, hds⟩
    rw [List.mem_append, not_or]
    exact ⟨notMem_of_forall hdigits hc, notMem_of_forall hword hc'⟩

/-- Nor in one of a build. -/
theorem notMem_of_isBuildIdentifier (h : isBuildIdentifier s = true) (hc : isWordChar c = false) :
    c ∉ s := by
  unfold isBuildIdentifier at h
  rw [Bool.and_eq_true, List.all_eq_true] at h
  exact notMem_of_forall h.2 hc

/-! ## Versions -/

/-- The three numbers of a version, as they are written. -/
def numberChars (v : Version) : List Char :=
  ['.'].intercalate [v.major, v.minor, v.patch]

theorem chars_eq (v : Version) : v.chars = (if v.marked then ['v'] else []) ++
    (v.numberChars ++ (identifierChars '-' v.preRelease ++ identifierChars '+' v.build)) := by
  unfold chars numberChars
  rw [List.append_assoc, List.append_assoc]

/-- A version that is not marked begins with a digit. -/
theorem Valid.exists_numberChars (h : v.Valid) :
    ∃ c cs, v.numberChars = c :: cs ∧ isDecimalDigit c = true := by
  obtain ⟨hmajor, -⟩ := h
  obtain ⟨c, cs, hc⟩ := List.exists_cons_of_ne_nil (show v.major ≠ [] by
    intro hnil
    rw [hnil] at hmajor
    cases hmajor)
  have hdigit := isDecimalDigit_of_mem_isNumber hmajor (show c ∈ v.major by rw [hc]; simp)
  refine ⟨c, cs ++ '.' :: ['.'].intercalate [v.minor, v.patch], ?_, hdigit⟩
  unfold numberChars
  rw [hc]
  simp

theorem Valid.isNumber_of_mem (h : v.Valid) : ∀ s ∈ [v.major, v.minor, v.patch], isNumber s = true := by
  obtain ⟨hmajor, hminor, hpatch, -⟩ := h
  exact List.forall_mem_cons.2 ⟨hmajor, List.forall_mem_cons.2 ⟨hminor, List.forall_mem_singleton.2 hpatch⟩⟩

theorem Valid.splitOn_numberChars (h : v.Valid) :
    v.numberChars.splitOn '.' = [v.major, v.minor, v.patch] :=
  List.splitOn_intercalate '.' (fun s hs => notMem_of_isNumber (h.isNumber_of_mem s hs) (by decide))
    (List.cons_ne_nil _ _)

/-- The numbers hold no sign, and what follows them begins with one. -/
theorem Valid.span_numberChars (h : v.Valid) :
    (v.numberChars ++ (identifierChars '-' v.preRelease ++ identifierChars '+' v.build)).span
        (fun c => c ≠ '-' && c ≠ '+') =
      (v.numberChars, identifierChars '-' v.preRelease ++ identifierChars '+' v.build) := by
  refine span_append_of_head? (forall_mem_intercalate (by decide) fun s hs c hc => ?_) fun c hc => ?_
  · have hdigit := isDecimalDigit_of_mem_isNumber (h.isNumber_of_mem s hs) hc
    rw [Bool.and_eq_true, decide_eq_true_eq, decide_eq_true_eq]
    constructor
    · rintro rfl
      exact absurd hdigit (by decide)
    · rintro rfl
      exact absurd hdigit (by decide)
  · rw [List.head?_append, Option.mem_def, Option.or_eq_some_iff] at hc
    rcases hc with hc | ⟨-, hc⟩
    · rw [head?_identifierChars c hc]
      rfl
    · rw [head?_identifierChars c hc]
      rfl

theorem Valid.splitIdentifiers_preRelease (h : v.Valid) :
    splitIdentifiers '-' (· = '+') (identifierChars '-' v.preRelease ++ identifierChars '+' v.build) =
      (v.preRelease, identifierChars '+' v.build) := by
  obtain ⟨-, -, -, hpre, -⟩ := h
  refine splitIdentifiers_identifierChars
    (fun s hs => notMem_of_isPreReleaseIdentifier (hpre s hs) (by decide) (by decide)) ?_ rfl ?_
  · intro s hs c hc
    rw [decide_eq_false_iff_not]
    rintro rfl
    exact notMem_of_isPreReleaseIdentifier (hpre s hs) (by decide) (by decide) hc
  · intro c hc
    rw [head?_identifierChars c hc]
    decide

theorem Valid.splitIdentifiers_build (h : v.Valid) :
    splitIdentifiers '+' (fun _ => false) (identifierChars '+' v.build) = (v.build, []) := by
  obtain ⟨-, -, -, -, hbuild⟩ := h
  have hsplit : splitIdentifiers '+' (fun _ => false) (identifierChars '+' v.build ++ []) = (v.build, []) :=
    splitIdentifiers_identifierChars (fun s hs => notMem_of_isBuildIdentifier (hbuild s hs) (by decide))
      (fun _ _ _ _ => rfl) rfl fun c hc => by cases hc
  rwa [List.append_nil] at hsplit

/-- **A version is read from what it is written as.** -/
theorem ofChars?_chars (h : v.Valid) : ofChars? v.chars = some v := by
  obtain ⟨c, cs, hfirst, hdigit⟩ := h.exists_numberChars
  have hok : (isNumber v.major && isNumber v.minor && isNumber v.patch &&
      v.preRelease.all isPreReleaseIdentifier && v.build.all isBuildIdentifier && true) = true := by
    obtain ⟨hmajor, hminor, hpatch, hpre, hbuild⟩ := h
    rw [hmajor, hminor, hpatch, List.all_eq_true.2 hpre, List.all_eq_true.2 hbuild]
    rfl
  unfold ofChars?
  split
  rename_i marked body hmark
  -- The mark is read if it is written, for no number begins with it.
  obtain ⟨rfl, rfl⟩ : v.marked = marked ∧
      v.numberChars ++ (identifierChars '-' v.preRelease ++ identifierChars '+' v.build) = body := by
    rw [chars_eq] at hmark
    cases hm : v.marked with
    | true =>
      rw [hm] at hmark
      exact Prod.mk.inj hmark
    | false =>
      rw [hm, hfirst] at hmark
      rw [hfirst]
      simp only [Bool.false_eq_true, if_false, List.nil_append, List.cons_append] at hmark
      split at hmark
      · rename_i heq
        obtain ⟨rfl, -⟩ := List.cons.inj heq
        exact absurd hdigit (by decide)
      · exact Prod.mk.inj hmark
  simp only [h.span_numberChars, h.splitIdentifiers_preRelease, h.splitIdentifiers_build,
    h.splitOn_numberChars, decide_true]
  rw [if_pos hok]

/-- **Reading a version finds the valid one that is written so**, if there is one. -/
theorem ofChars?_eq_some_iff : ofChars? cs = some v ↔ v.Valid ∧ v.chars = cs := by
  constructor
  · exact parts_of_ofChars?
  · rintro ⟨h, rfl⟩
    exact ofChars?_chars h

/-- **A version is written in one way only.** -/
theorem Valid.eq_of_chars_eq (h : v.Valid) (h' : v'.Valid) (heq : v.chars = v'.chars) : v = v' := by
  have hread := ofChars?_chars h
  rw [heq, ofChars?_chars h'] at hread
  exact (Option.some.inj hread).symm

end Version

namespace Dependency

variable {owner repository version : List Char} {text : String}

/-- **A dependency is read from an owner, a repository and a version.** -/
theorem ofString?_of_parts (howner : isNamePart owner = true) (hrepository : isNamePart repository = true)
    (hos : '/' ∉ owner) (hrs : '/' ∉ repository) (hversion : (Version.ofChars? version).isSome = true)
    (htext : text.toList = owner ++ '/' :: (repository ++ '@' :: version)) :
    ofString? text =
      some ⟨String.ofList (owner ++ '/' :: repository), String.ofList version, text⟩ := by
  have hat : ∀ s, isNamePart s = true → ∀ c ∈ s, decide (c ≠ '@') = true := by
    intro s hs c hc
    unfold isNamePart at hs
    rw [Bool.and_eq_true, List.all_eq_true] at hs
    exact (Bool.and_eq_true_iff.1 (hs.2 c hc)).2
  have hname : ∀ c ∈ owner ++ '/' :: repository, decide (c ≠ '@') = true := by
    intro c hc
    rcases List.mem_append.1 hc with hc | hc
    · exact hat owner howner c hc
    · rcases List.mem_cons.1 hc with rfl | hc
      · decide
      · exact hat repository hrepository c hc
  have hspan : (owner ++ '/' :: repository ++ '@' :: version).span (fun c => decide (c ≠ '@')) =
      (owner ++ '/' :: repository, '@' :: version) := by
    refine span_append_of_head? hname fun c hc => ?_
    obtain rfl := Option.some.inj hc
    decide
  have hsplit : (owner ++ '/' :: repository).splitOn '/' = [owner, repository] := by
    have hparts : (['/'].intercalate [owner, repository]).splitOn '/' = [owner, repository] :=
      List.splitOn_intercalate '/' (List.forall_mem_cons.2 ⟨hos, List.forall_mem_singleton.2 hrs⟩)
        (List.cons_ne_nil _ _)
    simpa using hparts
  have hisName : isName (owner ++ '/' :: repository) = true := by
    unfold isName
    rw [hsplit]
    exact Bool.and_eq_true_iff.2 ⟨howner, hrepository⟩
  have htext' : text.toList = (owner ++ '/' :: repository) ++ '@' :: version := by
    rw [htext, List.append_assoc, List.cons_append]
  unfold ofString?
  rw [htext', hspan]
  simp only [hisName, hversion, Bool.and_self, if_true]

end Dependency

end SolVendor
