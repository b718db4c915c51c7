import SolVendor.Dependency.Basic
import SolVendor.Failure
import SolVendor.Proofs.Dependency.Version
import SolVendor.Proofs.Path.NormalForm
/-!
# Dependency — the two parts of a key

The key of a dependency is its owner, a slash, and the name of its tree,
which is the repository with the version. The name of the tree is always a
name that a file can have. The owner is one unless it consists of one or
two dots, which the grammar of dependencies lets through
(`isFileName_owner_iff`). Owner and tree name determine the dependency
(`eq_of_owner_of_treeName`), and only the tree name holds an `@`.
-/

namespace SolVendor

/-- The byte that stands before a version. -/
abbrev atSign : UInt8 := 0x40

namespace Dependency

/-- The owner of the repository, as written. -/
def ownerText (d : Dependency) : String :=
  String.ofList (d.name.toList.takeWhile (· ≠ '/'))

/-- The repository, without its owner. -/
def repository (d : Dependency) : String :=
  String.ofList ((d.name.toList.dropWhile (· ≠ '/')).drop 1)

/-- The repository and the version, as written. -/
def treeText (d : Dependency) : String :=
  d.repository ++ "@" ++ d.version

/-- The name that the owner is to a file system. -/
def owner (d : Dependency) : OsString :=
  d.ownerText

/-- What a tree of the dependency is called: the repository and the version. -/
def treeName (d : Dependency) : OsString :=
  d.treeText

/-- What a tree is called before it is complete. -/
def stagingName (d : Dependency) : OsString :=
  ("." ++ d.treeText ++ ".partial" : String)

/-- The dependency is what its text reads as. -/
def IsAccepted (d : Dependency) : Prop :=
  ofString? d.path = some d

/-- A text up to the first slash. -/
theorem takeWhile_slash {xs ys : List Char} (h : '/' ∉ xs) :
    (xs ++ '/' :: ys).takeWhile (· ≠ '/') = xs := by
  rw [List.takeWhile_append_of_pos]
  · simp
  · intro c hc
    simpa using fun heq : c = '/' => h (heq ▸ hc)

theorem dropWhile_slash {xs ys : List Char} (h : '/' ∉ xs) :
    (xs ++ '/' :: ys).dropWhile (· ≠ '/') = '/' :: ys := by
  rw [List.dropWhile_append_of_pos]
  · simp
  · intro c hc
    simpa using fun heq : c = '/' => h (heq ▸ hc)

/-- A version has no slash. -/
theorem slash_notMem_version {cs : List Char} (h : (Version.ofChars? cs).isSome = true) :
    '/' ∉ cs := by
  obtain ⟨v, hv⟩ := Option.isSome_iff_exists.1 h
  intro hmem
  rw [← Version.chars_of_ofChars? hv] at hmem
  have hslash := Version.isVersionChar_of_mem_chars (Version.valid_of_ofChars? hv) '/' hmem
  revert hslash
  decide

/-- **The parts of a text that has been read.** -/
theorem parts_of_ofString? {text : String} {d : Dependency} (h : ofString? text = some d) :
    d.path = text ∧ ∃ owner repository version : List Char,
      d.name.toList = owner ++ '/' :: repository ∧ d.version.toList = version ∧
      text.toList = owner ++ '/' :: (repository ++ '@' :: version) ∧
      isNamePart owner = true ∧ isNamePart repository = true ∧
      '/' ∉ owner ∧ '/' ∉ repository ∧ (Version.ofChars? version).isSome = true := by
  unfold ofString? at h
  rw [List.span_eq_takeWhile_dropWhile] at h
  split at h
  · rename_i name c version heq
    obtain ⟨hname, hrest⟩ := Prod.mk.inj heq
    split at h
    · rename_i hok
      obtain rfl := Option.some.inj h
      rw [Bool.and_eq_true] at hok
      obtain ⟨hn, hv⟩ := hok
      have hc : c = '@' := by
        have hhead := List.head?_dropWhile_not (fun x : Char => decide (x ≠ '@')) text.toList
        rw [hrest] at hhead
        simpa using hhead
      unfold isName at hn
      split at hn
      · rename_i owner repository hsplit
        rw [Bool.and_eq_true] at hn
        have hjoin : ['/'].intercalate [owner, repository] = name := by
          rw [← hsplit, List.intercalate_splitOn]
        have hparts : name = owner ++ '/' :: repository := by
          rw [← hjoin]
          simp
        have ho : '/' ∉ owner :=
          Path.notMem_of_mem_splitOn (show owner ∈ name.splitOn '/' by rw [hsplit]; simp)
        have hr : '/' ∉ repository :=
          Path.notMem_of_mem_splitOn (show repository ∈ name.splitOn '/' by rw [hsplit]; simp)
        refine ⟨rfl, owner, repository, version, ?_, String.toList_ofList, ?_, hn.1, hn.2, ho, hr, hv⟩
        · rw [String.toList_ofList, hparts]
        · rw [← List.takeWhile_append_dropWhile (p := fun x : Char => decide (x ≠ '@'))
            (l := text.toList), hname, hrest, hc, hparts]
          simp
      · cases hn
    · cases h
  · cases h

theorem isAccepted_of_ofString? {text : String} {d : Dependency} (h : ofString? text = some d) :
    d.IsAccepted := by
  unfold IsAccepted
  rw [(parts_of_ofString? h).1, h]

/-- What has been parsed is accepted. -/
theorem isAccepted_of_parse {text : String} {d : Dependency} (h : parse text = .ok d) :
    d.IsAccepted ∧ d.path = text := by
  unfold parse at h
  split at h
  · rename_i dep hdep
    obtain rfl := Except.ok.inj h
    exact ⟨isAccepted_of_ofString? hdep, (parts_of_ofString? hdep).1⟩
  · cases h

variable {d : Dependency}

/-- **The parts of an accepted dependency.** -/
theorem IsAccepted.parts (h : d.IsAccepted) :
    d.path.toList = d.ownerText.toList ++ '/' :: d.treeText.toList ∧
      d.treeText.toList = d.repository.toList ++ '@' :: d.version.toList ∧
      isNamePart d.ownerText.toList = true ∧ isNamePart d.repository.toList = true ∧
      '/' ∉ d.ownerText.toList ∧ '/' ∉ d.treeText.toList := by
  obtain ⟨-, owner, repository, version, hname, hversion, htext, ho, hr, hos, hrs, hv⟩ :=
    parts_of_ofString? h
  have hat : ("@" : String).toList = ['@'] := rfl
  have howner : d.ownerText.toList = owner := by
    unfold ownerText
    rw [String.toList_ofList, hname, takeWhile_slash hos]
  have hrepo : d.repository.toList = repository := by
    unfold Dependency.repository
    rw [String.toList_ofList, hname, dropWhile_slash hos]
    rfl
  have htree : d.treeText.toList = repository ++ '@' :: version := by
    unfold treeText
    rw [String.toList_append, String.toList_append, hrepo, hversion, hat]
    simp
  have hvs := slash_notMem_version hv
  refine ⟨?_, ?_, by rw [howner]; exact ho, by rw [hrepo]; exact hr, by rw [howner]; exact hos, ?_⟩
  · rw [htext, howner, htree]
  · rw [htree, hrepo, hversion]
  · rw [htree]
    simp [hrs, hvs]

/-- The owner is not empty. -/
theorem IsAccepted.ownerText_ne (h : d.IsAccepted) : d.ownerText ≠ "" := by
  obtain ⟨-, -, ho, -, -, -⟩ := h.parts
  intro heq
  rw [heq] at ho
  exact absurd ho (by decide)

theorem IsAccepted.at_notMem_owner (h : d.IsAccepted) : atSign ∉ d.owner.bytes := by
  obtain ⟨-, -, ho, -, -, -⟩ := h.parts
  unfold isNamePart at ho
  rw [Bool.and_eq_true, List.all_eq_true] at ho
  intro hmem
  have hat := ho.2 '@' (OsString.at_mem_bytes_ofString.1 hmem)
  simp at hat

theorem IsAccepted.at_mem_treeText (h : d.IsAccepted) : '@' ∈ d.treeText.toList := by
  obtain ⟨-, htree, -, -, -, -⟩ := h.parts
  rw [htree]
  simp

theorem IsAccepted.at_mem_treeName (h : d.IsAccepted) : atSign ∈ d.treeName.bytes :=
  OsString.at_mem_bytes_ofString.2 h.at_mem_treeText

/-- **The owner can be the name of a file unless it is one or two dots.** -/
theorem IsAccepted.isFileName_owner_iff (h : d.IsAccepted) :
    IsFileName d.owner ↔ d.owner ≠ "." ∧ d.owner ≠ ".." := by
  obtain ⟨-, -, -, -, hs, -⟩ := h.parts
  have hne : d.owner ≠ "" := fun heq => h.ownerText_ne (OsString.ofString_inj.1 heq)
  have hslash : Path.slash ∉ d.owner.bytes := fun hmem => hs (OsString.slash_mem_bytes_ofString.1 hmem)
  exact ⟨fun hf => hf.2.2, fun hd => ⟨hne, hslash, hd⟩⟩

/-- An owner that is more than dots is read as a name. -/
theorem IsAccepted.ofPiece_owner (h : d.IsAccepted) (hdot : d.owner ≠ ".") (hdots : d.owner ≠ "..") :
    Component.ofPiece d.owner.bytes = .name d.owner :=
  (Component.isWritten_name.2 (h.isFileName_owner_iff.2 ⟨hdot, hdots⟩)).2.2

/-- **The tree name can always be the name of a file**, since it holds an `@`. -/
theorem IsAccepted.isFileName_treeName (h : d.IsAccepted) : IsFileName d.treeName := by
  obtain ⟨-, -, -, -, -, hs⟩ := h.parts
  have hat := h.at_mem_treeText
  refine isFileName_ofString.2 ⟨?_, hs, ?_, ?_⟩
  · rintro heq
    rw [heq] at hat
    exact absurd hat (by decide)
  · rintro heq
    rw [heq] at hat
    exact absurd hat (by decide)
  · rintro heq
    rw [heq] at hat
    exact absurd hat (by decide)

/-- The bytes of the staging name are a dot, those of the tree name and an ending. -/
theorem bytes_stagingName (d : Dependency) :
    d.stagingName.bytes = Path.dot :: (d.treeName.bytes ++ (".partial" : OsString).bytes) := by
  have hdot : (".": OsString).bytes = [Path.dot] := rfl
  unfold stagingName treeName
  rw [OsString.bytes_ofString_append, OsString.bytes_ofString_append, hdot, List.append_assoc,
    List.singleton_append]

theorem IsAccepted.isFileName_stagingName (h : d.IsAccepted) : IsFileName d.stagingName := by
  obtain ⟨-, hs, -⟩ := isFileName_iff.1 h.isFileName_treeName
  have hpartial : (".partial" : OsString).bytes = [0x2E, 0x70, 0x61, 0x72, 0x74, 0x69, 0x61, 0x6C] := rfl
  have hlen : 2 < d.stagingName.bytes.length := by
    rw [bytes_stagingName, hpartial]
    simp
  refine isFileName_iff.2 ⟨?_, ?_, ?_, ?_⟩
  · intro heq
    rw [heq] at hlen
    exact absurd hlen (by decide)
  · rw [bytes_stagingName, List.mem_cons, List.mem_append, not_or, not_or]
    exact ⟨by decide, hs, by decide⟩
  · intro heq
    rw [heq] at hlen
    exact absurd hlen (by decide)
  · intro heq
    rw [heq] at hlen
    exact absurd hlen (by decide)

/-- **Owner and tree name determine the dependency.** -/
theorem IsAccepted.eq_of_owner_of_treeName {d' : Dependency} (h : d.IsAccepted) (h' : d'.IsAccepted)
    (ho : d.owner = d'.owner) (ht : d.treeName = d'.treeName) : d = d' := by
  have howner : d.ownerText = d'.ownerText := OsString.ofString_inj.1 ho
  have htree : d.treeText = d'.treeText := OsString.ofString_inj.1 ht
  have hpath : d.path = d'.path := by
    rw [← String.toList_inj, h.parts.1, h'.parts.1, howner, htree]
  unfold IsAccepted at h h'
  rw [hpath, h'] at h
  exact (Option.some.inj h).symm

/-! ## The key as a path -/

/-- The key is written as the owner, a slash, and the name of the tree. -/
theorem IsAccepted.bytes_cacheKey (h : d.IsAccepted) :
    d.cacheKey.os.bytes = d.owner.bytes ++ Path.slash :: d.treeName.bytes := by
  have hslash : String.utf8EncodeChar '/' = [Path.slash] := by decide
  unfold cacheKey owner treeName
  simp only [OsString.bytes_ofString]
  rw [h.parts.1, Text.Utf8.encode_append, Text.Utf8.encode_cons, hslash, List.singleton_append]

theorem IsAccepted.bytes_owner (h : d.IsAccepted) :
    d.owner.bytes ≠ [] ∧ Path.slash ∉ d.owner.bytes := by
  obtain ⟨-, -, -, -, hs, -⟩ := h.parts
  refine ⟨fun hnil => h.ownerText_ne ?_, fun hmem => hs (OsString.slash_mem_bytes_ofString.1 hmem)⟩
  exact OsString.ofString_inj.1 (OsString.ext_iff.2 hnil)

theorem IsAccepted.isAbsolute_cacheKey (h : d.IsAccepted) : d.cacheKey.isAbsolute = false := by
  obtain ⟨hne, hs⟩ := h.bytes_owner
  obtain ⟨b, bs, hb⟩ := List.exists_cons_of_ne_nil hne
  unfold Path.isAbsolute
  rw [h.bytes_cacheKey, hb, List.cons_append, List.head?_cons]
  rw [hb] at hs
  simpa using fun heq : b = Path.slash => hs (heq ▸ List.mem_cons_self)

theorem IsAccepted.cacheKey_ne (h : d.IsAccepted) : d.cacheKey ≠ .empty := by
  intro heq
  have hnil := Path.eq_empty_iff.1 heq
  rw [h.bytes_cacheKey] at hnil
  simp at hnil

theorem IsAccepted.endsInSlash_cacheKey (h : d.IsAccepted) : d.cacheKey.endsInSlash = false := by
  obtain ⟨hne, hs, -⟩ := isFileName_iff.1 h.isFileName_treeName
  have hlast : d.cacheKey.os.bytes.getLast? = d.treeName.bytes.getLast? := by
    obtain ⟨xs, x, hx⟩ : ∃ xs x, d.treeName.bytes = xs ++ [x] :=
      ⟨_, _, (List.dropLast_concat_getLast hne).symm⟩
    rw [h.bytes_cacheKey, hx, ← List.cons_append, ← List.append_assoc, List.getLast?_concat,
      List.getLast?_concat]
  unfold Path.endsInSlash
  rw [hlast, decide_eq_false_iff_not]
  exact fun hslash => hs (List.mem_of_getLast? hslash)

/-- **The key is read as owner and tree name.** -/
theorem IsAccepted.pieces_cacheKey (h : d.IsAccepted) :
    d.cacheKey.pieces = [.ofPiece d.owner.bytes, .name d.treeName] := by
  obtain ⟨hne, hs⟩ := h.bytes_owner
  have howner := Path.piecesOf_bytes (Component.isWritten_ofPiece hne hs)
  have htree := Path.piecesOf_bytes (Component.isWritten_name.2 h.isFileName_treeName)
  rw [Component.bytes_ofPiece] at howner
  rw [Path.pieces_eq, h.isAbsolute_cacheKey, h.bytes_cacheKey, Path.piecesOf_append_slash, howner,
    show d.treeName.bytes = (Component.name d.treeName).bytes from rfl, htree]
  rfl

end Dependency

end SolVendor
