import SolVendor.Proofs.Cache.Layout
import SolVendor.Proofs.Path.NormalForm
/-!
# Cache — what a dependency can name

The places that a dependency names are meant to be two names below the
directory of all trees: the owner, then the tree name. Whether they are is
read off the normal forms of the paths (`LiesAt`). It is so for every
dependency whose owner is more than one or two dots. An owner of one dot
is passed over, so the tree is in the directory itself. An owner of two
dots leads out of it: the tree is beside the directory of all trees
(`liesAt_join_cacheKey`).

Unless an owner is two dots, no tree contains the tree of another
dependency (`eq_of_isWithin`).
-/

namespace SolVendor

namespace Path

variable {p base : Path}

/-- In normal form the path is another one with some names after it. -/
def LiesAt (p base : Path) (names : List OsString) : Prop :=
  p.normalize.components = base.normalize.components ++ names.map .name

/-- In normal form the path begins with all of another one. -/
def IsWithin (p base : Path) : Prop :=
  base.normalize.components <+: p.normalize.components

/-- The pieces that lead somewhere. -/
def dropDots (cs : List Component) : List Component :=
  cs.filter (· ≠ .here)

theorem dropDots_append (cs ds : List Component) :
    dropDots (cs ++ ds) = dropDots cs ++ dropDots ds :=
  List.filter_append ..

/-- A path is absolute if it starts from the root, whatever dots are in it. -/
theorem isAbsolute_iff_dropDots : p.isAbsolute = true ↔ ∃ cs, dropDots p.pieces = .root :: cs := by
  rw [pieces_eq]
  constructor
  · intro h
    rw [h]
    exact ⟨_, rfl⟩
  · rintro ⟨cs, hcs⟩
    -- Below the root all pieces are written, and the root is not.
    by_contra hrel
    rw [if_neg hrel, List.nil_append] at hcs
    have hmem : Component.root ∈ piecesOf p.os.bytes := by
      have hroot : Component.root ∈ dropDots (piecesOf p.os.bytes) := by simp [hcs]
      exact (List.mem_filter.1 hroot).1
    exact Component.not_isWritten_root (isWritten_of_mem_piecesOf hmem)

theorem isAbsolute_of_dropDots {cs : List Component} (hb : base.isAbsolute = true)
    (h : dropDots p.pieces = dropDots (base.pieces ++ cs)) : p.isAbsolute = true := by
  obtain ⟨ds, hds⟩ := isAbsolute_iff_dropDots.1 hb
  refine isAbsolute_iff_dropDots.2 ⟨ds ++ dropDots cs, ?_⟩
  rw [h, dropDots_append, hds]
  rfl

/-- The components of an absolute path are its pieces without the dots. -/
theorem components_of_isAbsolute (h : p.isAbsolute = true) :
    p.components = dropDots p.pieces := by
  rw [components_eq_root_cons h, pieces_eq, h]
  rfl

/-- An absolute path leads somewhere, if only to the root. -/
theorem fold_components_ne_nil (h : p.isAbsolute = true) : fold p.components ≠ [] := by
  obtain ⟨ws, hws, hw, -⟩ := exists_components_eq_root_cons h
  obtain ⟨next, hnext, -⟩ := exists_foldl_move_root hw
    (show ∀ e ∈ ([] : List Component), e.IsWritten from fun e he => absurd he List.not_mem_nil)
  have hstart : (Component.root :: ws).foldl move [] = ws.foldl move ([] ++ [.root]) := rfl
  unfold fold
  rw [hws, hstart, hnext]
  simp

theorem components_normalize_of_isAbsolute (h : p.isAbsolute = true) :
    p.normalize.components = fold p.components := by
  rw [components_normalize, if_neg (fold_components_ne_nil h)]

/-- In a normal form all names are such as a file can have. -/
theorem isFileName_of_mem_normalize {n : OsString} (h : p.isAbsolute = true)
    (hn : .name n ∈ p.normalize.components) : IsFileName n := by
  rw [components_normalize_of_isAbsolute h] at hn
  rcases isRead_fold (isRead_components p) with hw | ⟨ws, hws, hw⟩
  · exact Component.isWritten_name.1 (hw _ hn)
  · rw [hws] at hn
    rcases List.mem_cons.1 hn with hroot | hn
    · cases hroot
    · exact Component.isWritten_name.1 (hw _ hn)

/-- **What a path of more pieces leads to is found from where the shorter one leads.** The dots among
the pieces lead nowhere. -/
theorem components_normalize_append {cs : List Component} (hb : base.isAbsolute = true)
    (h : dropDots p.pieces = dropDots (base.pieces ++ cs)) :
    p.normalize.components =
      ((dropDots cs).foldl move base.normalize.components.reverse).reverse := by
  have hp := isAbsolute_of_dropDots hb h
  have hcomponents : p.components = base.components ++ dropDots cs := by
    rw [components_of_isAbsolute hp, components_of_isAbsolute hb, h, dropDots_append]
  rw [components_normalize_of_isAbsolute hp, components_normalize_of_isAbsolute hb, hcomponents,
    fold_append]
  unfold fold
  rw [List.reverse_reverse]

/-- Names are added to a normal form as they are. -/
theorem liesAt_of_pieces {cs : List Component} {names : List OsString} (hb : base.isAbsolute = true)
    (h : dropDots p.pieces = dropDots (base.pieces ++ cs))
    (hcs : dropDots cs = names.map .name) : p.LiesAt base names := by
  unfold LiesAt
  rw [components_normalize_append hb h, hcs, foldl_move_names, List.reverse_append,
    List.reverse_reverse, List.reverse_reverse]

/-- Below the same directory a path is within another one if its names begin with those of the
other. -/
theorem LiesAt.isWithin_iff {q : Path} {names names' : List OsString} (hp : p.LiesAt base names)
    (hq : q.LiesAt base names') : q.IsWithin p ↔ names <+: names' := by
  unfold LiesAt at hp hq
  unfold IsWithin
  rw [hp, hq, List.prefix_append_right_inj]
  exact List.prefix_map_iff_of_injective fun s t h => Component.name.inj h

end Path

namespace Dependency

variable {d : Dependency} {p base : Path} {t : OsString}

/-- The path leads to the name `t` as the owner has it. It is two names below the base exactly if
the owner is more than dots; one dot is passed over, and two dots lead out of the base. -/
structure IsKeptAt (d : Dependency) (p base : Path) (t : OsString) : Prop where
  two_names : p.LiesAt base [d.owner, t] ↔ d.owner ≠ "." ∧ d.owner ≠ ".."
  one_dot : d.owner = "." → p.LiesAt base [t]
  two_dots : d.owner = ".." → p.LiesAt (base.join ⟨".."⟩) [t]

/-- **Where a path through the owner leads.** -/
theorem IsAccepted.isKeptAt (h : d.IsAccepted) (hb : base.isAbsolute = true)
    (hpieces : Path.dropDots p.pieces =
      Path.dropDots (base.pieces ++ [.ofPiece d.owner.bytes, .name t])) : d.IsKeptAt p base t := by
  have hp := Path.isAbsolute_of_dropDots hb hpieces
  refine ⟨⟨fun hl => ?_, fun hd => ?_⟩, fun hdot => ?_, fun hdots => ?_⟩
  · refine h.isFileName_owner_iff.1 (Path.isFileName_of_mem_normalize hp ?_)
    unfold Path.LiesAt at hl
    rw [hl]
    simp
  · refine Path.liesAt_of_pieces hb hpieces ?_
    rw [h.ofPiece_owner hd.1 hd.2]
    rfl
  · refine Path.liesAt_of_pieces hb hpieces ?_
    rw [hdot]
    rfl
  · have hrel : (⟨".."⟩ : Path).isAbsolute = false := by decide
    have habove : (base.join ⟨".."⟩).isAbsolute = true := by
      rw [Path.isAbsolute_join hrel, hb]
    have hsame : Path.dropDots p.pieces =
        Path.dropDots ((base.join ⟨".."⟩).pieces ++ [.name t]) := by
      rw [hpieces, Path.pieces_join hrel, hdots, List.append_assoc]
      rfl
    exact Path.liesAt_of_pieces habove hsame rfl

/-- **Only an owner of two dots leads out of the base.** -/
theorem IsKeptAt.isWithin (h : d.IsKeptAt p base t) (hdots : d.owner ≠ "..") :
    p.IsWithin base := by
  by_cases hdot : d.owner = "."
  · exact ⟨_, (h.one_dot hdot).symm⟩
  · exact ⟨_, (h.two_names.2 ⟨hdot, hdots⟩).symm⟩

/-- The names that lead to the tree, from the directory of all trees. -/
def treeNames (d : Dependency) : List OsString :=
  if d.owner = "." then [d.treeName] else [d.owner, d.treeName]

/-- An owner of one dot is no exception to what the tree is named from its base. -/
theorem IsAccepted.liesAt_treeNames (h : d.IsAccepted) (hdots : d.owner ≠ "..")
    (hb : base.isAbsolute = true) : (base.join d.cacheKey).LiesAt base d.treeNames := by
  obtain ⟨htwo, hone, -⟩ := h.isKeptAt hb (congrArg Path.dropDots (h.pieces_join_cacheKey base))
  unfold treeNames
  split
  · exact hone ‹_›
  · exact htwo.2 ⟨‹_›, hdots⟩

/-- **The names of one tree are not the beginning of those of another.** An owner holds no `@`, so
it is no tree name. -/
theorem IsAccepted.eq_of_treeNames_prefix {d' : Dependency} (h : d.IsAccepted) (h' : d'.IsAccepted)
    (hpre : d.treeNames <+: d'.treeNames) : d = d' := by
  have hat : ∀ {e f : Dependency}, e.IsAccepted → f.IsAccepted → e.treeName ≠ f.owner := by
    intro e f he hf heq
    exact hf.at_notMem_owner (heq ▸ he.at_mem_treeName)
  unfold treeNames at hpre
  split at hpre <;> split at hpre <;> rename_i ho ho'
  · obtain ⟨htree, -⟩ := List.cons_prefix_cons.1 hpre
    exact h.eq_of_owner_of_treeName h' (ho.trans ho'.symm) htree
  · obtain ⟨htree, -⟩ := List.cons_prefix_cons.1 hpre
    exact absurd htree (hat h h')
  · have hlen := hpre.length_le
    simp at hlen
  · obtain ⟨howner, hrest⟩ := List.cons_prefix_cons.1 hpre
    obtain ⟨htree, -⟩ := List.cons_prefix_cons.1 hrest
    exact h.eq_of_owner_of_treeName h' howner htree

/-- **No tree contains another one**, unless an owner is two dots. -/
theorem IsAccepted.eq_of_isWithin {d' : Dependency} (h : d.IsAccepted) (h' : d'.IsAccepted)
    (hdots : d.owner ≠ "..") (hdots' : d'.owner ≠ "..") (hb : base.isAbsolute = true)
    (hin : (base.join d'.cacheKey).IsWithin (base.join d.cacheKey)) : d = d' :=
  h.eq_of_treeNames_prefix h'
    (((h.liesAt_treeNames hdots hb).isWithin_iff (h'.liesAt_treeNames hdots' hb)).1 hin)

end Dependency

namespace Storage

variable {s : Storage} {d : Dependency}

theorem isKeptAt_treePath (h : d.IsAccepted) (hr : s.root.isAbsolute = true) :
    d.IsKeptAt (s.treePath d) s.root d.treeName :=
  h.isKeptAt hr (congrArg Path.dropDots (pieces_treePath h))

theorem isKeptAt_stagingPath (h : d.IsAccepted) (hr : s.root.isAbsolute = true) :
    d.IsKeptAt (s.stagingPath d) s.root d.stagingName := by
  obtain ⟨q, k, -, hq, hpieces, -⟩ := pieces_stagingPath (s := s) h
  refine h.isKeptAt hr ?_
  have hdots : Path.dropDots (List.replicate k .here) = [] := by simp [Path.dropDots]
  rw [List.append_cons, hq, hpieces, Path.dropDots_append, Path.dropDots_append,
    Path.dropDots_append, hdots, List.append_nil]

/-- **What an accepted text can name.** The tree, the staging tree and the copy in a project are two
names below their base exactly if the owner is more than one or two dots, and they are within their
base if it is not two dots. Then the trees of two texts do not contain each other, and neither do the
copies. -/
theorem confinement {text : String} (h : Dependency.parse text = .ok d)
    (hr : s.root.isAbsolute = true) {project lib : Path} (hp : project.isAbsolute = true)
    (hl : lib.isAbsolute = false) :
    text = d.ownerText ++ "/" ++ d.treeText ∧
      d.IsKeptAt (s.treePath d) s.root d.treeName ∧
      d.IsKeptAt (s.stagingPath d) s.root d.stagingName ∧
      d.IsKeptAt (Export.destination project lib d) (project.join lib) d.treeName ∧
      (d.owner ≠ ".." → (s.treePath d).IsWithin s.root ∧ (s.stagingPath d).IsWithin s.root ∧
        (Export.destination project lib d).IsWithin (project.join lib)) ∧
      ∀ {text' : String} {d' : Dependency}, Dependency.parse text' = .ok d' → text ≠ text' →
        d.owner ≠ ".." → d'.owner ≠ ".." →
        ¬ (s.treePath d').IsWithin (s.treePath d) ∧
          ¬ (Export.destination project lib d').IsWithin (Export.destination project lib d) := by
  obtain ⟨hd, htext⟩ := Dependency.isAccepted_of_parse h
  have hb : (project.join lib).isAbsolute = true := by
    rw [Path.isAbsolute_join hl, hp]
  have htree := isKeptAt_treePath hd hr
  have hstaging := isKeptAt_stagingPath hd hr
  have hcopy : d.IsKeptAt (Export.destination project lib d) (project.join lib) d.treeName :=
    hd.isKeptAt hb (congrArg Path.dropDots (hd.pieces_join_cacheKey _))
  refine ⟨?_, htree, hstaging, hcopy, fun hdots => ?_, ?_⟩
  · have hslash : ("/" : String).toList = ['/'] := rfl
    rw [← String.toList_inj, String.toList_append, String.toList_append, hslash, ← htext,
      hd.parts.1, List.append_assoc]
    rfl
  · exact ⟨htree.isWithin hdots, hstaging.isWithin hdots, hcopy.isWithin hdots⟩
  · intro text' d' h' hne hdots hdots'
    obtain ⟨hd', htext'⟩ := Dependency.isAccepted_of_parse h'
    have hdiff : d ≠ d' := fun heq => hne (by rw [← htext, heq, htext'])
    exact ⟨fun hin => hdiff (hd.eq_of_isWithin hd' hdots hdots' hr hin),
      fun hin => hdiff (hd.eq_of_isWithin hd' hdots hdots' hb hin)⟩

/-- An owner of two dots puts the tree beside the directory of all trees. Two other trees do not
contain each other. -/
theorem confinement_two_dots :
    (Storage.treePath ⟨⟨"/cache"⟩, 0⟩ ⟨"../x", "1.0.0", "../x@1.0.0"⟩).LiesAt ⟨"/cache/.."⟩
        ["x@1.0.0"] ∧
      ¬ (Storage.treePath ⟨⟨"/cache"⟩, 0⟩ ⟨"../x", "1.0.0", "../x@1.0.0"⟩).LiesAt ⟨"/cache"⟩
        ["..", "x@1.0.0"] ∧
      ¬ (Storage.treePath ⟨⟨"/cache"⟩, 0⟩ ⟨"a/c", "1.0.0", "a/c@1.0.0"⟩).IsWithin
        (Storage.treePath ⟨⟨"/cache"⟩, 0⟩ ⟨"a/b", "1.0.0", "a/b@1.0.0"⟩) := by
  have hx : Dependency.parse "../x@1.0.0" = .ok ⟨"../x", "1.0.0", "../x@1.0.0"⟩ := by decide
  have hb : Dependency.parse "a/b@1.0.0" = .ok ⟨"a/b", "1.0.0", "a/b@1.0.0"⟩ := by decide
  have hc : Dependency.parse "a/c@1.0.0" = .ok ⟨"a/c", "1.0.0", "a/c@1.0.0"⟩ := by decide
  have hroot : (⟨"/cache"⟩ : Path).isAbsolute = true := by decide
  have hproject : (⟨"/project"⟩ : Path).isAbsolute = true := by decide
  have hlib : (⟨"src/lib"⟩ : Path).isAbsolute = false := by decide
  obtain ⟨-, htree, -, -, -, -⟩ := confinement (s := ⟨⟨"/cache"⟩, 0⟩) hx hroot hproject hlib
  obtain ⟨-, -, -, -, -, hapart⟩ := confinement (s := ⟨⟨"/cache"⟩, 0⟩) hb hroot hproject hlib
  refine ⟨htree.two_dots (by decide), fun hl => ?_, ?_⟩
  · exact (htree.two_names.1 hl).2 (by decide)
  · exact (hapart hc (by decide) (by decide) (by decide)).1

end Storage

end SolVendor
