import SolVendor.Proofs.FileSystem.Canonical
import SolVendor.Proofs.Project.Settling
/-!
# Project — the root that has been settled on

The root of a project is found as a canonical path, and a canonical path is
found again from everywhere. But a root that was given and has no canonical
path is taken as it was written, if there is a marker in it
(`of_findRoot`). An absolute one is as good as a canonical path. One that is
relative means something else in every working directory: the empty path,
whose marker is that of the working directory; a path that leads out of a
working directory that has been removed; and a path whose canonical path
would be too long (`isAbsolute_eq_false_iff`). Otherwise a configuration
that has settled stays as it is (`settle_for_good`).
-/

namespace SolVendor

open SolVendor.Path FileSystem

namespace Project

variable {h h' : Host} {given : Option Path} {root p : Path}

/-! ## Roots -/

theorem check_eq_ok_iff {dir : Path} : check h dir = .ok root ↔ root = dir ∧ isRoot h dir = true := by
  unfold check
  split
  · rename_i hroot
    simp [hroot, eq_comm]
  · rename_i hroot
    simp [hroot]

/-- **The root holds a marker.** It is the canonical path of what was given, or what was given if that has
none, or the working directory if nothing was given. -/
theorem of_findRoot (hroot : findRoot h given = .ok root) :
    isRoot h root = true ∧
      ((∃ p, given = some p ∧ h.files.canonical h.cwd p = .ok root) ∨
        (given = some root ∧ ∃ e, h.files.canonical h.cwd root = .error e) ∨
        (given = none ∧ h.currentDir = .ok root)) := by
  unfold findRoot at hroot
  split at hroot
  · rename_i p
    split at hroot
    · rename_i dir hcanonical
      obtain ⟨rfl, hmarked⟩ := check_eq_ok_iff.1 hroot
      exact ⟨hmarked, .inl ⟨p, rfl, hcanonical⟩⟩
    · rename_i e hcanonical
      obtain ⟨rfl, hmarked⟩ := check_eq_ok_iff.1 hroot
      exact ⟨hmarked, .inr (.inl ⟨rfl, e, hcanonical⟩)⟩
  · split at hroot
    · rename_i dir hdir
      obtain ⟨rfl, hmarked⟩ := check_eq_ok_iff.1 hroot
      exact ⟨hmarked, .inr (.inr ⟨rfl, hdir⟩)⟩
    · cases hroot

/-- An absolute directory holds a project wherever one asks. -/
theorem isRoot_of_isAbsolute (hp : p.isAbsolute = true) (hfiles : h'.files = h.files) :
    isRoot h' p = isRoot h p := by
  have hjoin : (p.join ⟨marker⟩).isAbsolute = true := by rw [isAbsolute_join (by decide), hp]
  unfold isRoot Host.isFile
  rw [hfiles]
  exact isFile_of_isAbsolute hjoin h.files h'.cwd h.cwd

/-- **What holds a project is found**, and has a canonical path or one that is too long. -/
theorem canonical_of_isRoot (hmarked : isRoot h p = true) (hne : p ≠ .empty)
    (hp : p.isAbsolute = true ∨ h.cwd.lost = 0) :
    (∃ q, h.files.canonical h.cwd p = .ok q) ∨ h.files.canonical h.cwd p = .error .nameTooLong := by
  obtain ⟨pos, bytes, hlocate, -⟩ := isFile_iff.1 hmarked
  obtain ⟨hcheck, hleads⟩ := locate_eq_ok_iff.1 hlocate
  -- The way to the marker goes through a directory, and its text begins with that of the directory.
  have hpieces : (p.join ⟨marker⟩).pieces = p.pieces ++ [.name marker] := pieces_join (by decide)
  have hdir := leads_pieces_of_steps hleads
  rw [hpieces] at hdir
  obtain ⟨dir, l, hdir, hmarker⟩ := hdir.exists_of_append
  have hstands := hmarker.standing_of_ne_nil (List.cons_ne_nil _ _) (by decide)
  have htext : p.os.bytes <+: (p.join ⟨marker⟩).os.bytes := by
    rw [bytes_join (by decide)]
    split <;> exact List.prefix_append _ _
  have hchecked := checkPath_of_prefix hcheck htext hne
  obtain ⟨_, hchecked, -⟩ := exists_of_bind_eq_ok hchecked
  rcases canonical_cases hchecked hp (leads_steps_of_pieces hdir (.inr hstands)) with heq | heq
  · exact .inl ⟨_, heq⟩
  · exact .inr heq

section

variable (hfs : h.files.WellFormed) (hcwd : h.files.get? h.cwd.place = some .dir)
  (hroot : findRoot h given = .ok root)

include hfs hcwd hroot

/-- A root that has been found is its own canonical path, if it has one. -/
theorem canonical_root (hsame : root.isAbsolute = true ∨ h'.cwd = h.cwd) {q : Path}
    (hq : h.files.canonical h'.cwd root = .ok q) : q = root := by
  obtain ⟨-, ⟨p, -, hcanonical⟩ | ⟨-, e, hcanonical⟩ | ⟨-, hcurrent⟩⟩ := of_findRoot hroot
  · exact hfs.canonical_canonical hcwd hcanonical hq
  · have hsame : h.files.canonical h'.cwd root = h.files.canonical h.cwd root := by
      rcases hsame with habs | hsame
      · exact canonical_of_isAbsolute habs h.files h'.cwd h.cwd
      · rw [hsame]
    rw [hsame, hcanonical] at hq
    cases hq
  · unfold Host.currentDir at hcurrent
    split at hcurrent
    · obtain rfl := Except.ok.inj hcurrent
      exact hfs.canonical_toPath hcwd (by simp) hq
    · cases hcurrent

/-- **A root that has been found is found again**, from everywhere if it is absolute. -/
theorem findRoot_again (hfiles : h'.files = h.files)
    (hsame : root.isAbsolute = true ∨ h'.cwd = h.cwd) : findRoot h' (some root) = .ok root := by
  have hmarked : isRoot h' root = true := by
    rw [← (of_findRoot hroot).1]
    rcases hsame with habs | hsame
    · exact isRoot_of_isAbsolute habs hfiles
    · unfold isRoot Host.isFile
      rw [hfiles, hsame]
  have hchecked : check h' root = .ok root := check_eq_ok_iff.2 ⟨rfl, hmarked⟩
  simp only [findRoot, hfiles]
  split
  · rename_i dir hcanonical
    obtain rfl := canonical_root hfs hcwd hroot hsame hcanonical
    exact hchecked
  · exact hchecked

/-- **A root is absolute, unless it was given as a relative path that has no canonical one.** -/
theorem isAbsolute_eq_false_iff :
    root.isAbsolute = false ↔ ∃ p, given = some p ∧ p.isAbsolute = false ∧
      (p = .empty ∨ 0 < h.cwd.lost ∨ h.files.canonical h.cwd p = .error .nameTooLong) := by
  obtain ⟨hmarked, ⟨p, rfl, hcanonical⟩ | ⟨rfl, e, hcanonical⟩ | ⟨rfl, hcurrent⟩⟩ := of_findRoot hroot
  · have habs := (hfs.of_canonical hcwd hcanonical).1
    refine iff_of_false (by simp [habs]) ?_
    obtain ⟨htext, hstands⟩ := ne_empty_of_canonical hcanonical
    rintro ⟨q, hq, hrel, hempty | hlost | hlong⟩ <;> obtain rfl := Option.some.inj hq
    · exact htext hempty
    · rw [hrel] at hstands
      rcases hstands with hstands | hstands
      · cases hstands
      · omega
    · rw [hlong] at hcanonical
      cases hcanonical
  · constructor
    · intro hrel
      refine ⟨root, rfl, hrel, ?_⟩
      by_cases hempty : root = .empty
      · exact .inl hempty
      · by_cases hlost : 0 < h.cwd.lost
        · exact .inr (.inl hlost)
        · rcases canonical_of_isRoot hmarked hempty (.inr (by omega)) with ⟨q, hq⟩ | hlong
          · rw [hq] at hcanonical
            cases hcanonical
          · exact .inr (.inr hlong)
    · rintro ⟨q, hq, hrel, -⟩
      obtain rfl := Option.some.inj hq
      exact hrel
  · unfold Host.currentDir at hcurrent
    split at hcurrent
    · obtain rfl := Except.ok.inj hcurrent
      refine iff_of_false ?_ (by simp)
      simp [isAbsolute_toPath (hfs.names hcwd)]
    · cases hcurrent

end

end Project

namespace Config

variable {c c' : Config} {h : Host}

theorem settle_eq_ok_iff :
    c.settle h = (.ok (), c') ↔
      ∃ dep root, Dependency.parse c.dependency = .ok dep ∧
        Project.findRoot h c.projectRoot = .ok root ∧
        c' = { c with projectRoot := some root, dep := some dep } := by
  unfold settle
  cases Dependency.parse c.dependency with
  | error e => simp
  | ok dep =>
    cases Project.findRoot h c.projectRoot with
    | error e => simp
    | ok root => simp [eq_comm]

/-- **A configuration that has settled stays as it is.** It has a root with a marker in it and the
dependency that its text is. To settle it again, with the same files, succeeds and changes nothing: from
everywhere if the root is absolute, and else from the same working directory. The root is relative just
if it was given as a relative path, and that path is empty, was taken from a working directory that has
been removed, or has a canonical path that is too long. -/
theorem settle_for_good (hfs : h.files.WellFormed) (hcwd : h.files.get? h.cwd.place = some .dir)
    (hs : c.settle h = (.ok (), c')) :
    ∃ root dep, c'.root = .ok root ∧ c'.spec = .ok dep ∧
      Dependency.parse c.dependency = .ok dep ∧
      h.isFile (root.join ⟨Project.marker⟩) = true ∧
      c' = { c with projectRoot := some root, dep := some dep } ∧
      (∀ h' : Host, h'.files = h.files → root.isAbsolute = true ∨ h'.cwd = h.cwd →
        c'.settle h' = (.ok (), c')) ∧
      (root.isAbsolute = false ↔ ∃ p, c.projectRoot = some p ∧ p.isAbsolute = false ∧
        (p = .empty ∨ 0 < h.cwd.lost ∨ h.files.canonical h.cwd p = .error .nameTooLong)) := by
  obtain ⟨dep, root, hdep, hroot, rfl⟩ := settle_eq_ok_iff.1 hs
  refine ⟨root, dep, rfl, rfl, hdep, (Project.of_findRoot hroot).1, rfl, fun h' hfiles hsame => ?_,
    Project.isAbsolute_eq_false_iff hfs hcwd hroot⟩
  exact settle_eq_ok_iff.2
    ⟨dep, root, hdep, Project.findRoot_again hfs hcwd hroot hfiles hsame, rfl⟩

/-- Settled in a project on the directory above one of its own, and again from that one. -/
theorem settle_for_good_from_below :
    let c : Config := { dependency := "a/b@1.0.0", projectRoot := some ⟨"p/.."⟩ }
    let c' := (c.settle retryHost).2
    c'.root = .ok ⟨"/w"⟩ ∧ c'.settle { retryHost with cwd := .ofPlace ["w", "p"] } = (.ok (), c') := by
  intro c c'
  have hfs : retryHost.files.WellFormed := wellFormed_of_below (by decide +kernel)
  have hs : c.settle retryHost = (.ok (), c') := by decide +kernel
  obtain ⟨root, dep, hroot, -, -, -, -, hagain, -⟩ := settle_for_good hfs (by decide +kernel) hs
  have hw : c'.root = .ok ⟨"/w"⟩ := by decide +kernel
  obtain rfl := Except.ok.inj (hroot.symm.trans hw)
  exact ⟨hw, hagain _ rfl (.inl (by decide))⟩

-- The empty path is the working directory, wherever that is.
example :
    let c : Config := { dependency := "a/b@1.0.0", projectRoot := some ⟨""⟩ }
    let c' := (c.settle retryHost).2
    (c.settle retryHost).1 = .ok () ∧ c'.root = .ok ⟨""⟩ ∧
      (c'.settle { retryHost with cwd := .ofPlace ["w", "p"] }).1 = .error (.notProjectRoot ⟨""⟩) := by
  decide +kernel

end Config

end SolVendor
