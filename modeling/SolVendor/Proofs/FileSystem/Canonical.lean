import SolVendor.Proofs.FileSystem.Passage
import SolVendor.Proofs.Path.Point
/-!
# FileSystem — canonical paths

The canonical path of what a path leads to is found by the same walk, and
the path of the place at its end is written down. That walk finds what the
walk to find it does, or stops at a place whose own path is too long
(`walk_name_cases`). So what a path leads to has a canonical path, unless
one is too long, the path is empty, or it is taken from a directory that
has been removed (`canonical_cases`).

A canonical path is its own, from wherever it is taken
(`canonical_canonical`): no link is on the way that it goes.
-/

namespace SolVendor

open SolVendor.Path

namespace FileSystem

variable {fs : FileSystem} {cwd cwd' pos : Position} {cs : List Component} {p q r : Path}
  {loc : Location} {e : Entry}

/-! ## Finding and naming -/

/-- What two continuations have in common, a step from a directory before them has. -/
theorem fromDir_cases {x y : Except FileError Place} {e : FileError} (h : x = y ∨ x = .error e) :
    fs.fromDir pos x = fs.fromDir pos y ∨ fs.fromDir pos x = .error e := by
  unfold fromDir
  split
  · exact .inl rfl
  · exact .inl rfl
  · exact .inl rfl
  · exact h

/-- **The walk for a canonical path is the walk to find what is there**, up to a place whose path is too
long. -/
theorem walk_name_cases (fs : FileSystem) (m : Nat) (pos : Position) (cs : List Component) :
    fs.walk .name m pos cs = fs.walk .find m pos cs ∨ fs.walk .name m pos cs = .error .nameTooLong := by
  -- Within the same number of links the steps get fewer; at a link the links do.
  induction m using Nat.strongRecOn generalizing pos cs with
  | _ m ihm =>
    induction cs generalizing pos with
    | nil => exact .inl (by rw [walk_nil, walk_nil])
    | cons c cs ihc =>
      cases c with
      | root =>
        rw [walk_root, walk_root]
        exact ihc _
      | here =>
        rw [walk_here_eq, walk_here_eq]
        exact fromDir_cases (ihc _)
      | up =>
        rw [walk_up_eq, walk_up_eq]
        exact fromDir_cases (ihc _)
      | name n =>
        rw [walk_name_eq, walk_name_eq]
        refine fromDir_cases ?_
        split
        · exact .inl rfl
        · by_cases hlong : (isTooLong n || Purpose.name.isBeyond (pos.place ++ [n])) = true
          · exact .inr (if_pos hlong)
          · have hshort : ¬ (isTooLong n || Purpose.find.isBeyond (pos.place ++ [n])) = true := by
              rw [Bool.or_eq_true, not_or] at hlong ⊢
              exact ⟨hlong.1, by simp [Purpose.isBeyond]⟩
            rw [if_neg hlong, if_neg hshort]
            split
            · exact .inl rfl
            · cases m with
              | zero => exact .inl rfl
              | succ m => exact ihm m (Nat.lt_succ_self m) _ _
            · exact ihc _

/-! ## The path of a place -/

section

variable (hloc : ∀ n ∈ loc, IsFileName n)

include hloc

theorem pieces_toPath : loc.toPath.pieces = .root :: loc.map .name :=
  pieces_ofComponents_root (isWritten_of_mem_map_name hloc)

theorem isAbsolute_toPath : loc.toPath.isAbsolute = true := by
  have hcomponents : loc.toPath.components = .root :: loc.map .name :=
    components_ofComponents (.inr ⟨_, rfl, isWritten_of_mem_map_name hloc⟩) (List.cons_ne_nil _ _)
      (by simp)
  exact isAbsolute_iff_head?.1 (by rw [hcomponents]; rfl)

end

/-- **The path of a place leads there**, if it leads anywhere and no link is at the place. -/
theorem WellFormed.eq_of_leads_toPath (hfs : fs.WellFormed) (he : fs.get? loc = some e)
    (hlink : ∀ target, e ≠ .link target) (hl : fs.Leads cwd loc.toPath.pieces pos) :
    pos = .ofPlace loc := by
  obtain ⟨k, -, hw⟩ := hl
  rw [pieces_toPath (hfs.names he)] at hw
  cases hw with
  | root hw =>
    have hunlinked : fs.IsUnlinked (.ofPlace []) (loc.map .name) := by
      intro ds stop target hds hstop
      obtain ⟨above, hloc, rfl⟩ := List.prefix_map_iff.1 hds
      rw [Position.along?_names] at hstop
      obtain rfl := Option.some.inj hstop
      obtain ⟨rest, rfl⟩ := hloc
      intro hat
      have hat : fs.get? above = some (.link target) := hat
      by_cases hrest : rest = []
      · rw [hrest, List.append_nil, hat] at he
        exact hlink target (Option.some.inj he).symm
      · rw [hfs.get?_above hrest he] at hat
        cases hat
    have halong := hw.along? hunlinked
    rw [Position.along?_names] at halong
    exact (Option.some.inj halong).symm

/-! ## Canonical paths -/

/-- **What has a canonical path is found**, and the path is that of its place. -/
theorem exists_leads_of_canonical (h : fs.canonical cwd p = .ok q) :
    ∃ pos, fs.Leads cwd p.steps pos ∧ q = pos.place.toPath := by
  unfold canonical at h
  obtain ⟨-, -, h⟩ := exists_of_bind_eq_ok h
  split at h
  · cases h
  obtain ⟨place, hplace, h⟩ := exists_of_bind_eq_ok h
  cases place with
  | vacant dir n => cases h
  | found pos =>
    refine ⟨pos, ?_, (Except.ok.inj h).symm⟩
    have hname : fs.walk .name maxLinks cwd p.steps = .ok (.found pos) := hplace
    rcases fs.walk_name_cases maxLinks cwd p.steps with heq | heq
    · rw [heq] at hname
      exact walk_find_eq_ok_iff.1 hname
    · rw [heq] at hname
      cases hname

/-- The empty path has no canonical path, and a relative one has none in a directory that has been
removed. -/
theorem ne_empty_of_canonical (h : fs.canonical cwd p = .ok q) :
    p ≠ .empty ∧ (p.isAbsolute = true ∨ cwd.lost = 0) := by
  unfold canonical at h
  obtain ⟨u, hchecked, h⟩ := exists_of_bind_eq_ok h
  constructor
  · intro hempty
    unfold checkText at hchecked
    rw [hempty] at hchecked
    cases hchecked
  · split at h
    · cases h
    · rename_i hlost
      simp only [Bool.and_eq_true, Bool.not_eq_true', decide_eq_true_eq, not_and, Nat.not_lt] at hlost
      cases habs : p.isAbsolute with
      | true => exact .inl rfl
      | false => exact .inr (Nat.le_zero.1 (hlost habs))

/-- **What is found has a canonical path**, or one that is too long. -/
theorem canonical_cases (hc : checkText p = .ok ()) (hp : p.isAbsolute = true ∨ cwd.lost = 0)
    (hl : fs.Leads cwd p.steps pos) :
    fs.canonical cwd p = .ok pos.place.toPath ∨ fs.canonical cwd p = .error .nameTooLong := by
  have hlost : (!p.isAbsolute && decide (0 < cwd.lost)) = false := by
    rcases hp with hp | hp
    · simp [hp]
    · simp [hp]
  have hfind : fs.walk .find maxLinks cwd p.steps = .ok (.found pos) := walk_find_eq_ok_iff.2 hl
  have hresolve : fs.resolve .name cwd p = fs.walk .name maxLinks cwd p.steps := rfl
  unfold canonical
  rw [hc, hresolve]
  rcases fs.walk_name_cases maxLinks cwd p.steps with heq | heq
  · rw [heq, hfind]
    left
    simp [hlost, bind, Except.bind, pure, Except.pure]
  · rw [heq]
    right
    simp [hlost, bind, Except.bind]

/-- A canonical path is absolute, and leads to what it is the path of. -/
theorem WellFormed.of_canonical (hfs : fs.WellFormed) (hcwd : fs.get? cwd.place = some .dir)
    (h : fs.canonical cwd p = .ok q) :
    q.isAbsolute = true ∧
      ∃ loc e, q = Location.toPath loc ∧ fs.get? loc = some e ∧ ∀ target, e ≠ .link target := by
  obtain ⟨pos, ⟨k, -, hw⟩, rfl⟩ := exists_leads_of_canonical h
  obtain ⟨e, he, hlink⟩ := hfs.exists_get?_of_walks hw hcwd (by simp) (.inr rfl)
  exact ⟨isAbsolute_toPath (hfs.names he), pos.place, e, rfl, he, hlink⟩

/-- The path of a place that is no link is canonical. -/
theorem WellFormed.canonical_toPath (hfs : fs.WellFormed) (he : fs.get? loc = some e)
    (hlink : ∀ target, e ≠ .link target) (h : fs.canonical cwd loc.toPath = .ok q) : q = loc.toPath := by
  obtain ⟨pos, hl, rfl⟩ := exists_leads_of_canonical h
  rw [hfs.eq_of_leads_toPath he hlink (leads_pieces_of_steps hl)]
  rfl

/-- **A canonical path is its own**, from wherever it is taken. -/
theorem WellFormed.canonical_canonical (hfs : fs.WellFormed) (hcwd : fs.get? cwd.place = some .dir)
    (h : fs.canonical cwd p = .ok q) (h' : fs.canonical cwd' q = .ok r) : r = q := by
  obtain ⟨-, loc, e, rfl, he, hlink⟩ := hfs.of_canonical hcwd h
  exact hfs.canonical_toPath he hlink h'

/-! ## Absolute paths -/

section

variable (hp : p.isAbsolute = true) (fs : FileSystem) (cwd cwd' : Position)

include hp

/-- **An absolute path is walked in the same way from everywhere.** -/
theorem walk_steps_of_isAbsolute (purpose : Purpose) (m : Nat) :
    fs.walk purpose m cwd p.steps = fs.walk purpose m cwd' p.steps := by
  have hsteps : ∃ cs, p.steps = .root :: cs := by
    unfold Path.steps
    rw [pieces_of_isAbsolute hp]
    split
    · exact ⟨_, rfl⟩
    · exact ⟨_, rfl⟩
  obtain ⟨cs, hcs⟩ := hsteps
  rw [hcs, walk_root, walk_root]

theorem canonical_of_isAbsolute : fs.canonical cwd p = fs.canonical cwd' p := by
  have hresolve : fs.resolve .name cwd p = fs.resolve .name cwd' p :=
    walk_steps_of_isAbsolute hp fs cwd cwd' .name maxLinks
  unfold canonical
  rw [hresolve, hp]
  rfl

theorem isFile_of_isAbsolute : fs.isFile cwd p = fs.isFile cwd' p := by
  have hresolve : fs.resolve .find cwd p = fs.resolve .find cwd' p :=
    walk_steps_of_isAbsolute hp fs cwd cwd' .find maxLinks
  unfold isFile entryAt locate
  rw [hresolve]

end

end FileSystem

end SolVendor
