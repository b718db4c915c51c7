import SolVendor.Proofs.Cache.Delivery
import SolVendor.Proofs.Cache.Layout
/-!
# Cache — the site of a tree

The tree of a dependency and its staging tree are both in the directory of
the owner. As soon as the path of the owner leads to a directory, that one
houses them (`Storage.Houses`): there the path of the tree names the tree
name (`Houses.names_tree_iff`), and the staging path the staging name
(`Houses.names_staging_iff`). And only then do these paths name anything
(`exists_houses_of_names_tree`, `exists_houses_of_names_staging`).
-/

namespace SolVendor.Storage

open FileSystem

variable {s : Storage} {d : Dependency} {h g : Host} {dir dir' loc : Location}

/-- The path of the owner leads to a directory that stands. -/
structure Houses (s : Storage) (d : Dependency) (dir : Location) (h : Host) : Prop where
  leads : h.files.Leads h.cwd (s.root.pieces ++ [.ofPiece d.owner.bytes]) (.ofPlace dir)
  dir : h.files.get? dir = some .dir

theorem Houses.unique (hh : s.Houses d dir h) (hh' : s.Houses d dir' h) : dir = dir' :=
  congrArg Position.place (hh.leads.unique hh'.leads)

/-- The directory stays where it is when there are more entries. -/
theorem Houses.mono (hh : s.Houses d dir h) (hcwd : g.cwd = h.cwd)
    (hfiles : g.files.Retains h.files) : s.Houses d dir g where
  leads := by
    rw [hcwd]
    exact hh.leads.retained hfiles
  dir := hfiles.get?_dir hh.dir

/-- **The path of the tree names the tree name in the directory of the owner.** -/
theorem Houses.names_tree_iff (hh : s.Houses d dir h) (hd : d.IsAccepted) :
    h.files.Names h.cwd (s.treePath d) loc ↔
      loc = dir ++ [d.treeName] ∧ checkPath (s.treePath d) = .ok () ∧
        isTooLong d.treeName = false := by
  have hpieces : (s.treePath d).pieces =
      (s.root.pieces ++ [.ofPiece d.owner.bytes]) ++ [.name d.treeName] := by
    rw [pieces_treePath hd, List.append_assoc]
    rfl
  rw [names_iff, hpieces]
  constructor
  · rintro ⟨hc, ds, dir', n, hds, rfl, hl, -, hn⟩
    obtain ⟨rfl, hlast⟩ := List.append_inj' hds rfl
    cases hlast
    cases hh.leads.unique hl
    exact ⟨rfl, hc, hn⟩
  · rintro ⟨rfl, hc, hn⟩
    exact ⟨hc, _, dir, _, rfl, rfl, hh.leads, hh.dir, hn⟩

/-- The staging path is in the directory of the owner. The dots that the path of the owner may end in
lead nowhere else. -/
theorem Houses.exists_pieces_staging (hh : s.Houses d dir h) (hd : d.IsAccepted) :
    ∃ q : Path, (s.stagingPath d).pieces = q.pieces ++ [.name d.stagingName] ∧
      h.files.Leads h.cwd q.pieces (.ofPlace dir) := by
  obtain ⟨q, k, -, hq, hpieces, -⟩ := pieces_stagingPath (s := s) hd
  have howner := hh.leads
  rw [hq] at howner
  obtain ⟨mid, l, hmid, hw⟩ := howner.exists_of_append
  obtain rfl := hw.eq_of_dots
  exact ⟨q, hpieces, hmid⟩

/-- **The staging path names the staging name there.** -/
theorem Houses.names_staging_iff (hh : s.Houses d dir h) (hd : d.IsAccepted) :
    h.files.Names h.cwd (s.stagingPath d) loc ↔
      loc = dir ++ [d.stagingName] ∧ checkPath (s.stagingPath d) = .ok () ∧
        isTooLong d.stagingName = false := by
  obtain ⟨q, hpieces, hl⟩ := hh.exists_pieces_staging hd
  rw [names_iff, hpieces]
  constructor
  · rintro ⟨hc, ds, dir', n, hds, rfl, hl', -, hn⟩
    obtain ⟨rfl, hlast⟩ := List.append_inj' hds rfl
    cases hlast
    cases hl.unique hl'
    exact ⟨rfl, hc, hn⟩
  · rintro ⟨rfl, hc, hn⟩
    exact ⟨hc, q.pieces, dir, _, rfl, rfl, hl, hh.dir, hn⟩

/-- If the path of the tree names a place, a directory houses it. -/
theorem exists_houses_of_names_tree (hd : d.IsAccepted)
    (hname : h.files.Names h.cwd (s.treePath d) loc) : ∃ dir, s.Houses d dir h := by
  obtain ⟨-, ds, dir, n, hds, -, hl, hdir, -⟩ := names_iff.1 hname
  rw [pieces_treePath hd, List.append_cons] at hds
  obtain ⟨rfl, -⟩ := List.append_inj' hds rfl
  exact ⟨dir, hl, hdir⟩

/-- So it is for the staging path. -/
theorem exists_houses_of_names_staging (hd : d.IsAccepted)
    (hname : h.files.Names h.cwd (s.stagingPath d) loc) : ∃ dir, s.Houses d dir h := by
  obtain ⟨q, k, -, hq, hpieces, -⟩ := pieces_stagingPath (s := s) hd
  obtain ⟨-, ds, dir, n, hds, -, hl, hdir, -⟩ := names_iff.1 hname
  rw [hpieces] at hds
  obtain ⟨rfl, -⟩ := List.append_inj' hds rfl
  have howner := hl.append_dots (show h.files.standing (.ofPlace dir) = some .dir from hdir) k
  rw [← hq] at howner
  exact ⟨dir, howner, hdir⟩

/-- The staging path is one that a fetcher can be called for, if nothing stands there. -/
theorem Houses.isReady (hh : s.Houses d dir h) (hd : d.IsAccepted)
    (hcwd : h.files.get? h.cwd.place = some .dir)
    (hvacant : ∀ {loc}, h.files.Names h.cwd (s.stagingPath d) loc →
      ∀ rel, h.files.get? (loc ++ rel) = none) : h.IsReady (s.stagingPath d) := by
  obtain ⟨-, -, -, -, -, hslash⟩ := pieces_stagingPath (s := s) hd
  obtain ⟨q, hpieces, hl⟩ := hh.exists_pieces_staging hd
  exact ⟨hcwd, hslash, ⟨q.pieces, d.stagingName, dir, hpieces, hl, hh.dir⟩, hvacant⟩

/-- **Only a directory for the owner is new** when directories have been made on the way of its path, below
a root that is there. -/
theorem eq_of_get?_makeDirs_owner {q : Path} {k r : Location} {e : Entry}
    (hcwd : h.files.get? h.cwd.place = some .dir)
    (hroot : h.files.Leads h.cwd s.root.pieces (.ofPlace r)) (hr : h.files.get? r = some .dir)
    (hq : q.pieces <+: s.root.pieces ++ [.ofPiece d.owner.bytes])
    (he : (h.files.makeDirs h.cwd q).2.get? k = some e) (hnone : h.files.get? k = none) :
    e = .dir ∧ ∃ n, Component.ofPiece d.owner.bytes = .name n ∧ k = r ++ [n] := by
  have hadds := addsDirs_makeDirs h.files h.cwd q
  obtain ⟨rfl, q', hq', hname⟩ := hadds.added he hnone
  refine ⟨rfl, ?_⟩
  rcases List.prefix_concat_iff.1 ((Path.prefix_of_mem_ancestors hq').trans hq) with heq | hpre
  · obtain ⟨-, ds, dir, n, hds, rfl, hl, -, -⟩ := names_iff.1 hname
    rw [heq] at hds
    obtain ⟨rfl, hlast⟩ := List.append_inj' hds rfl
    cases (hroot.mono hadds.extends_old).unique hl
    exact ⟨n, (List.cons.inj hlast).1, rfl⟩
  · -- The root has led through there before.
    obtain ⟨e, hsome⟩ := hadds.exists_get?_of_leads hcwd hroot
      (show h.files.standing (.ofPlace r) = some .dir from hr) hname he hpre
    rw [hnone] at hsome
    cases hsome

end SolVendor.Storage
