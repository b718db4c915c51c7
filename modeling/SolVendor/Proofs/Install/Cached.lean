import SolVendor.Install.Installation
import SolVendor.Proofs.Cache.Layout
import SolVendor.Proofs.FileSystem.WellFormed
/-!
# Install — a tree that is cached

The commands find the tree of their dependency in a directory that the
configuration tells (`cacheRoot`). If the tree is cached there, then opening
the storage changes no file (`run_openDefault_of_cached`), and asking for
the tree reads its graph and changes nothing (`run_resolve_of_cached`).
-/

namespace SolVendor

open FileSystem SolVendor.Path

namespace Installation

variable {h : Host} {fetcher : Fetcher} {c : Config} {d : Dependency}

/-- The directory of fetched trees that a configuration asks for. -/
def cacheRoot (c : Config) (h : Host) : Path :=
  c.cacheDir.getD (h.home.join ⟨Storage.defaultDirName⟩)

/-- Once settled, a configuration has the dependency that its text says and the root of the project,
and asks for the same as before. -/
structure IsSettledAs (c c' : Config) (d : Dependency) (root : Path) : Prop where
  spec : c'.spec = .ok d
  root : c'.root = .ok root
  dependency : c'.dependency = c.dependency
  cacheDir : c'.cacheDir = c.cacheDir
  libDir : c'.libDir = c.libDir
  dryRun : c'.dryRun = c.dryRun

theorem run_settled_cases (hd : Dependency.parse c.dependency = .ok d) :
    (∃ e, Action.run c.settled h = (.error e, h)) ∨
      ∃ root c', Project.findRoot h c.projectRoot = .ok root ∧ IsSettledAs c c' d root ∧
        Action.run c.settled h = (.ok c', h) := by
  unfold Config.settled Config.settle
  rw [hd, Action.run_bind, Action.run_observe]
  simp only
  cases hroot : Project.findRoot h c.projectRoot with
  | error e => exact .inl ⟨e, rfl⟩
  | ok root =>
    exact .inr ⟨root, { c with projectRoot := some root, dep := some d }, rfl,
      ⟨rfl, rfl, rfl, rfl, rfl, rfl⟩, rfl⟩

/-- The storage that a configuration asks for is opened in that directory. -/
theorem run_openDefault :
    Action.run (Storage.openDefault c.cacheDir) h = Action.run (Storage.openAt (cacheRoot c h)) h := by
  unfold Storage.openDefault cacheRoot
  rw [Action.run_bind, Action.run_observe]

/-- Opening the storage in whose directory a tree is cached changes no file. -/
theorem run_openDefault_of_cached (hcwd : h.files.get? h.cwd.place = some .dir)
    (ha : d.IsAccepted) (hc : h.isDir ((cacheRoot c h).join d.cacheKey) = true)
    {opened : Except Failure Storage} {g : Host}
    (hrun : Action.run (Storage.openDefault c.cacheDir) h = (opened, g)) :
    (∃ e, opened = .error e ∧ g = h) ∨
      opened = .ok ⟨cacheRoot c h, h.storages⟩ ∧ g = { h with storages := h.storages + 1 } := by
  obtain ⟨pos, hpos, hs⟩ := isDir_iff.1 hc
  have hl := leads_pieces_of_steps (locate_eq_ok_iff.1 hpos).2
  obtain ⟨mid, e, hmid, he⟩ := exists_standing_of_leads hcwd hl hs
    (show (cacheRoot c h).pieces <+: _ from ⟨_, (ha.pieces_join_cacheKey _).symm⟩)
  have hsame := makeDirs_eq_of_leads hcwd hmid he
  have hmake : Action.run (Action.makeDirs (cacheRoot c h)) h =
      ((h.files.makeDirs h.cwd (cacheRoot c h)).1.mapError .file, h) := by
    rw [Action.run_makeDirs, hsame]
  rw [run_openDefault] at hrun
  unfold Storage.openAt at hrun
  rcases Action.run_bind_cases hrun with ⟨e, hfirst, rfl⟩ | ⟨⟨⟩, g₁, hfirst, hrest⟩
  · rw [Action.run_during, hmake] at hfirst
    exact .inl ⟨e, rfl, (Prod.mk.inj hfirst).2.symm⟩
  · rw [Action.run_during, hmake] at hfirst
    obtain ⟨-, rfl⟩ := Prod.mk.inj hfirst
    have hrest : (Except.ok _, _) = (opened, g) := hrest
    obtain ⟨rfl, rfl⟩ := Prod.mk.inj hrest
    exact .inr ⟨rfl, rfl⟩

/-- Asking a storage for a tree that is cached changes nothing. -/
theorem run_resolve_of_cached {s : Storage} (hd : Dependency.parse c.dependency = .ok d)
    (hc : s.isCached d h = true) :
    Action.run (s.resolve fetcher c) h =
      ((Tree.graph h.files h.cwd (s.treePath d)).map fun g => ⟨s.treePath d, g⟩, h) := by
  have hget : Action.run (s.getDependency fetcher c.dependency) h = (.ok (d, s.treePath d), h) := by
    unfold Storage.getDependency
    rw [hd, Action.run_bind, Action.run_ofExcept]
    simp only
    rw [Action.run_bind, Action.run_observe]
    simp only [hc, if_true]
    rfl
  unfold Storage.resolve
  rw [Action.run_bind, hget]
  simp only
  rw [Action.run_bind, Action.run_observe]
  simp only
  rw [Action.run_bind, Action.run_ofExcept]
  cases Tree.graph h.files h.cwd (s.treePath d) <;> rfl

/-! ## A cached tree and a project beside it -/

/-- A cached tree with one file below `/cache`, and a project at `/p`. -/
def sampleFiles : FileSystem :=
  (empty.plant ["cache", "a", "b@1.0.0", "src", "A.sol"] (.file [7])).plant ["p", "Makefile"]
    (.file [])

/-- The commands run in the project. -/
def sampleHost : Host := .ofFiles sampleFiles ["p"] ⟨"/"⟩

def sampleConfig : Config :=
  { dependency := "a/b@1.0.0", cacheDir := some ⟨"/cache"⟩, select := ["A.sol"] }

theorem wellFormed_sampleFiles : sampleFiles.WellFormed :=
  (wellFormed_empty.plant (by decide) (by decide +kernel) (by decide +kernel)).plant (by decide)
    (by decide +kernel) (by decide +kernel)

end Installation

end SolVendor
