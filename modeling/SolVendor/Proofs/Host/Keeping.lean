import SolVendor.Action
import SolVendor.Proofs.FileSystem.Effects
/-!
# Host — what an action keeps

Making directories, planting an entry and copying a file keep the working
directory and all entries, but for the bytes of the file that is written
(`Keeps.makeDirs`, `Keeps.plant`, `Keeps.copy`). That is so however they
end, and whatever the paths lead to. So what a path has led to before, it
leads to afterwards.
-/

namespace SolVendor

open FileSystem

variable {h h' : Host} {p : Path} {e : Entry} {loc : Location} {α : Type}

/-- The working directory is the same, and all entries of the first host are in the second, but for
the bytes of files. -/
structure Host.Keeps (h h' : Host) : Prop where
  cwd : h'.cwd = h.cwd
  files : h'.files.Retains h.files

namespace Host.Keeps

theorem refl (h : Host) : h.Keeps h where
  cwd := rfl
  files := (Extends.refl h.files).retains

theorem trans {h'' : Host} (hk : h.Keeps h') (hk' : h'.Keeps h'') : h.Keeps h'' where
  cwd := hk'.cwd.trans hk.cwd
  files := hk'.files.trans hk.files

theorem cwd_dir (hk : h.Keeps h') (hcwd : h.files.get? h.cwd.place = some .dir) :
    h'.files.get? h'.cwd.place = some .dir := by
  rw [hk.cwd]
  exact hk.files.get?_dir hcwd

/-- Other files on the same host, which keep its working directory. -/
theorem withFiles {files : FileSystem} (hcwd : h.files.get? h.cwd.place = some .dir)
    (hfiles : files.Retains h.files) : h.Keeps (h.withFiles files) := by
  rw [Host.withFiles_eq (hfiles.get?_dir hcwd)]
  exact ⟨rfl, hfiles⟩

theorem makeDirs (h : Host) (p : Path) : h.Keeps (Action.run (Action.makeDirs p) h).2 := by
  rw [Action.run_makeDirs]
  exact ⟨rfl, (addsDirs_makeDirs h.files h.cwd p).extends_old.retains⟩

theorem makeParents (h : Host) (p : Path) : h.Keeps (Action.run (Action.makeParents p) h).2 := by
  unfold Action.makeParents
  split
  · exact makeDirs h _
  · exact refl h

/-- A change to files that keep what was there. -/
theorem change (hcwd : h.files.get? h.cwd.place = some .dir)
    {f : FileSystem → Position → Except FileError FileSystem}
    (hf : ∀ files, f h.files h.cwd = .ok files → files.Retains h.files) :
    h.Keeps (Action.run (Action.change f) h).2 := by
  rw [Action.run_change]
  split
  · rename_i files hok
    exact withFiles hcwd (hf files hok)
  · exact refl h

/-- What comes after another action keeps what that one has kept. -/
theorem bind {β : Type} {a : Action α} {f : α → Action β} (ha : h.Keeps (Action.run a h).2)
    (hf : ∀ x, h.Keeps (Action.run a h).2 →
      (Action.run a h).2.Keeps (Action.run (f x) (Action.run a h).2).2) :
    h.Keeps (Action.run (a >>= f) h).2 := by
  rw [Action.run_bind]
  rcases hrun : Action.run a h with ⟨_ | x, g⟩
  · rw [hrun] at ha
    exact ha
  · rw [hrun] at ha hf
    exact ha.trans (hf x ha)

/-- **Planting an entry takes the place of nothing but a file.** -/
theorem plant (hcwd : h.files.get? h.cwd.place = some .dir) (p : Path) (e : Entry) :
    h.Keeps (Action.run (Action.plant p e) h).2 := by
  cases e with
  | dir => exact makeDirs h p
  | file bytes =>
    exact bind (makeParents h p) fun _ hk => change (hk.cwd_dir hcwd) fun files hok =>
      retains_of_write hok
  | link target =>
    refine bind (makeParents h p) fun _ hk => change (hk.cwd_dir hcwd) fun files hok => ?_
    obtain ⟨loc, -, hnone, rfl⟩ := makeLink_spec hok
    exact (extends_put hnone).retains

/-- **So does copying a file.** -/
theorem copy (hcwd : h.files.get? h.cwd.place = some .dir) (src dst : Path) :
    h.Keeps (Action.run (Action.change fun fs cwd => fs.copy cwd src dst) h).2 :=
  change hcwd fun _ hok => retains_of_copy hok

end Host.Keeps

end SolVendor
