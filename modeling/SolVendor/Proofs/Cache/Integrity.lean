import Mathlib.Data.List.Induction
import SolVendor.Proofs.Cache.Fetch
import SolVendor.Proofs.Cache.Plain
/-!
# Cache — integrity over whole runs

A run is any sequence of uses of storages on one root: a storage is opened,
or a dependency is fetched or asked for through one of them. Each call
brings a fetcher of its own, which may succeed, fail or crash.

Start with an empty directory of all trees, and let all fetchers be
confined. A tree that is cached is what a call of a fetcher for this very
dependency has written that ended well, and no use for another dependency
touches it (`isWritten_of_isCached`). That is so for a dependency as long as
no owner is two dots and no dependency of the run stages as this one:
otherwise what a crash has left in the staging tree of one dependency is
taken for the tree of the other, as soon as it stands.
-/

namespace SolVendor

open FileSystem

/-- One use of a storage on a root that all uses share. -/
inductive Use where
  | opening
  | fetch (handle : Nat) (fetcher : Fetcher) (d : Dependency)
  | get (handle : Nat) (fetcher : Fetcher) (text : String)

namespace Use

/-- The host after a use, however that ends. -/
def run (root : Path) : Use → Host → Host
  | opening, h => (Action.run (Storage.openAt root) h).2
  | fetch handle fetcher d, h => (Action.run (Storage.fetch ⟨root, handle⟩ fetcher d) h).2
  | get handle fetcher text, h =>
    (Action.run (Storage.getDependency ⟨root, handle⟩ fetcher text) h).2

/-- The host after several uses. -/
def runAll (root : Path) (uses : List Use) (h : Host) : Host :=
  uses.foldl (fun h use => use.run root h) h

/-- The handle, the fetcher and the dependency of a use, unless its text is no dependency. -/
def call? : Use → Option (Nat × Fetcher × Dependency)
  | opening => none
  | fetch handle fetcher d => some (handle, fetcher, d)
  | get handle fetcher text => (Dependency.ofString? text).map fun d => (handle, fetcher, d)

/-- The use keeps to the directory of all trees: the fetcher is confined, and the owner is not two
dots. -/
def IsConfined (use : Use) : Prop :=
  ∀ {handle fetcher d}, use.call? = some (handle, fetcher, d) →
    fetcher.IsConfined ∧ d.IsAccepted ∧ d.owner ≠ ".."

/-- The use is for a dependency that does not stage as the given one. -/
def SparesTree (use : Use) (d : Dependency) : Prop :=
  ∀ {handle fetcher e}, use.call? = some (handle, fetcher, e) → ¬ e.StagesAs d

variable {root : Path} {r : Location} {h₀ h : Host} {use : Use} {uses : List Use} {d : Dependency}

theorem runAll_concat (uses : List Use) (use : Use) :
    runAll root (uses ++ [use]) h = use.run root (runAll root uses h) := by
  unfold runAll
  rw [List.foldl_append]
  rfl

/-- Opening a storage changes no file, since its root is there. -/
theorem get?_run_opening (ht : IsTidy root r h₀ h) (k : Location) :
    (opening.run root h).files.get? k = h.files.get? k ∧ (opening.run root h).cwd = h.cwd := by
  have hsame := get?_makeDirs_of_leads ht.cwd_dir ht.leads
    (show h.files.standing (.ofPlace r) = some .dir from ht.dir) k
  show (Action.run (Storage.openAt root) h).2.files.get? k = h.files.get? k ∧
    (Action.run (Storage.openAt root) h).2.cwd = h.cwd
  unfold Storage.openAt
  simp only [Action.run_bind, Action.run_during, Action.run_makeDirs]
  split
  · rename_i hrun
    obtain ⟨-, rfl⟩ := Prod.mk.inj hrun
    exact ⟨hsame, rfl⟩
  · rename_i hrun
    obtain ⟨-, rfl⟩ := Prod.mk.inj hrun
    exact ⟨hsame, rfl⟩

/-- **A use fetches its dependency, or no file changes.** -/
theorem run_cases (ht : IsTidy root r h₀ h) (use : Use) :
    ((∀ k, (use.run root h).files.get? k = h.files.get? k) ∧ (use.run root h).cwd = h.cwd) ∨
      ∃ handle fetcher d path, use.call? = some (handle, fetcher, d) ∧
        Action.run (Storage.fetch ⟨root, handle⟩ fetcher d) h = (path, use.run root h) := by
  cases use with
  | opening =>
    exact .inl ⟨fun k => (get?_run_opening ht k).1, (get?_run_opening ht []).2⟩
  | fetch handle fetcher d => exact .inr ⟨handle, fetcher, d, _, rfl, rfl⟩
  | get handle fetcher text =>
    have hrun : (get handle fetcher text).run root h =
      (Action.run (Storage.getDependency ⟨root, handle⟩ fetcher text) h).2 := rfl
    unfold Storage.getDependency at hrun
    rw [Action.run_bind, Action.run_ofExcept] at hrun
    unfold Dependency.parse at hrun
    cases htext : Dependency.ofString? text with
    | none =>
      rw [htext] at hrun
      rw [hrun]
      exact .inl ⟨fun _ => rfl, rfl⟩
    | some d =>
      have hcall : (get handle fetcher text).call? = some (handle, fetcher, d) := by
        show (Dependency.ofString? text).map _ = _
        rw [htext]
        rfl
      rw [htext] at hrun
      simp only at hrun
      rw [Action.run_bind, Action.run_observe] at hrun
      simp only at hrun
      split at hrun
      · rw [hrun]
        exact .inl ⟨fun _ => rfl, rfl⟩
      · rcases hfetch : Action.run (Storage.fetch ⟨root, handle⟩ fetcher d) h with ⟨path, g⟩
        rw [Action.run_bind, hfetch] at hrun
        refine .inr ⟨handle, fetcher, d, path, hcall, ?_⟩
        rw [hfetch, hrun]
        cases path <;> rfl

/-- **A use keeps a host tidy.** A slot in which it stages nothing is as it was, or it is the tree
that the use has just fetched. -/
theorem run_spec (ht : IsTidy root r h₀ h) (hu : use.IsConfined) :
    IsTidy root r h₀ (use.run root h) ∧ ∀ {slot}, IsTreeSlot r slot →
      (∀ {handle fetcher e}, use.call? = some (handle, fetcher, e) → slot ≠ e.stagingPlace r) →
      (∀ rel, (use.run root h).files.get? (slot ++ rel) = h.files.get? (slot ++ rel)) ∨
        ∃ handle fetcher e, use.call? = some (handle, fetcher, e) ∧ slot = e.treePlace r ∧
          Storage.WrittenBy ⟨root, handle⟩ fetcher e h
            fun rel => (use.run root h).files.get? (slot ++ rel) := by
  rcases run_cases ht use with ⟨hsame, hcwd⟩ | ⟨handle, fetcher, d, path, hcall, hrun⟩
  · exact ⟨ht.of_slots hcwd fun k => .inl (hsame k), fun _ _ => .inl fun rel => hsame _⟩
  · obtain ⟨hf, hd, hdots⟩ := hu hcall
    obtain ⟨htidy, hslots⟩ := Storage.fetch_spec (s := ⟨root, handle⟩) hf ht hd hdots hrun
    refine ⟨htidy, fun {slot} hslot hne => ?_⟩
    rcases hslots hslot (hne hcall) with hsame | ⟨hat, hw⟩
    · exact .inl hsame
    · exact .inr ⟨handle, fetcher, d, hcall, hat, hw⟩

/-! ## Runs -/

/-- A run keeps a host tidy. -/
theorem isTidy_runAll (hstart : IsEmptyCache root r h₀) (hu : ∀ use ∈ uses, use.IsConfined) :
    IsTidy root r h₀ (runAll root uses h₀) := by
  induction uses using List.reverseRecOn with
  | nil => exact hstart.isTidy
  | append_singleton uses use ih =>
    rw [runAll_concat]
    have hu' : ∀ use ∈ uses, use.IsConfined := fun u hmem => hu u (List.mem_append_left _ hmem)
    exact (run_spec (ih hu') (hu use (by simp))).1

/-- The use for the dependency after which the tree was as it is now. -/
def IsWritten (root : Path) (uses : List Use) (h₀ : Host) (d : Dependency)
    (tree : Location → Option Entry) : Prop :=
  ∃ pre use post handle fetcher, uses = pre ++ use :: post ∧
    use.call? = some (handle, fetcher, d) ∧
    Storage.WrittenBy ⟨root, handle⟩ fetcher d (runAll root pre h₀) tree

/-- **What is in the slot of a tree has been written for that tree.** -/
theorem isWritten_of_get?_treePlace (hstart : IsEmptyCache root r h₀)
    (hu : ∀ use ∈ uses, use.IsConfined) (hd : d.IsAccepted)
    (hs : ∀ use ∈ uses, use.SparesTree d)
    (hdir : (runAll root uses h₀).files.get? (d.treePlace r) = some .dir) :
    IsWritten root uses h₀ d fun rel => (runAll root uses h₀).files.get? (d.treePlace r ++ rel) := by
  -- From the end: the last use has written the tree, or it stood before.
  induction uses using List.reverseRecOn with
  | nil =>
    obtain ⟨rel, hrel, hplace⟩ := (hd.isTreeSlot_treePlace (r := r)).exists_eq_append
    have hdir : h₀.files.get? (d.treePlace r) = some .dir := hdir
    rw [hplace, hstart.empty hrel] at hdir
    cases hdir
  | append_singleton uses use ih =>
    have hu' : ∀ use ∈ uses, use.IsConfined := fun u hmem => hu u (List.mem_append_left _ hmem)
    have hs' : ∀ use ∈ uses, use.SparesTree d := fun u hmem => hs u (List.mem_append_left _ hmem)
    have hlast : use ∈ uses ++ [use] := by simp
    have hspares : ∀ {handle fetcher e}, use.call? = some (handle, fetcher, e) →
        d.treePlace r ≠ e.stagingPlace r := fun hcall heq =>
      Dependency.stagingPlace_ne_treePlace (hs use hlast hcall) heq.symm
    rw [runAll_concat] at hdir ⊢
    rcases (run_spec (isTidy_runAll hstart hu') (hu use hlast)).2 hd.isTreeSlot_treePlace hspares with
      hsame | ⟨handle, fetcher, e, hcall, hplace, hw⟩
    · -- The use has left the tree alone: it was written before.
      have hbefore := hsame []
      rw [List.append_nil, hdir] at hbefore
      obtain ⟨pre, u, post, handle, fetcher, rfl, hcall, before, after, loc, hprep, hrun, hname,
        hnone, htree⟩ := ih hu' hs' hbefore.symm
      exact ⟨pre, u, post ++ [use], handle, fetcher, by simp, hcall, before, after, loc, hprep, hrun,
        hname, hnone, fun rel => (hsame rel).trans (htree rel)⟩
    · obtain ⟨-, he, -⟩ := hu use hlast hcall
      obtain rfl := hd.eq_of_treePlace_eq he hplace
      exact ⟨uses, use, [], handle, fetcher, rfl, hcall, hw⟩

/-- **What is cached has been written for the dependency, and stays.** After any run a tree that is
cached, through whichever storage, is what a fetcher has written in a call for this dependency that
ended well; and no use for another dependency has ever changed it. That no dependency of the run stages
as this one is needed: its staging tree would be taken for the tree as soon as it stood. -/
theorem isWritten_of_isCached (hstart : IsEmptyCache root r h₀)
    (hu : ∀ use ∈ uses, use.IsConfined) (hd : d.IsAccepted) (hdots : d.owner ≠ "..")
    (hs : ∀ use ∈ uses, use.SparesTree d) :
    (∀ handle, Storage.isCached ⟨root, handle⟩ d (runAll root uses h₀) = true →
      (runAll root uses h₀).files.locate (runAll root uses h₀).cwd
          (Storage.treePath ⟨root, handle⟩ d) = .ok (.ofPlace (d.treePlace r)) ∧
        IsWritten root uses h₀ d
          fun rel => (runAll root uses h₀).files.get? (d.treePlace r ++ rel)) ∧
      (∀ pre use post, uses = pre ++ use :: post →
        (∀ handle fetcher, use.call? ≠ some (handle, fetcher, d)) → ∀ rel,
        (runAll root (pre ++ [use]) h₀).files.get? (d.treePlace r ++ rel) =
          (runAll root pre h₀).files.get? (d.treePlace r ++ rel)) ∧
      ∀ e handle h, e.IsAccepted → e.StagesAs d →
        checkPath (Storage.treePath ⟨root, handle⟩ d) = .ok () →
        h.isDir (Storage.stagingPath ⟨root, handle⟩ e) = true →
        Storage.isCached ⟨root, handle⟩ d h = true := by
  refine ⟨fun handle hc => ?_, ?_, fun e handle h he hstages hcheck hdir =>
    Storage.isCached_of_isDir_stagingPath he hd hstages hcheck hdir⟩
  · have ht := isTidy_runAll hstart hu
    have hdir := Storage.get?_treePlace_of_isCached (s := ⟨root, handle⟩) ht hd hdots hc
    obtain ⟨pos, hpos, -⟩ := isDir_iff.1 hc
    have hl := leads_pieces_of_steps (locate_eq_ok_iff.1 hpos).2
    rw [Storage.pieces_treePath hd] at hl
    obtain ⟨rfl, -⟩ := ht.leads_slot hd hdots hd.at_mem_treeName hl
    exact ⟨hpos, isWritten_of_get?_treePlace hstart hu hd hs hdir⟩
  · rintro pre use post rfl hother rel
    have hu' : ∀ u ∈ pre, u.IsConfined := fun u hmem => hu u (List.mem_append_left _ hmem)
    have hmem : use ∈ pre ++ use :: post := by simp
    have hspares : ∀ {handle fetcher e}, use.call? = some (handle, fetcher, e) →
        d.treePlace r ≠ e.stagingPlace r := fun hcall heq =>
      Dependency.stagingPlace_ne_treePlace (hs use hmem hcall) heq.symm
    rw [runAll_concat]
    rcases (run_spec (isTidy_runAll hstart hu') (hu use hmem)).2 hd.isTreeSlot_treePlace hspares with
      hsame | ⟨handle, fetcher, e, hcall, hplace, -⟩
    · exact hsame rel
    · obtain ⟨-, he, -⟩ := hu use hmem hcall
      obtain rfl := hd.eq_of_treePlace_eq he hplace
      exact absurd hcall (hother handle fetcher)

/-! ## A crash, and a fetch after it -/

/-- Writes one file, and ends as it is told. -/
def sampleFetcher (ending : Ending) : Fetcher := fun _ _ _ =>
  ⟨some [(["src"], .dir), (["src", "A.sol"], .file [0])], true, ending⟩

theorem isPlain_sampleFetcher (ending : Ending) (calls : Nat) (d : Dependency) (p : Path) :
    (sampleFetcher ending calls d p).IsPlain := by
  refine ⟨rfl, fun {entries} heq w hw => ?_⟩
  obtain rfl := Option.some.inj heq
  simp only [List.mem_cons, List.not_mem_nil, or_false] at hw
  rcases hw with rfl | rfl
  · exact ⟨by simp, by decide, by simp⟩
  · exact ⟨by simp, by decide, by simp⟩

theorem isConfined_sampleFetcher (ending : Ending) : (sampleFetcher ending).IsConfined :=
  Fetcher.isConfined_of_isPlain (isPlain_sampleFetcher ending)

def sampleDependency : Dependency := ⟨"a/b", "1.0.0", "a/b@1.0.0"⟩

/-- An empty directory at `/cache`. -/
def sampleCache : Host :=
  .ofFiles (empty.put ["cache"] .dir) [] ⟨"/"⟩

theorem isEmptyCache_sampleCache : IsEmptyCache ⟨"/cache"⟩ ["cache"] sampleCache where
  cwd_dir := rfl
  leads := walk_find_eq_ok_iff.1 (by decide +kernel)
  dir := rfl
  empty {rel} hrel := by
    show (empty.put ["cache"] .dir).get? ((["cache"] : Location) ++ rel) = none
    rw [get?_put_of_ne_nil (by simp), if_neg (by simpa using hrel), get?_empty (by simp)]

/-- The fetcher crashes, and the storage is opened again and asked for the dependency. -/
def sampleUses : List Use :=
  [.opening, .fetch 0 (sampleFetcher .crashed) sampleDependency, .opening,
    .get 1 (sampleFetcher .done) "a/b@1.0.0"]

/-- What the crash has left is not cached; what is cached in the end has been written by the second
call. -/
theorem isWritten_of_isCached_sample :
    Storage.isCached ⟨⟨"/cache"⟩, 1⟩ sampleDependency
        (runAll ⟨"/cache"⟩ (sampleUses.take 3) sampleCache) = false ∧
      (runAll ⟨"/cache"⟩ sampleUses sampleCache).files.get? ["cache", "a", "b@1.0.0", "src", "A.sol"] =
        some (.file [0]) ∧
      IsWritten ⟨"/cache"⟩ sampleUses sampleCache sampleDependency fun rel =>
        (runAll ⟨"/cache"⟩ sampleUses sampleCache).files.get? ((["cache", "a", "b@1.0.0"] : Location) ++ rel) := by
  have htext : Dependency.ofString? "a/b@1.0.0" = some sampleDependency := by decide
  have hcalls : ∀ use ∈ sampleUses, ∀ {handle fetcher d}, use.call? = some (handle, fetcher, d) →
      fetcher.IsConfined ∧ d = sampleDependency := by
    intro use huse handle fetcher d hcall
    simp only [sampleUses, List.mem_cons, List.not_mem_nil, or_false] at huse
    rcases huse with rfl | rfl | rfl | rfl
    · cases hcall
    · cases hcall
      exact ⟨isConfined_sampleFetcher .crashed, rfl⟩
    · cases hcall
    · simp only [call?, htext, Option.map_some] at hcall
      cases hcall
      exact ⟨isConfined_sampleFetcher .done, rfl⟩
  have hd : sampleDependency.IsAccepted := htext
  have hconfined : ∀ use ∈ sampleUses, use.IsConfined := by
    intro use huse handle fetcher d hcall
    obtain ⟨hf, rfl⟩ := hcalls use huse hcall
    exact ⟨hf, hd, by decide⟩
  have hspares : ∀ use ∈ sampleUses, use.SparesTree sampleDependency := by
    intro use huse handle fetcher e hcall
    obtain ⟨-, he⟩ := hcalls use huse hcall
    rw [he]
    exact Dependency.not_stagesAs_self sampleDependency
  obtain ⟨hcached, -, -⟩ := isWritten_of_isCached isEmptyCache_sampleCache hconfined hd
    (by decide) hspares
  exact ⟨by decide +kernel, by decide +kernel, (hcached 1 (by decide +kernel)).2⟩

end Use

end SolVendor
