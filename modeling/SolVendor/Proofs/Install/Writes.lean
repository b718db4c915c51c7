import SolVendor.Proofs.Install.SelfContained
/-!
# Install — what an export writes

Whatever its host, an export that succeeds has written files at the paths
of its copies and no other ones (`writesJust_of_ends`): all that its copies
do is to land there, and a copy does not succeed before it has written at
its own path (`mustDo_copyEach`).
-/

namespace SolVendor.Export

open FileSystem

variable {h h' s t : Host} {tree dest p : Path} {paths : List Path}

/-- **A copy does not succeed before it has written at its path.** -/
theorem mustDo_copyEach (hend : EndsInName (dest.join p)) (tree : Path) :
    Process.MustDo (WritesFile (dest.join p)) (· = .ok ()) (copyEach tree dest p) := by
  have hopen : Process.MustDo (WritesFile (dest.join p)) (fun r => ∃ k, r = .ok k)
      (openTarget (dest.join p)) := by
    refine Process.mustDo_atomic fun s ⟨k, hk⟩ => ?_
    cases hloc : s.files.writePlace s.cwd (dest.join p) with
    | error e =>
      simp only [hloc, bind, Except.bind] at hk
      cases hk
    | ok loc =>
      simp only [hloc, bind, Except.bind]
      exact writesFile_of_writePlace hloc hend []
  have hcopy : Process.MustDo (WritesFile (dest.join p)) (· = .ok ()) (ExceptT.run do
      let pos ← openSource (tree.join p)
      let loc ← openTarget (dest.join p)
      transfer pos loc) := by
    refine Process.MustDo.after fun r => ?_
    cases r with
    | error e => exact nofun
    | ok pos =>
      refine hopen.bind fun r hr => ?_
      cases r with
      | error e => exact nofun
      | ok k => exact absurd ⟨k, rfl⟩ hr
  refine Process.MustDo.after fun r => ?_
  cases r with
  | error e => exact nofun
  | ok x =>
    refine hcopy.bind fun r hr => ?_
    cases r with
    | error e => exact nofun
    | ok x => exact absurd rfl hr

/-- From one host to the other, files have been written at the paths and nowhere else: what is new or other
is a directory where nothing stood, or a file that one of the paths leads to; there has been a step that
writes at each path; and each path leads to a file in the end. -/
structure WritesJust (dest : Path) (paths : List Path) (h h' : Host) : Prop where
  host : h' = { h with files := h'.files }
  places : ∀ k, h'.files.get? k = h.files.get? k ∨
    (h.files.get? k = none ∧ h'.files.get? k = some .dir) ∨
    ((h.files.get? k = none ∨ ∃ old, h.files.get? k = some (.file old)) ∧
      (∃ bytes, h'.files.get? k = some (.file bytes)) ∧ Covers h' dest paths k)
  steps : Steps dest paths h h'
  each : ∀ p ∈ paths, ∃ s t, Steps dest paths h s ∧
    WritesFile (dest.join p) s t ∧ Steps dest paths t h'
  arrived : ∀ p ∈ paths, ∃ k, LeadsToFile (dest.join p) k h'

/-- **An export that has succeeded has written the files at the paths that it gives**, and no other ones.
This is so whatever the order of the steps of its copies. -/
theorem writesJust_of_ends {g : ImportGraph} {ids : NodeSet} (hnames : ∀ p ∈ paths, EndsInName (dest.join p))
    (hends : Ends tree dest g ids h (.ok paths) h') : WritesJust dest paths h h' := by
  have hsteps := steps_of_ends hnames (pathsOf_of_ends hends) hends
  refine ⟨host_of_steps hsteps, places_of_steps hsteps, hsteps, fun p hp => ?_, fun p hp => ?_⟩
  · obtain ⟨i, hi⟩ := List.mem_iff_getElem?.1 hp
    cases hends with
    | copied hpaths hrun hall =>
      obtain ⟨s, t, hbefore, hdoes, hafter⟩ := (landing_copies hnames tree h).exists_step hrun among_fit
        (show _ = some (copyEach tree dest p) from (List.getElem?_map ..).trans (by rw [hi]; rfl))
        (mustDo_copyEach (hnames p hp) tree) (hall i (List.getElem?_eq_some_iff.1 hi).1) rfl
      exact ⟨s, t, steps_of_guaranteed hbefore, hdoes, steps_of_guaranteed hafter⟩
  · obtain ⟨i, hi⟩ := List.mem_iff_getElem?.1 hp
    obtain ⟨k, hl⟩ := exists_hasLanded_of_ends hnames hends hi
    exact ⟨k, hl.target⟩

end SolVendor.Export
