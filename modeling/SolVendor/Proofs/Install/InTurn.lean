import Mathlib.Data.List.Basic
import SolVendor.Install.Parallel
import SolVendor.Proofs.Host.Keeping
/-!
# Install — copies in turn

Taken step by step and alone, a copy comes to what the export of one file
comes to in one go (`runAlone_copyEach`). So the export that copies its
files one after the other is one of the ways in which copies that run at
the same time may end (`ends_run`).
-/

namespace SolVendor.Export

open FileSystem SolVendor.Path

variable {h : Host} {tree dest : Path} {src dst : Path} {p : Path} {pos : Position} {loc : Location}
  {bytes : List UInt8} {α : Type}

/-! ## One copy alone -/

section

variable {f : FileSystem → Position → Except FileError (α × FileSystem)} {a : α} {files : FileSystem}
  {e : FileError}

theorem runAlone_onFiles_ok (hf : f h.files h.cwd = .ok (a, files)) :
    Process.runAlone (onFiles f) h = some (.ok a, { h with files }) := by
  unfold onFiles Task.atomic
  rw [Process.runAlone_atomic, hf]

theorem runAlone_onFiles_error (hf : f h.files h.cwd = .error e) :
    Process.runAlone (onFiles f) h = some (.error (.file e), h) := by
  unfold onFiles Task.atomic
  rw [Process.runAlone_atomic, hf]

end

theorem runAlone_tryDir (p : Path) (h : Host) :
    Process.runAlone (tryDir p) h =
      some (match h.files.makeDir h.cwd p with
        | .ok files => (.ok (.ok ()), { h with files })
        | .error e => (.ok (.error (.file e)), h)) := by
  unfold tryDir
  rw [Task.runAlone_attempt]
  cases hmake : h.files.makeDir h.cwd p with
  | ok files =>
    have hstep : Process.runAlone (onFiles fun fs cwd => do return ((), ← fs.makeDir cwd p)) h =
        some (.ok (), { h with files }) := runAlone_onFiles_ok (by simp only [hmake]; rfl)
    rw [hstep]
    rfl
  | error e =>
    have hstep : Process.runAlone (onFiles fun fs cwd => do return ((), ← fs.makeDir cwd p)) h =
        some (.error (.file e), h) := runAlone_onFiles_error (by simp only [hmake]; rfl)
    rw [hstep]
    rfl

theorem runAlone_acceptDir (p : Path) (made : Except Failure Unit) (h : Host) :
    Process.runAlone (acceptDir p made) h =
      some (match made with
        | .ok () => (.ok (), h)
        | .error e => (if h.isDir p then .ok () else .error e, h)) := by
  cases made with
  | ok x => rfl
  | error e =>
    unfold acceptDir
    rw [Task.runAlone_bind]
    show Process.runAlone (if h.isDir p = true then pure () else throw e : Task Host Unit) h = _
    cases h.isDir p <;> rfl

/-- **Alone, a directory is made with those above it** as in one go. -/
theorem runAlone_makeFirstEach (ps : List Path) (h : Host) :
    Process.runAlone (makeFirstEach ps) h =
      some ((makeFirst h.cwd ps h.files).1.mapError .file,
        { h with files := (makeFirst h.cwd ps h.files).2 }) := by
  induction ps generalizing h with
  | nil => rfl
  | cons p above ih =>
    unfold makeFirstEach makeFirst
    split
    · rfl
    rw [Task.runAlone_bind, runAlone_tryDir]
    cases hmake : h.files.makeDir h.cwd p with
    | ok files => rfl
    | error e =>
      by_cases he : e = .notFound
      · subst he
        simp only [Option.bind_some]
        rw [Task.runAlone_bind, ih]
        rcases makeFirst h.cwd above h.files with ⟨e | x, files⟩
        · rfl
        · simp only [Except.mapError, Option.bind_some]
          rw [Task.runAlone_bind, runAlone_tryDir]
          cases files.makeDir h.cwd p with
          | ok files' => rfl
          | error e =>
            simp only [Option.bind_some]
            rw [runAlone_acceptDir]
            show some (if files.isDir h.cwd p = true then _ else _, _) = _
            cases files.isDir h.cwd p <;> rfl
      · simp only [Option.bind_some]
        split
        · rename_i heq
          cases heq
          exact absurd rfl he
        · rw [runAlone_acceptDir]
          show some (if h.files.isDir h.cwd p = true then _ else _, _) = _
          split <;> rfl

/-- What is emptied can still be read. -/
theorem exists_read_emptied {fs : FileSystem} (hs : fs.standing pos = some (.file bytes)) (hne : loc ≠ []) :
    ∃ b, (fs.put loc (.file [])).read pos = .ok b := by
  obtain ⟨hpos, hfile⟩ := get?_of_standing_file hs
  have hstands : (fs.put loc (.file [])).standing pos =
      if pos.place = loc then some (.file []) else some (.file bytes) := by
    rw [hpos, ← hfile]
    exact get?_put_of_ne_nil hne pos.place
  unfold FileSystem.read
  rw [hstands]
  by_cases hsame : pos.place = loc
  · rw [if_pos hsame]
    exact ⟨[], rfl⟩
  · rw [if_neg hsame]
    exact ⟨bytes, rfl⟩

theorem runAlone_openSource (hpos : h.files.locate h.cwd src = .ok pos)
    (hs : h.files.standing pos = some (.file bytes)) :
    Process.runAlone (openSource src) h = some (.ok pos, h) := by
  refine runAlone_onFiles_ok ?_
  simp only [hpos, bind, Except.bind, hs]
  rfl

theorem runAlone_openTarget (hloc : h.files.writePlace h.cwd dst = .ok loc) :
    Process.runAlone (openTarget dst) h =
      some (.ok loc, { h with files := h.files.put loc (.file []) }) := by
  refine runAlone_onFiles_ok ?_
  simp only [hloc, bind, Except.bind]
  rfl

theorem runAlone_transfer (hread : h.files.read pos = .ok bytes) :
    Process.runAlone (transfer pos loc) h =
      some (.ok (), { h with files := h.files.put loc (.file bytes) }) := by
  refine runAlone_onFiles_ok ?_
  simp only [hread, bind, Except.bind]
  rfl

/-- **Alone, the bytes of a file are copied** as in one go. -/
theorem runAlone_copyBytesEach (hcwd : h.files.get? h.cwd.place = some .dir) (src dst : Path) :
    Process.runAlone (copyBytesEach src dst) h = some (Action.run (Action.during (.copyFile src dst)
      (Action.change fun fs cwd => fs.copy cwd src dst)) h) := by
  have hrefused : ∀ {e}, h.files.copy h.cwd src dst = .error e →
      Process.runAlone (openSource src) h = some (.error (.file e), h) →
      Process.runAlone (copyBytesEach src dst) h = some (Action.run (Action.during (.copyFile src dst)
        (Action.change fun fs cwd => fs.copy cwd src dst)) h) := by
    intro e hcopy hopen
    rw [copyBytesEach, Task.runAlone_during, Action.run_during, Action.run_change (f := fun fs cwd =>
      fs.copy cwd src dst), Task.runAlone_bind, hopen, hcopy]
    rfl
  cases hpos : h.files.locate h.cwd src with
  | error e =>
    refine hrefused (e := e) ?_ ?_
    · simp only [FileSystem.copy, hpos, bind, Except.bind]
    · refine runAlone_onFiles_error ?_
      simp only [hpos, bind, Except.bind]
  | ok pos =>
    by_cases hfile : ∃ bytes, h.files.standing pos = some (.file bytes)
    · obtain ⟨bytes, hs⟩ := hfile
      rw [copyBytesEach, Task.runAlone_during, Action.run_during, Action.run_change (f := fun fs cwd =>
        fs.copy cwd src dst), Task.runAlone_bind, runAlone_openSource hpos hs]
      simp only [Option.bind_some]
      rw [Task.runAlone_bind]
      cases hloc : h.files.writePlace h.cwd dst with
      | error e =>
        have hcopy : h.files.copy h.cwd src dst = .error e := by
          simp only [FileSystem.copy, hpos, hs, hloc, bind, Except.bind]
        have hopen : Process.runAlone (openTarget dst) h = some (.error (.file e), h) := by
          refine runAlone_onFiles_error ?_
          simp only [hloc, bind, Except.bind]
        rw [hcopy, hopen]
        rfl
      | ok loc =>
        obtain ⟨b, hb⟩ := exists_read_emptied hs (ne_nil_of_writePlace hloc)
        have hcopy : h.files.copy h.cwd src dst =
            .ok ((h.files.put loc (.file [])).put loc (.file b)) := by
          simp only [FileSystem.copy, hpos, hs, hloc, hb, bind, Except.bind]
          rfl
        rw [hcopy, runAlone_openTarget hloc]
        simp only [Option.bind_some]
        rw [runAlone_transfer (h := { h with files := h.files.put loc (.file []) }) hb]
        have hdir := (retains_of_copy hcopy).get?_dir hcwd
        simp only
        rw [Host.withFiles_eq hdir]
        rfl
    · refine hrefused (e := .notRegular) ?_ ?_
      · simp only [FileSystem.copy, hpos, bind, Except.bind]
        split
        · rename_i bytes hs
          exact absurd ⟨bytes, hs⟩ hfile
        · rfl
      · refine runAlone_onFiles_error ?_
        simp only [hpos, bind, Except.bind]
        split
        · rename_i bytes hs
          exact absurd ⟨bytes, hs⟩ hfile
        · rfl

/-- **Alone, a file is copied** as in one go. -/
theorem runAlone_copyEach (hcwd : h.files.get? h.cwd.place = some .dir) (tree dest file : Path) :
    Process.runAlone (copyEach tree dest file) h = some (Action.run (copyFile tree dest file) h) := by
  unfold copyEach copyFile makeWayEach
  rw [Task.runAlone_bind]
  cases hparent : (dest.join file).parent? with
  | none =>
    simp only [hparent]
    exact runAlone_copyBytesEach hcwd _ _
  | some parent =>
    simp only [hparent]
    rw [Task.runAlone_during, runAlone_makeFirstEach, Action.run_bind, Action.run_during, Action.run_makeDirs]
    have hdir : (h.files.makeDirs h.cwd parent).2.get? h.cwd.place = some .dir :=
      (addsDirs_makeDirs h.files h.cwd parent).extends_old _ _ hcwd
    unfold makeDirs at hdir ⊢
    cases hmade : makeFirst h.cwd parent.ancestors h.files with
    | mk made files =>
      rw [hmade] at hdir
      cases made with
      | error e => rfl
      | ok x => exact runAlone_copyBytesEach (h := { h with files }) hdir _ _

/-! ## One copy after the other -/

/-- Copying a file keeps what was there, however it ends. -/
theorem keeps_copyFile (hcwd : h.files.get? h.cwd.place = some .dir) (tree dest file : Path) :
    h.Keeps (Action.run (copyFile tree dest file) h).2 := by
  have hcopy : ∀ {g : Host}, g.files.get? g.cwd.place = some .dir → g.Keeps (Action.run
      (Action.during (.copyFile (tree.join file) (dest.join file)) (Action.change fun fs cwd =>
        fs.copy cwd (tree.join file) (dest.join file))) g).2 := by
    intro g hg
    rw [Action.run_during]
    exact .copy hg _ _
  unfold copyFile
  cases hp : (dest.join file).parent? with
  | none =>
    simp only [hp]
    exact hcopy hcwd
  | some parent =>
    simp only [hp]
    refine .bind ?_ fun _ hk => hcopy (hk.cwd_dir hcwd)
    rw [Action.run_during]
    exact .makeDirs h parent

/-- The first copies have succeeded, and the others have not begun. -/
def begun (tree dest : Path) (n : Nat) (rest : List Path) (h : Host) : Pool Host (Except Failure Unit) :=
  ⟨h, List.replicate n (.done (.ok ())) ++ rest.map (copyEach tree dest)⟩

/-- The first copies have succeeded, whatever the others are. -/
theorem result?_append_replicate {n i : Nat} {rest : List (Process Host (Except Failure Unit))} (hi : i < n) :
    Pool.result? ⟨h, List.replicate n (.done (.ok ())) ++ rest⟩ i = some (.ok ()) := by
  unfold Pool.result?
  rw [List.getElem?_append_left (by rwa [List.length_replicate]), List.getElem?_replicate, if_pos hi]
  rfl

/-- The next copy has a result. -/
theorem set_begun {n : Nat} {file : Path} {rest : List Path} (p : Process Host (Except Failure Unit)) :
    (begun tree dest n (file :: rest) h).processes.set n p =
      List.replicate n (.done (.ok ())) ++ p :: rest.map (copyEach tree dest) := by
  unfold begun
  rw [List.set_append_right _ _ (Nat.le_of_eq List.length_replicate)]
  simp

/-- **The copies may be made in turn**: they end as the copies of the export do that makes one after the
other. If one fails, then all that have begun have ended. -/
theorem exists_run_copyAll (hcwd : h.files.get? h.cwd.place = some .dir) (tree dest : Path) (n : Nat)
    (rest : List Path) :
    ∃ schedule pool, (begun tree dest n rest h).run schedule = some pool ∧
      pool.shared = (Action.run (copyAll tree dest rest) h).2 ∧
      match (Action.run (copyAll tree dest rest) h).1 with
      | .ok () => ∀ i < n + rest.length, pool.result? i = some (.ok ())
      | .error e => (∀ j, j ∈ schedule ∨ j < n → ∃ r, pool.result? j = some r) ∧
        ∃ i, pool.result? i = some (.error e) := by
  induction rest generalizing n h with
  | nil => exact ⟨[], _, rfl, rfl, fun i hi => result?_append_replicate hi⟩
  | cons file rest ih =>
    have hat : (begun tree dest n (file :: rest) h).processes[n]? = some (copyEach tree dest file) := by
      simp [begun]
    cases hcopy : Action.run (copyFile tree dest file) h with
    | mk r g =>
      have halone := runAlone_copyEach hcwd tree dest file
      rw [hcopy] at halone
      obtain ⟨m, hm⟩ := Pool.exists_run_of_runAlone hat halone
      rw [set_begun] at hm
      have hkeeps := keeps_copyFile hcwd tree dest file
      rw [hcopy] at hkeeps
      unfold copyAll
      rw [Action.run_bind, hcopy]
      cases r with
      | error e =>
        have hfailed : Pool.result? ⟨g, List.replicate n (.done (.ok ())) ++ .done (.error e) ::
            rest.map (copyEach tree dest)⟩ n = some (.error e) := by
          simp [Pool.result?, Process.result?]
        refine ⟨_, _, hm, rfl, fun j hj => ?_, n, hfailed⟩
        rcases Nat.lt_or_ge j n with hlt | hge
        · exact ⟨_, result?_append_replicate hlt⟩
        · obtain rfl := List.eq_of_mem_replicate (hj.resolve_right (Nat.not_lt.2 hge))
          exact ⟨_, hfailed⟩
      | ok x =>
        have hnext : begun tree dest (n + 1) rest g =
            ⟨g, List.replicate n (.done (.ok ())) ++ .done (.ok ()) :: rest.map (copyEach tree dest)⟩ := by
          unfold begun
          rw [List.replicate_succ', List.append_assoc]
          rfl
        obtain ⟨schedule, pool, hrun, hshared, hends⟩ := ih (hkeeps.cwd_dir hcwd) (n + 1)
        rw [hnext] at hrun
        refine ⟨_, pool, Pool.run_append_of_run hm hrun, hshared, ?_⟩
        simp only
        cases hlast : (Action.run (copyAll tree dest rest) g).1 with
        | ok y =>
          rw [hlast] at hends
          intro i hi
          refine hends i ?_
          rw [List.length_cons] at hi
          omega
        | error e =>
          rw [hlast] at hends
          refine ⟨fun j hj => hends.1 j ?_, hends.2⟩
          rw [List.mem_append] at hj
          rcases hj with (hj | hj) | hj
          · obtain rfl := List.eq_of_mem_replicate hj
            exact .inr (Nat.lt_succ_self _)
          · exact .inl hj
          · exact .inr (Nat.lt_succ_of_lt hj)

/-- **The export that makes its copies in turn** ends in one of the ways in which copies that are made at
the same time may end. -/
theorem ends_run (hcwd : h.files.get? h.cwd.place = some .dir) (tree dest : Path) (g : ImportGraph)
    (files : NodeSet) :
    Ends tree dest g files h (Action.run (run tree dest g files false) h).1
      (Action.run (run tree dest g files false) h).2 := by
  unfold run
  rw [Action.run_bind, Action.run_ofExcept]
  cases hpaths : pathsOf g files with
  | error e => exact .refused hpaths
  | ok paths =>
    simp only [Bool.false_eq_true, if_false]
    rw [Action.run_bind]
    obtain ⟨schedule, pool, hrun, hshared, hends⟩ := exists_run_copyAll hcwd tree dest 0 paths
    have hcopies : begun tree dest 0 paths h = copies tree dest paths h := rfl
    rw [hcopies] at hrun
    cases hall : Action.run (copyAll tree dest paths) h with
    | mk r g =>
      rw [hall] at hshared hends
      obtain rfl : pool.shared = g := hshared
      cases r with
      | error e =>
        obtain ⟨hended, i, hi⟩ := hends
        exact .failed hpaths hrun (fun j hj => hended j (.inl hj)) hi
      | ok x => exact .copied hpaths hrun fun i hi => hends i (by rwa [Nat.zero_add])

theorem ends_of_run {g : ImportGraph} {files : NodeSet} {r : Except Failure (List Path)} {h' : Host}
    (hcwd : h.files.get? h.cwd.place = some .dir)
    (hrun : Action.run (run tree dest g files false) h = (r, h')) : Ends tree dest g files h r h' := by
  have hends := ends_run hcwd tree dest g files
  rw [hrun] at hends
  exact hends

end SolVendor.Export
