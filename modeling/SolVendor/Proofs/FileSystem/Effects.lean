import SolVendor.Proofs.FileSystem.MakeDirs
/-!
# FileSystem — what an operation by path has done

Each operation that has succeeded has changed the entries at the places its
paths name, and no others. A tree is removed from the place that is named
(`removeTree_spec`), or moved from one such place to another
(`rename_spec`). A file is written where nothing or a file stands
(`writePlace_vacant_or_file`), which is the place that is named unless a
link is there (`names_of_writePlace`), and the path leads to it from then on
(`leads_put_of_writePlace`). So none of these takes the place of a directory
but a tree that is moved.
-/

namespace SolVendor.FileSystem

variable {fs fs' : FileSystem} {cwd pos mid : Position} {p src dst : Path} {cs ds : List Component}
  {loc dir k : Location} {n : OsString} {e : Entry} {m : Nat}

/-- A path that stands for a place by its steps ends in no slash: its steps are its pieces. -/
theorem lastName_pieces_of_steps (h : fs.lastName cwd p.steps = .ok (some (dir, n))) :
    p.endsInSlash = false ∧ fs.lastName cwd p.pieces = .ok (some (dir, n)) := by
  cases hslash : p.endsInSlash with
  | false =>
    have hsteps : p.steps = p.pieces := by
      unfold Path.steps
      rw [hslash]
      rfl
    exact ⟨rfl, hsteps ▸ h⟩
  | true =>
    have hsteps : p.steps = p.pieces ++ [.here] := by
      unfold Path.steps
      rw [hslash]
      rfl
    obtain ⟨ds, hds, -⟩ := lastName_eq_ok_iff.1 h
    rw [hsteps] at hds
    cases (List.append_inj' hds rfl).2

/-! ## Removing and moving -/

theorem removeTree_spec (h : fs.removeTree cwd p = .ok fs') :
    ∃ loc, fs.Names cwd p loc ∧ fs' = fs.cut loc := by
  unfold removeTree at h
  obtain ⟨u, hc, h⟩ := exists_of_bind_eq_ok h
  obtain ⟨place, hl, h⟩ := exists_of_bind_eq_ok h
  split at h
  · cases h
  · rename_i dir n
    refine ⟨dir ++ [n], ⟨hc, dir, n, rfl, (lastName_pieces_of_steps hl).2⟩, ?_⟩
    split at h
    · cases h
    · cases h
    · exact (Except.ok.inj h).symm

/-- A directory that is named without a slash is removed. -/
theorem removeTree_of_dir (hname : fs.Names cwd p loc) (hslash : p.endsInSlash = false)
    (hdir : fs.get? loc = some .dir) : fs.removeTree cwd p = .ok (fs.cut loc) := by
  obtain ⟨hc, dir, n, rfl, hl⟩ := hname
  have hsteps : p.steps = p.pieces := by
    unfold Path.steps
    rw [hslash]
    rfl
  unfold removeTree
  rw [hsteps, hc, hl]
  simp only [bind, Except.bind]
  rw [hdir]
  rfl

/-- A tree is moved to another place, or left where it is if the two are the same. -/
theorem rename_spec (h : fs.rename cwd src dst = .ok fs') :
    ∃ s d e, fs.Names cwd src s ∧ fs.Names cwd dst d ∧ fs.get? s = some e ∧
      (s = d ∧ fs' = fs ∨ s ≠ d ∧ fs' = fs.graft s d) := by
  unfold rename at h
  obtain ⟨u, hcs, h⟩ := exists_of_bind_eq_ok h
  obtain ⟨u', hcd, h⟩ := exists_of_bind_eq_ok h
  obtain ⟨splace, hs, h⟩ := exists_of_bind_eq_ok h
  obtain ⟨dplace, hd, h⟩ := exists_of_bind_eq_ok h
  rcases splace with - | ⟨sdir, sname⟩
  · cases h
  rcases dplace with - | ⟨ddir, dname⟩
  · cases h
  have hsname : fs.Names cwd src (sdir ++ [sname]) :=
    ⟨hcs, sdir, sname, rfl, (lastName_pieces_of_steps hs).2⟩
  have hdname : fs.Names cwd dst (ddir ++ [dname]) :=
    ⟨hcd, ddir, dname, rfl, (lastName_pieces_of_steps hd).2⟩
  -- A directory has to stay clear of itself and may replace an empty one only.
  have hdir : ∀ {t : Except FileError FileSystem}, (if sdir ++ [sname] = ddir ++ [dname] then pure fs
      else t) = .ok fs' → (t = .ok fs' → fs' = fs.graft (sdir ++ [sname]) (ddir ++ [dname])) →
      sdir ++ [sname] = ddir ++ [dname] ∧ fs' = fs ∨ sdir ++ [sname] ≠ ddir ++ [dname] ∧
        fs' = fs.graft (sdir ++ [sname]) (ddir ++ [dname]) := by
    intro t ht hgraft
    split at ht
    · rename_i heq
      exact .inl ⟨heq, (Except.ok.inj ht).symm⟩
    · rename_i hne
      exact .inr ⟨hne, hgraft ht⟩
  simp only at h
  split at h
  · cases h
  · rename_i hg _
    refine ⟨_, _, _, hsname, hdname, hg, hdir h fun ht => ?_⟩
    split at ht
    · cases ht
    · split at ht
      · exact (Except.ok.inj ht).symm
      · cases ht
  · rename_i hg _
    refine ⟨_, _, _, hsname, hdname, hg, hdir h fun ht => ?_⟩
    split at ht
    · cases ht
    · split at ht
      · exact (Except.ok.inj ht).symm
      · cases ht
  · cases h
  · cases h
  · rename_i hg _ _ _ _
    exact ⟨_, _, _, hsname, hdname, hg, hdir h fun ht => (Except.ok.inj ht).symm⟩

/-- **Nothing is below the place that a directory is moved to**, and nothing but a directory is there. -/
theorem vacant_of_rename_dir {s d : Location} (h : fs.rename cwd src dst = .ok fs')
    (hs : fs.Names cwd src s) (hd : fs.Names cwd dst d) (hdir : fs.get? s = some .dir) (hne : s ≠ d) :
    (fs.get? d = none ∨ fs.get? d = some .dir) ∧ ∀ rel, rel ≠ [] → fs.get? (d ++ rel) = none := by
  unfold rename at h
  obtain ⟨u, -, h⟩ := exists_of_bind_eq_ok h
  obtain ⟨u', -, h⟩ := exists_of_bind_eq_ok h
  obtain ⟨splace, hsl, h⟩ := exists_of_bind_eq_ok h
  obtain ⟨dplace, hdl, h⟩ := exists_of_bind_eq_ok h
  obtain ⟨-, sdir, sname, rfl, hs⟩ := hs
  obtain ⟨-, ddir, dname, rfl, hd⟩ := hd
  rcases splace with - | ⟨sdir', sname'⟩
  · cases h
  rcases dplace with - | ⟨ddir', dname'⟩
  · cases h
  rw [(lastName_pieces_of_steps hsl).2] at hs
  rw [(lastName_pieces_of_steps hdl).2] at hd
  cases hs
  cases hd
  have hbelow : (fs.below (ddir ++ [dname])).isEmpty = true →
      ∀ rel, rel ≠ [] → fs.get? (ddir ++ [dname] ++ rel) = none := by
    intro hempty rel hrel
    rw [Option.eq_none_iff_forall_ne_some]
    intro e he
    have hmem := mem_below.2 ⟨hrel, he⟩
    rw [List.isEmpty_iff.1 hempty] at hmem
    exact absurd hmem List.not_mem_nil
  have hchecked : (if sdir ++ [sname] = ddir ++ [dname] then pure fs else
      if (sdir ++ [sname]).isPrefixOf (ddir ++ [dname]) then throw .invalidArgument
      else do
        unless (fs.below (ddir ++ [dname])).isEmpty do throw .notEmpty
        return fs.graft (sdir ++ [sname]) (ddir ++ [dname]) : Except FileError FileSystem) = .ok fs' →
      ∀ rel, rel ≠ [] → fs.get? (ddir ++ [dname] ++ rel) = none := by
    intro h
    rw [if_neg hne] at h
    split at h
    · cases h
    · split at h
      · rename_i hempty
        exact hbelow hempty
      · cases h
  simp only [hdir] at h
  cases hold : fs.get? (ddir ++ [dname]) with
  | none =>
    rw [hold] at h
    exact ⟨.inl rfl, hchecked h⟩
  | some e =>
    rw [hold] at h
    cases e with
    | dir => exact ⟨.inr rfl, hchecked h⟩
    | file bytes => cases h
    | link target => cases h

/-- Nothing is missed of what stands elsewhere than the place that is cut off. -/
theorem extends_cut (hloc : ∀ rel, fs.get? (loc ++ rel) = none)
    (hsame : ∀ {k e}, ¬ loc <+: k → fs.get? k = some e → fs'.get? k = some e) :
    (fs'.cut loc).Extends fs := by
  intro k e he
  by_cases hk : loc <+: k
  · obtain ⟨rel, rfl⟩ := hk
    rw [hloc] at he
    cases he
  · rw [get?_cut_of_apart hk]
    exact hsame hk he

/-- Nothing is missed where a subtree goes to a place that held no more than the subtree does. -/
theorem extends_graft {s d : Location} (hne : s ≠ []) (hne' : d ≠ [])
    (hs : ∀ rel, fs.get? (s ++ rel) = none)
    (hd : ∀ {rel e}, fs.get? (d ++ rel) = some e → fs'.get? (s ++ rel) = some e)
    (hsame : ∀ {k e}, ¬ s <+: k → fs.get? k = some e → fs'.get? k = some e) :
    (fs'.graft s d).Extends fs := by
  intro k e he
  by_cases hk : d <+: k
  · obtain ⟨rel, rfl⟩ := hk
    rw [get?_graft_append hne hne']
    exact hd he
  · have hk' : ¬ s <+: k := by
      rintro ⟨rel, rfl⟩
      rw [hs] at he
      cases he
    rw [get?_graft_of_apart hne hk, if_neg hk']
    exact hsame hk' he

/-! ## Writing -/

/-- A walk that ends at a vacant name ends in a directory. -/
theorem get?_of_walk_vacant {purpose : Purpose} (hp : purpose ≠ .name)
    (h : fs.walk purpose m pos cs = .ok (.vacant dir n)) : fs.get? (dir ++ [n]) = none := by
  -- As for any walk, the steps get fewer, and at a link the links do.
  induction m using Nat.strongRecOn generalizing pos cs with
  | _ m ihm =>
    induction cs generalizing pos with
    | nil =>
      rw [walk_nil] at h
      cases h
    | cons c cs ihc =>
      cases c with
      | root =>
        rw [walk_root] at h
        exact ihc h
      | here =>
        rw [walk_here_eq] at h
        exact ihc (standing_of_fromDir h).2
      | up =>
        rw [walk_up_eq] at h
        exact ihc (standing_of_fromDir h).2
      | name s =>
        obtain ⟨hd, hl, hn⟩ := of_walk_name h
        rw [walk_name hp hd hl hn] at h
        split at h
        · rename_i hnone
          split at h
          · cases h
            exact hnone
          · cases h
        · cases m with
          | zero => cases h
          | succ m => exact ihm m (Nat.lt_succ_self m) h
        · exact ihc h

theorem checkPath_of_writePlace (h : fs.writePlace cwd p = .ok loc) : checkPath p = .ok () := by
  unfold writePlace at h
  obtain ⟨u, hc, -⟩ := exists_of_bind_eq_ok h
  exact hc

/-- **A file is written where nothing or a file stands.** -/
theorem writePlace_vacant_or_file (h : fs.writePlace cwd p = .ok loc) :
    fs.get? loc = none ∨ ∃ bytes, fs.get? loc = some (.file bytes) := by
  unfold writePlace at h
  obtain ⟨u, -, h⟩ := exists_of_bind_eq_ok h
  obtain ⟨place, hw, h⟩ := exists_of_bind_eq_ok h
  split at h
  · cases h
    exact .inl (get?_of_walk_vacant (by decide) hw)
  · split at h
    · rename_i pos bytes hs
      cases h
      exact .inr ⟨bytes, (get?_of_standing_file hs).2⟩
    · cases h
    · cases h

/-- The root is a directory. -/
theorem ne_nil_of_vacant_or_file (h : fs.get? loc = none ∨ ∃ bytes, fs.get? loc = some (.file bytes)) :
    loc ≠ [] := by
  rintro rfl
  rcases h with hroot | ⟨b, hroot⟩
  · cases hroot
  · cases hroot

theorem ne_nil_of_writePlace (h : fs.writePlace cwd p = .ok loc) : loc ≠ [] :=
  ne_nil_of_vacant_or_file (writePlace_vacant_or_file h)

/-- **Bytes that are put where nothing or a file stands** take the place of other bytes only. -/
theorem retains_put_file {bytes : List UInt8}
    (h : fs.get? loc = none ∨ ∃ old, fs.get? loc = some (.file old)) :
    (fs.put loc (.file bytes)).Retains fs := by
  intro k e he
  rcases h with hnone | ⟨b, hfile⟩
  · exact .inl (extends_put hnone k e he)
  · rw [get?_put_of_ne_nil (ne_nil_of_vacant_or_file (.inr ⟨b, hfile⟩))]
    split
    · rename_i hk
      rw [hk, hfile] at he
      exact .inr ⟨b, bytes, (Option.some.inj he).symm, rfl⟩
    · exact .inl he

theorem retains_put_of_writePlace {bytes : List UInt8} (h : fs.writePlace cwd p = .ok loc) :
    (fs.put loc (.file bytes)).Retains fs :=
  retains_put_file (writePlace_vacant_or_file h)

/-- **The place that is written is the one that the path names**, if no link is there. -/
theorem names_of_writePlace (h : fs.writePlace cwd p = .ok loc) (hp : p.pieces = ds ++ [.name n])
    (hslash : p.endsInSlash = false)
    (hlink : ∀ dir target, fs.Leads cwd ds (.ofPlace dir) →
      fs.get? (dir ++ [n]) ≠ some (.link target)) : fs.Names cwd p loc := by
  unfold writePlace at h
  obtain ⟨u, hc, h⟩ := exists_of_bind_eq_ok h
  obtain ⟨place, hw, h⟩ := exists_of_bind_eq_ok h
  have hsteps : p.writeSteps = ds ++ [.name n] := by
    unfold Path.writeSteps
    rw [hslash, hp]
    rfl
  have hw : fs.walk .write maxLinks cwd p.writeSteps = .ok place := hw
  rw [hsteps] at hw
  obtain ⟨k, l, mid, hm, hmid, hw⟩ := exists_walks_of_walk hw (by decide) (.inl (by simp))
  obtain ⟨hd, hlost, hn⟩ := of_walk_name hw
  have hplace : mid = .ofPlace mid.place := by
    cases mid
    rw [Position.ofPlace, ← hlost]
  have hleads : fs.Leads cwd ds (.ofPlace mid.place) := by
    rw [← hplace]
    exact ⟨k, by omega, hmid⟩
  have hdir : fs.get? mid.place = some .dir := by
    unfold standing at hd
    rwa [if_pos hlost] at hd
  have hname : fs.Names cwd p (mid.place ++ [n]) :=
    names_iff.2 ⟨hc, ds, mid.place, n, hp, rfl, hleads, hdir, hn⟩
  rw [walk_name (by decide) hd hlost hn] at hw
  have hloc : loc = mid.place ++ [n] := by
    split at hw
    · cases hw
      exact (Except.ok.inj h).symm
    · rename_i target he
      exact absurd he (hlink _ target hleads)
    · rw [walk_nil] at hw
      cases hw
      simp only at h
      split at h
      · exact (Except.ok.inj h).symm
      · cases h
      · cases h
  rw [hloc]
  exact hname

/-- What is written can be written: a walk to write ends at a vacant place or at a file. -/
def Writes (fs : FileSystem) (loc : Location) (x : Place) : Prop :=
  (∃ dir n, x = .vacant dir n ∧ loc = dir ++ [n] ∧ fs.get? loc = none) ∨
    x = .found (.ofPlace loc) ∧ ∃ bytes, fs.get? loc = some (.file bytes)

theorem Writes.ne_nil {x : Place} (hx : fs.Writes loc x) : loc ≠ [] := by
  rintro rfl
  rcases hx with ⟨dir, n, -, -, hroot⟩ | ⟨-, bytes, hroot⟩
  · cases hroot
  · cases hroot

theorem Writes.retains {x : Place} (hx : fs.Writes loc x) (bytes : List UInt8) :
    (fs.put loc (.file bytes)).Retains fs := by
  intro k e he
  rw [get?_put_of_ne_nil hx.ne_nil]
  split
  · rename_i hk
    rw [hk] at he
    rcases hx with ⟨dir, n, -, -, hnone⟩ | ⟨-, old, hold⟩
    · rw [hnone] at he
      cases he
    · rw [hold] at he
      exact .inr ⟨old, bytes, (Option.some.inj he).symm, rfl⟩
  · exact .inl he

theorem Writes.eq_ofPlace {stop : Position} (hx : fs.Writes loc (.found stop)) : stop = .ofPlace loc := by
  rcases hx with ⟨dir, n, hx, -⟩ | ⟨hx, -⟩
  · cases hx
  · exact Place.found.inj hx

theorem Writes.get?_put {x : Place} (hx : fs.Writes loc x) (bytes : List UInt8) :
    (fs.put loc (.file bytes)).get? loc = some (.file bytes) := by
  rw [get?_put_of_ne_nil hx.ne_nil, if_pos rfl]

/-- A walk to the file has no step behind the file, as a file is no directory. So where a link is followed
to write, its steps are those that are followed to read. -/
theorem Writes.walks_steps {x : Place} {target : Path} (hx : fs.Writes loc x) (bytes : List UInt8)
    (h : Walks (fs.put loc (.file bytes)) m pos target.writeSteps (.ofPlace loc)) :
    Walks (fs.put loc (.file bytes)) m pos target.steps (.ofPlace loc) := by
  unfold Path.writeSteps at h
  split at h
  · obtain ⟨_, _, _, -, -, hlast⟩ := h.exists_of_append
    cases hlast with
    | here hd hlast =>
      cases hlast
      have hd : (fs.put loc (.file bytes)).get? loc = some .dir := hd
      rw [hx.get?_put] at hd
      cases hd
  · rename_i hslash
    unfold Path.steps
    rw [if_neg hslash]
    exact h

/-- The last step of a walk to write leads to the file, if a link that it comes to does. -/
theorem Writes.exists_walks_last {x : Place} {c : Component} (hx : fs.Writes loc x) (bytes : List UInt8)
    (h : fs.walk .write m pos [c] = .ok x)
    (hlink : ∀ k < m, ∀ target : Path, fs.walk .write k pos target.writeSteps = .ok x →
      ∃ j ≤ k, Walks (fs.put loc (.file bytes)) j pos target.writeSteps (.ofPlace loc)) :
    ∃ j ≤ m, Walks (fs.put loc (.file bytes)) j pos [c] (.ofPlace loc) := by
  have hdir : ∀ {pos}, fs.standing pos = some .dir →
      (fs.put loc (.file bytes)).standing pos = some .dir := (hx.retains bytes).standing_dir
  cases c with
  | root =>
    rw [walk_root, walk_nil] at h
    obtain rfl := Except.ok.inj h
    rw [← hx.eq_ofPlace]
    exact ⟨0, Nat.zero_le m, .root .nil⟩
  | here =>
    rw [walk_here_eq] at h
    obtain ⟨hd, h⟩ := standing_of_fromDir h
    rw [walk_nil] at h
    obtain rfl := Except.ok.inj h
    rw [← hx.eq_ofPlace]
    exact ⟨0, Nat.zero_le m, .here (hdir hd) .nil⟩
  | up =>
    rw [walk_up_eq] at h
    obtain ⟨hd, h⟩ := standing_of_fromDir h
    rw [walk_nil] at h
    obtain rfl := Except.ok.inj h
    rw [← hx.eq_ofPlace]
    exact ⟨0, Nat.zero_le m, .up (hdir hd) .nil⟩
  | name n =>
    obtain ⟨hd, hlost, hn⟩ := of_walk_name h
    rw [walk_name (by decide) hd hlost hn] at h
    split at h
    · rw [if_pos rfl] at h
      obtain rfl := Except.ok.inj h
      have hat := hx.get?_put bytes
      rcases hx with ⟨dir, n', hplace, hloc, -⟩ | ⟨hplace, -⟩
      · cases hplace
        rw [hloc] at hat hdir ⊢
        exact ⟨0, Nat.zero_le m, .name (hdir hd) hlost hn hat (by simp) .nil⟩
      · cases hplace
    · rename_i target he
      cases m with
      | zero => cases h
      | succ m =>
        rw [if_pos rfl] at h
        obtain ⟨j, hj, hw⟩ := hlink m (Nat.lt_succ_self m) target h
        refine ⟨j + 1, Nat.succ_le_succ hj, .link (hdir hd) hlost hn ((hx.retains bytes).get?_link he) ?_⟩
        rw [List.append_nil]
        exact hx.walks_steps bytes hw
    · rename_i e hne he
      rw [walk_nil] at h
      obtain rfl := Except.ok.inj h
      rw [← hx.eq_ofPlace]
      rcases hx.retains bytes _ _ he with hat | ⟨_, bytes', -, hat⟩
      · exact ⟨0, Nat.zero_le m, .name (hdir hd) hlost hn hat hne .nil⟩
      · exact ⟨0, Nat.zero_le m, .name (hdir hd) hlost hn hat (by simp) .nil⟩

/-- Once the file is there, the steps of a walk to write lead to it. -/
theorem Writes.exists_walks {x : Place} (hx : fs.Writes loc x) (bytes : List UInt8)
    (h : fs.walk .write m pos cs = .ok x) :
    ∃ k ≤ m, Walks (fs.put loc (.file bytes)) k pos cs (.ofPlace loc) := by
  -- All steps but the last one are a walk already; at a link the links get fewer.
  induction m using Nat.strongRecOn generalizing pos cs with
  | _ m ih =>
    rcases List.eq_nil_or_concat cs with rfl | ⟨ds, c, rfl⟩
    · rw [walk_nil] at h
      obtain rfl := Except.ok.inj h
      rw [← hx.eq_ofPlace]
      exact ⟨0, Nat.zero_le m, .nil⟩
    · rw [List.concat_eq_append] at h ⊢
      obtain ⟨k, l, mid, hm, hds, hc⟩ := exists_walks_of_walk h (by decide) (.inl (by simp))
      obtain ⟨j, hj, hlast⟩ := hx.exists_walks_last bytes hc fun k hk _ hw => ih k (by omega) hw
      exact ⟨k + j, by omega, (hds.mono (hx.retains bytes)).append hlast⟩

/-- **The path leads to the file that has been written at it.** -/
theorem leads_put_of_writePlace (h : fs.writePlace cwd p = .ok loc) (hslash : p.endsInSlash = false)
    (bytes : List UInt8) : (fs.put loc (.file bytes)).Leads cwd p.pieces (.ofPlace loc) := by
  have hplace := writePlace_vacant_or_file h
  unfold writePlace at h
  obtain ⟨u, -, h⟩ := exists_of_bind_eq_ok h
  obtain ⟨x, hw, h⟩ := exists_of_bind_eq_ok h
  have hsteps : p.writeSteps = p.pieces := by
    unfold Path.writeSteps
    rw [hslash]
    rfl
  have hw : fs.walk .write maxLinks cwd p.writeSteps = .ok x := hw
  rw [hsteps] at hw
  have hx : fs.Writes loc x := by
    split at h
    · obtain rfl := Except.ok.inj h
      exact .inl ⟨_, _, rfl, rfl, get?_of_walk_vacant (by decide) hw⟩
    · rename_i stop _
      split at h
      · rename_i bytes hs
        obtain rfl := Except.ok.inj h
        obtain ⟨hstop, hfile⟩ := get?_of_standing_file hs
        exact .inr ⟨congrArg Place.found hstop, bytes, hfile⟩
      · cases h
      · cases h
  exact hx.exists_walks bytes hw

theorem write_spec {bytes : List UInt8} (h : fs.write cwd p bytes = .ok fs') :
    ∃ loc, fs.writePlace cwd p = .ok loc ∧ fs' = fs.put loc (.file bytes) := by
  unfold write at h
  obtain ⟨loc, hw, h⟩ := exists_of_bind_eq_ok h
  exact ⟨loc, hw, (Except.ok.inj h).symm⟩

theorem retains_of_write {bytes : List UInt8} (h : fs.write cwd p bytes = .ok fs') :
    fs'.Retains fs := by
  obtain ⟨loc, hw, rfl⟩ := write_spec h
  exact retains_put_of_writePlace hw

/-- A link is made at a vacant place, under its name. -/
theorem makeLink_spec {target : Path} (h : fs.makeLink cwd p target = .ok fs') :
    ∃ loc, fs.Names cwd p loc ∧ fs.get? loc = none ∧ fs' = fs.put loc (.link target) := by
  unfold makeLink at h
  obtain ⟨u, -, h⟩ := exists_of_bind_eq_ok h
  obtain ⟨u', hc, h⟩ := exists_of_bind_eq_ok h
  obtain ⟨place, hl, h⟩ := exists_of_bind_eq_ok h
  split at h
  · cases h
  · rename_i dir n
    cases hg : fs.get? (dir ++ [n]) with
    | some e =>
      rw [hg] at h
      cases h
    | none =>
      rw [hg] at h
      refine ⟨dir ++ [n], ⟨hc, dir, n, rfl, hl⟩, hg, ?_⟩
      cases hslash : p.endsInSlash with
      | true =>
        rw [hslash] at h
        cases h
      | false =>
        rw [hslash] at h
        exact (Except.ok.inj h).symm

/-- **A copy puts the bytes of the file it is made from at the place that is written**, unless that
is the place of the file itself. -/
theorem copy_spec (h : fs.copy cwd src dst = .ok fs') :
    ∃ pos bytes loc bytes', fs.locate cwd src = .ok pos ∧ fs.standing pos = some (.file bytes) ∧
      fs.writePlace cwd dst = .ok loc ∧
      (∀ k, fs'.get? k = if k = loc then some (.file bytes') else fs.get? k) ∧
      (pos.place ≠ loc → bytes' = bytes) := by
  unfold copy at h
  obtain ⟨pos, hpos, h⟩ := exists_of_bind_eq_ok h
  split at h
  · rename_i bytes hs
    obtain ⟨loc, hloc, h⟩ := exists_of_bind_eq_ok h
    obtain ⟨bytes', hread, h⟩ := exists_of_bind_eq_ok h
    have hnil : loc ≠ [] := ne_nil_of_writePlace hloc
    refine ⟨pos, bytes, loc, bytes', hpos, hs, hloc, fun k => ?_, fun hne => ?_⟩
    · obtain rfl := Except.ok.inj h
      rw [get?_put_of_ne_nil hnil, get?_put_of_ne_nil hnil]
      split <;> rfl
    · -- Emptying the target has left the bytes of the source where they were.
      have hsame : (fs.put loc (.file [])).standing pos = some (.file bytes) := by
        unfold standing at hs ⊢
        split at hs
        · rename_i hlost
          rw [if_pos hlost, get?_put_of_ne_nil hnil, if_neg hne]
          exact hs
        · cases hs
      unfold FileSystem.read at hread
      rw [hsame] at hread
      cases hread
      rfl
  · cases h

theorem retains_of_copy (h : fs.copy cwd src dst = .ok fs') : fs'.Retains fs := by
  obtain ⟨-, -, loc, bytes', -, -, hloc, hput, -⟩ := copy_spec h
  have hsame : ∀ k, fs'.get? k = (fs.put loc (.file bytes')).get? k := by
    intro k
    rw [hput, get?_put_of_ne_nil (ne_nil_of_writePlace hloc)]
  intro k e he
  rw [hsame]
  exact retains_put_of_writePlace hloc k e he

end SolVendor.FileSystem
