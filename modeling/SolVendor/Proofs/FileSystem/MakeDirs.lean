import SolVendor.FileSystem.Change
import SolVendor.FileSystem.Lemmas
import SolVendor.Proofs.FileSystem.Naming
import SolVendor.Proofs.Path.Parent
/-!
# FileSystem — making directories

Making a directory with those above it that are missing only adds
directories, each at the place that the path or one above it names
(`addsDirs_makeDirs`). That is so however it ends; if it succeeds, the path
leads to a directory (`isDir_of_makeDirs`). Where a path leads to a
directory already nothing is made (`get?_makeDirs_of_leads`).
-/

namespace SolVendor.FileSystem

variable {fs fs' : FileSystem} {cwd pos : Position} {p q : Path} {ps : List Path}
  {loc k : Location} {e : Entry}

/-- A vacant place is below the root. -/
theorem ne_nil_of_get?_eq_none (h : fs.get? loc = none) : loc ≠ [] := by
  rintro rfl
  cases h

theorem get?_put_of_ne_nil (hloc : loc ≠ []) (k : Location) :
    (fs.put loc e).get? k = if k = loc then some e else fs.get? k := by
  by_cases hk : k = []
  · subst hk
    rw [if_neg (Ne.symm hloc), get?_root, get?_root]
  · exact get?_put hk

/-- What is put at a vacant place hides nothing. -/
theorem extends_put (h : fs.get? loc = none) : (fs.put loc e).Extends fs := by
  intro k e' he
  have hne : k ≠ loc := by
    rintro rfl
    rw [h] at he
    cases he
  rw [get?_put_of_ne_nil (ne_nil_of_get?_eq_none h), if_neg hne, he]

/-- A path is that of a directory if one stands under its name. -/
theorem Names.isDir (h : fs.Names cwd p loc) (hd : fs.get? loc = some .dir) :
    fs.isDir cwd p = true := by
  have hs : fs.standing (.ofPlace loc) = some .dir := hd
  refine isDir_iff.2 ⟨.ofPlace loc, locate_eq_ok_iff.2 ⟨h.1, ?_⟩, hs⟩
  exact leads_steps_of_pieces (h.leads hd (by simp)) (.inr hs)

/-- One directory is made at a vacant place, under its name. -/
theorem makeDir_eq_ok_iff :
    fs.makeDir cwd p = .ok fs' ↔
      ∃ loc, fs.Names cwd p loc ∧ fs.get? loc = none ∧ fs' = fs.put loc .dir := by
  unfold makeDir Names
  cases hc : checkPath p with
  | error e => simp [bind, Except.bind]
  | ok u =>
    simp only [bind, Except.bind, true_and]
    cases hl : fs.lastName cwd p.pieces with
    | error e => simp
    | ok place =>
      cases place with
      | none => simp [throw, throwThe, MonadExceptOf.throw]
      | some place =>
        obtain ⟨dir, n⟩ := place
        cases hg : fs.get? (dir ++ [n]) with
        | none =>
          simp only [hg, Except.ok.injEq, Option.some.injEq, Prod.mk.injEq]
          constructor
          · intro h
            cases h
            exact ⟨_, ⟨dir, n, rfl, rfl, rfl⟩, hg, rfl⟩
          · rintro ⟨loc, ⟨dir', n', rfl, rfl, rfl⟩, -, rfl⟩
            rfl
        | some e =>
          simp only [hg, Except.ok.injEq, Option.some.injEq, Prod.mk.injEq]
          constructor
          · intro h
            cases h
          · rintro ⟨loc, ⟨dir', n', rfl, rfl, rfl⟩, hnone, -⟩
            rw [hg] at hnone
            cases hnone

/-- The path of a directory that was made leads to it. -/
theorem isDir_of_makeDir (h : fs.makeDir cwd p = .ok fs') : fs'.isDir cwd p = true := by
  obtain ⟨loc, hname, hnone, rfl⟩ := makeDir_eq_ok_iff.1 h
  refine (hname.mono (extends_put hnone)).isDir ?_
  rw [get?_put_of_ne_nil hname.ne_nil, if_pos rfl]

/-! ## Several directories -/

/-- From one file system to the other only directories have been added, each under the name of one
of the paths. -/
structure AddsDirs (fs : FileSystem) (cwd : Position) (ps : List Path) (fs' : FileSystem) : Prop where
  extends_old : fs'.Extends fs
  added : ∀ {loc e}, fs'.get? loc = some e → fs.get? loc = none →
    e = .dir ∧ ∃ q ∈ ps, fs'.Names cwd q loc

theorem AddsDirs.refl (fs : FileSystem) (cwd : Position) (ps : List Path) :
    fs.AddsDirs cwd ps fs where
  extends_old := .refl fs
  added he hn := by
    rw [hn] at he
    cases he

theorem AddsDirs.cons (h : fs.AddsDirs cwd ps fs') : fs.AddsDirs cwd (p :: ps) fs' where
  extends_old := h.extends_old
  added he hn := by
    obtain ⟨hdir, q, hq, hname⟩ := h.added he hn
    exact ⟨hdir, q, List.mem_cons_of_mem p hq, hname⟩

/-- No link is added. -/
theorem AddsDirs.get?_link (h : fs.AddsDirs cwd ps fs') {target : Path}
    (hlink : fs'.get? loc = some (.link target)) : fs.get? loc = some (.link target) := by
  cases hold : fs.get? loc with
  | some e =>
    rw [h.extends_old _ _ hold] at hlink
    exact hlink
  | none =>
    obtain ⟨hdir, -⟩ := h.added hlink hold
    cases hdir

/-- One more directory. -/
theorem AddsDirs.put (h : fs.AddsDirs cwd ps fs') (hname : fs'.Names cwd p loc)
    (hnone : fs'.get? loc = none) (hp : p ∈ ps) : fs.AddsDirs cwd ps (fs'.put loc .dir) where
  extends_old := (extends_put hnone).trans h.extends_old
  added {k e} he hn := by
    rw [get?_put_of_ne_nil hname.ne_nil] at he
    split at he
    · rename_i hk
      subst hk
      exact ⟨(Option.some.inj he).symm, p, hp, hname.mono (extends_put hnone)⟩
    · obtain ⟨hdir, q, hq, hqname⟩ := h.added he hn
      exact ⟨hdir, q, hq, hqname.mono (extends_put hnone)⟩

/-- **Making the first of some paths adds directories under their names**, and if it succeeds that
path leads to a directory. -/
theorem makeFirst_spec (cwd : Position) (ps : List Path) (fs : FileSystem) :
    fs.AddsDirs cwd ps (makeFirst cwd ps fs).2 ∧
      ((makeFirst cwd ps fs).1 = .ok () → ∀ p ∈ ps.head?,
        p = .empty ∨ (makeFirst cwd ps fs).2.isDir cwd p = true) := by
  induction ps generalizing fs with
  | nil => exact ⟨.refl fs cwd [], fun h => by cases h⟩
  | cons p ps ih =>
    obtain ⟨habove, -⟩ := ih fs
    unfold makeFirst
    split
    · rename_i hempty
      exact ⟨.refl fs cwd _, fun _ q hq => .inl (Option.some.inj hq ▸ hempty)⟩
    · split
      · rename_i fs' hok
        refine ⟨?_, fun _ q hq => .inr (Option.some.inj hq ▸ isDir_of_makeDir hok)⟩
        obtain ⟨loc, hname, hnone, rfl⟩ := makeDir_eq_ok_iff.1 hok
        exact (AddsDirs.refl fs cwd _).put hname hnone List.mem_cons_self
      · -- The directory above is missing: those above are made first.
        split
        · rename_i e fs' hmk
          rw [hmk] at habove
          exact ⟨habove.cons, fun h => by cases h⟩
        · rename_i fs' hmk
          rw [hmk] at habove
          split
          · rename_i fs'' hok
            refine ⟨?_, fun _ q hq => .inr (Option.some.inj hq ▸ isDir_of_makeDir hok)⟩
            obtain ⟨loc, hname, hnone, rfl⟩ := makeDir_eq_ok_iff.1 hok
            exact habove.cons.put hname hnone List.mem_cons_self
          · refine ⟨habove.cons, fun h q hq => .inr ?_⟩
            obtain rfl := Option.some.inj hq
            simp only at h
            split at h
            · assumption
            · cases h
      · refine ⟨.refl fs cwd _, fun h q hq => .inr ?_⟩
        obtain rfl := Option.some.inj hq
        simp only at h
        split at h
        · assumption
        · cases h

/-- The paths above a path begin with the path itself. -/
theorem head?_ancestors (p : Path) : p.ancestors.head? = some p := by
  unfold Path.ancestors Path.ancestors.go
  split <;> rfl

/-- **Making a directory with those above it only adds directories**, also if it fails. -/
theorem addsDirs_makeDirs (fs : FileSystem) (cwd : Position) (p : Path) :
    fs.AddsDirs cwd p.ancestors (fs.makeDirs cwd p).2 :=
  (makeFirst_spec cwd p.ancestors fs).1

theorem isDir_of_makeDirs (h : (fs.makeDirs cwd p).1 = .ok ()) :
    p = .empty ∨ (fs.makeDirs cwd p).2.isDir cwd p = true :=
  (makeFirst_spec cwd p.ancestors fs).2 h p (head?_ancestors p)

/-- **The path leads to a directory then**; the empty path leads to the working directory. -/
theorem exists_leads_of_makeDirs (hcwd : fs.get? cwd.place = some .dir)
    (h : (fs.makeDirs cwd p).1 = .ok ()) :
    ∃ pos, (fs.makeDirs cwd p).2.Leads cwd p.pieces pos ∧
      (fs.makeDirs cwd p).2.standing pos = some .dir := by
  rcases isDir_of_makeDirs h with hempty | hdir
  · rw [Path.pieces_empty hempty]
    have hcwd := (addsDirs_makeDirs fs cwd p).extends_old _ _ hcwd
    exact ⟨cwd, ⟨0, Nat.zero_le _, .nil⟩, standing_of_get? hcwd⟩
  · obtain ⟨pos, hpos, hs⟩ := isDir_iff.1 hdir
    exact ⟨pos, leads_pieces_of_steps (locate_eq_ok_iff.1 hpos).2, hs⟩

/-- **At a vacant place one directory is enough.** -/
theorem makeDirs_of_names (h : fs.Names cwd p loc) (hnone : fs.get? loc = none) :
    fs.makeDirs cwd p = (.ok (), fs.put loc .dir) := by
  have hmake : fs.makeDir cwd p = .ok (fs.put loc .dir) := makeDir_eq_ok_iff.2 ⟨loc, h, hnone, rfl⟩
  have hne : p ≠ .empty := (checkPath_eq_ok_iff.1 h.1).2.1
  obtain ⟨above, habove⟩ : ∃ above, p.ancestors = p :: above :=
    List.head?_eq_some_iff.1 (head?_ancestors p)
  unfold makeDirs
  rw [habove, makeFirst, if_neg hne, hmake]

/-! ## Directories that are there already -/

/-- What a path passed through before is not added. -/
theorem AddsDirs.exists_get?_of_leads (h : fs.AddsDirs cwd ps fs')
    (hcwd : fs.get? cwd.place = some .dir) (hl : fs.Leads cwd p.pieces pos)
    (he : fs.standing pos = some e) (hname : fs'.Names cwd q loc) (hd : fs'.get? loc = some .dir)
    (hq : q.pieces <+: p.pieces) : ∃ e, fs.get? loc = some e := by
  obtain ⟨mid, e', hmid, hs⟩ := exists_standing_of_leads hcwd hl he hq
  have hloc : mid = .ofPlace loc :=
    (hmid.mono h.extends_old).unique (hname.leads hd (by simp))
  rw [hloc] at hs
  exact ⟨e', hs⟩

/-- **Nothing is made where the path leads somewhere already.** -/
theorem get?_makeDirs_of_leads (hcwd : fs.get? cwd.place = some .dir)
    (hl : fs.Leads cwd p.pieces pos) (he : fs.standing pos = some e) (k : Location) :
    (fs.makeDirs cwd p).2.get? k = fs.get? k := by
  have h := addsDirs_makeDirs fs cwd p
  cases hk : fs.get? k with
  | some e' => exact h.extends_old k e' hk
  | none =>
    rw [Option.eq_none_iff_forall_ne_some]
    intro e' hk'
    obtain ⟨rfl, q, hq, hname⟩ := h.added hk' hk
    obtain ⟨e, hsome⟩ := h.exists_get?_of_leads hcwd hl he hname hk'
      (Path.prefix_of_mem_ancestors hq)
    rw [hk] at hsome
    cases hsome

/-- Making the first of some paths leaves the file system itself, or there is a new directory. -/
theorem makeFirst_eq_or_exists (cwd : Position) (ps : List Path) (fs : FileSystem) :
    (makeFirst cwd ps fs).2 = fs ∨
      ∃ k, fs.get? k = none ∧ (makeFirst cwd ps fs).2.get? k = some .dir := by
  have hmade : ∀ {fs fs' : FileSystem} {p : Path}, fs.makeDir cwd p = .ok fs' →
      ∃ k, fs.get? k = none ∧ fs'.get? k = some .dir := by
    intro fs fs' p h
    obtain ⟨loc, hname, hnone, rfl⟩ := makeDir_eq_ok_iff.1 h
    exact ⟨loc, hnone, by rw [get?_put_of_ne_nil hname.ne_nil, if_pos rfl]⟩
  induction ps generalizing fs with
  | nil => exact .inl rfl
  | cons p ps ih =>
    have habove := ih fs
    unfold makeFirst
    split
    · exact .inl rfl
    · split
      · rename_i hok
        exact .inr (hmade hok)
      · -- What has been made above stays.
        split
        · rename_i hmk
          rw [hmk] at habove
          exact habove
        · rename_i fs' hmk
          rw [hmk] at habove
          split
          · rename_i fs'' hok
            rcases habove with heq | ⟨k, hnone, hdir⟩
            · have heq : fs' = fs := heq
              subst heq
              exact .inr (hmade hok)
            · obtain ⟨loc, -, hvacant, rfl⟩ := makeDir_eq_ok_iff.1 hok
              exact .inr ⟨k, hnone, extends_put hvacant k _ hdir⟩
          · exact habove
      · exact .inl rfl

/-- **Where the path leads somewhere already the file system itself is left.** -/
theorem makeDirs_eq_of_leads (hcwd : fs.get? cwd.place = some .dir)
    (hl : fs.Leads cwd p.pieces pos) (he : fs.standing pos = some e) :
    (fs.makeDirs cwd p).2 = fs := by
  rcases makeFirst_eq_or_exists cwd p.ancestors fs with heq | ⟨k, hnone, hdir⟩
  · exact heq
  · have hsame := get?_makeDirs_of_leads hcwd hl he k
    rw [hnone] at hsame
    have hdir : (fs.makeDirs cwd p).2.get? k = some .dir := hdir
    rw [hsame] at hdir
    cases hdir

end SolVendor.FileSystem
