import SolVendor.Proofs.FileSystem.Walks
import SolVendor.Proofs.Path.Pieces
/-!
# FileSystem — what a path leads to, and what it names

A path leads to a position when its pieces are a walk from the working
directory, through no more links than one walk may follow (`Leads`). It
names a place when it ends in a name, and what is before that name leads to
a directory (`Names`); nothing has to stand at the place. The tests and the
lookups of the file system are said in these terms: `locate_eq_ok_iff`,
`isDir_iff`, `lastName_eq_ok_iff`.
-/

namespace SolVendor.FileSystem

variable {fs fs' : FileSystem} {cwd pos mid : Position} {cs ds : List Component} {p q : Path}
  {loc dir : Location} {n : OsString}

/-- What succeeds after another step goes on from the result of that step. -/
theorem exists_of_bind_eq_ok {ε α β : Type} {x : Except ε α} {f : α → Except ε β} {b : β}
    (h : (x >>= f) = .ok b) : ∃ a, x = .ok a ∧ f a = .ok b := by
  cases x with
  | error e => cases h
  | ok a => exact ⟨a, rfl, h⟩

/-! ## Paths that a walk is started for -/

theorem checkPath_eq_ok_iff :
    checkPath p = .ok () ↔
      0 ∉ p.os.bytes ∧ p ≠ .empty ∧ p.os.bytes.length ≤ maxPath := by
  have hsize : ¬ maxPath < p.os.bytes.length ↔ p.os.bytes.length ≤ maxPath := Nat.not_lt
  unfold checkPath checkText
  rw [← hsize]
  by_cases hnul : 0 ∈ p.os.bytes
  · simp [hnul, bind, Except.bind]
  · by_cases hempty : p = .empty
    · simp [hempty, Path.empty, bind, Except.bind]
    · by_cases hlong : maxPath < p.os.bytes.length
      · simp [hnul, hempty, hlong, bind, Except.bind, throw, throwThe, MonadExceptOf.throw]
      · simp [hnul, hempty, hlong, bind, Except.bind, pure, Except.pure]

/-- A path is short enough if one that begins with it is. -/
theorem checkPath_of_prefix (h : checkPath p = .ok ()) (hpre : q.os.bytes <+: p.os.bytes)
    (hne : q ≠ .empty) : checkPath q = .ok () := by
  obtain ⟨hnul, -, hsize⟩ := checkPath_eq_ok_iff.1 h
  obtain ⟨rest, hrest⟩ := hpre
  refine checkPath_eq_ok_iff.2 ⟨fun hmem => hnul ?_, hne, ?_⟩
  · rw [← hrest]
    exact List.mem_append_left _ hmem
  · rw [← hrest, List.length_append] at hsize
    omega

/-! ## Leading somewhere -/

/-- The steps lead to a position, through no more links than one walk may follow. -/
def Leads (fs : FileSystem) (cwd : Position) (cs : List Component) (pos : Position) : Prop :=
  ∃ k ≤ maxLinks, Walks fs k cwd cs pos

theorem Leads.unique {pos' : Position} (h : fs.Leads cwd cs pos) (h' : fs.Leads cwd cs pos') :
    pos = pos' := by
  obtain ⟨k, -, hw⟩ := h
  obtain ⟨l, -, hw'⟩ := h'
  exact (hw.unique hw').2

theorem Leads.retained (h : fs.Leads cwd cs pos) (hfs : fs'.Retains fs) : fs'.Leads cwd cs pos := by
  obtain ⟨k, hk, hw⟩ := h
  exact ⟨k, hk, hw.mono hfs⟩

theorem Leads.mono (h : fs.Leads cwd cs pos) (hfs : fs'.Extends fs) : fs'.Leads cwd cs pos :=
  h.retained hfs.retains

/-- The first steps lead somewhere, and the rest is a walk from there. -/
theorem Leads.exists_of_append (h : fs.Leads cwd (cs ++ ds) pos) :
    ∃ mid l, fs.Leads cwd cs mid ∧ Walks fs l mid ds pos := by
  obtain ⟨m, hm, hw⟩ := h
  obtain ⟨k, l, mid, hkl, hcs, hds⟩ := hw.exists_of_append
  exact ⟨mid, l, ⟨k, by omega, hcs⟩, hds⟩

/-- A walk that follows no link can be added. -/
theorem Leads.append (h : fs.Leads cwd cs mid) (h' : Walks fs 0 mid ds pos) :
    fs.Leads cwd (cs ++ ds) pos := by
  obtain ⟨k, hk, hw⟩ := h
  exact ⟨k, hk, hw.append h'⟩

/-- One more name leads to the place below, if no link is there. -/
theorem Leads.concat {e : Entry} (h : fs.Leads cwd cs (.ofPlace dir))
    (hd : fs.get? dir = some .dir) (hn : isTooLong n = false)
    (he : fs.get? (dir ++ [n]) = some e) (hlink : ∀ target, e ≠ .link target) :
    fs.Leads cwd (cs ++ [.name n]) (.ofPlace (dir ++ [n])) :=
  h.append (.name hd rfl hn he hlink .nil)

/-- A name at which there is no link leads to its own place. -/
theorem Walks.eq_of_name {l : Nat} (h : Walks fs l (.ofPlace dir) [.name n] pos)
    (hat : fs.get? (dir ++ [n]) = none ∨ fs.get? (dir ++ [n]) = some .dir) :
    pos = .ofPlace (dir ++ [n]) ∧ fs.get? (dir ++ [n]) = some .dir := by
  cases h with
  | @name _ _ _ _ _ e _ _ _ he _ hw =>
    cases hw
    have he : fs.get? (dir ++ [n]) = some e := he
    refine ⟨rfl, ?_⟩
    rcases hat with hnone | hdir
    · rw [hnone] at he
      cases he
    · exact hdir
  | @link _ _ _ _ _ target _ _ _ he _ =>
    have he : fs.get? (dir ++ [n]) = some (.link target) := he
    rcases hat with hat | hat
    · rw [hat] at he
      cases he
    · rw [hat] at he
      cases he

/-- Dots lead nowhere else. -/
theorem Walks.eq_of_dots {l k : Nat} (h : Walks fs l mid (List.replicate k .here) pos) :
    mid = pos := by
  induction k with
  | zero =>
    cases h
    rfl
  | succ k ih =>
    cases h with
    | here _ h => exact ih h

theorem walks_dots (hd : fs.standing pos = some .dir) (k : Nat) :
    Walks fs 0 pos (List.replicate k .here) pos := by
  induction k with
  | zero => exact .nil
  | succ k ih => exact .here hd ih

theorem Leads.append_dots (h : fs.Leads cwd cs pos) (hd : fs.standing pos = some .dir) (k : Nat) :
    fs.Leads cwd (cs ++ List.replicate k .here) pos :=
  h.append (walks_dots hd k)

/-- What more steps go on from is a directory, unless they go to the root. -/
theorem Walks.standing_of_ne_nil {l : Nat} (h : Walks fs l mid ds pos) (hne : ds ≠ [])
    (hroot : .root ∉ ds) : fs.standing mid = some .dir := by
  cases h with
  | nil => exact absurd rfl hne
  | root _ => exact absurd List.mem_cons_self hroot
  | here hd _ => exact hd
  | up hd _ => exact hd
  | name hd _ _ _ _ _ => exact hd
  | link hd _ _ _ _ => exact hd

/-- Dots before more steps make no difference. -/
theorem Leads.insert_dots (h : fs.Leads cwd (cs ++ ds) pos) (hne : ds ≠ []) (hroot : .root ∉ ds)
    (k : Nat) : fs.Leads cwd ((cs ++ List.replicate k .here) ++ ds) pos := by
  obtain ⟨m, hm, hw⟩ := h
  obtain ⟨a, l, mid, rfl, hcs, hds⟩ := hw.exists_of_append
  have hdots := walks_dots (hds.standing_of_ne_nil hne hroot) k
  exact ⟨a + l, hm, (hcs.append hdots).append hds⟩

/-- The working directory is one, even if it has been removed. -/
theorem standing_of_get? (h : fs.get? pos.place = some .dir) : fs.standing pos = some .dir := by
  unfold standing
  split
  · exact h
  · rfl

/-- A file that is found stands at a place. -/
theorem get?_of_standing_file {bytes : List UInt8} (hs : fs.standing pos = some (.file bytes)) :
    pos = .ofPlace pos.place ∧ fs.get? pos.place = some (.file bytes) := by
  unfold standing at hs
  split at hs
  · rename_i hlost
    exact ⟨congrArg (Position.mk pos.place) hlost, hs⟩
  · cases hs

/-- The root comes first or not at all. -/
theorem root_notMem_of_append (h : p.pieces = cs ++ ds) (hcs : cs ≠ []) : .root ∉ ds := by
  intro hmem
  rw [Path.pieces_eq] at h
  obtain ⟨c, cs, rfl⟩ := List.exists_cons_of_ne_nil hcs
  have htail : .root ∈ Path.piecesOf p.os.bytes := by
    have hin : .root ∈ cs ++ ds := List.mem_append_right _ hmem
    split at h
    · rw [List.singleton_append, List.cons_append] at h
      rw [(List.cons.inj h).2]
      exact hin
    · rw [List.nil_append] at h
      rw [h]
      exact List.mem_cons_of_mem _ hin
  exact Component.not_isWritten_root (Path.isWritten_of_mem_piecesOf htail)

/-- **Something stands wherever a path passes through.** -/
theorem exists_standing_of_leads {e : Entry} (hcwd : fs.get? cwd.place = some .dir)
    (h : fs.Leads cwd p.pieces pos) (he : fs.standing pos = some e) (hcs : cs <+: p.pieces) :
    ∃ mid e, fs.Leads cwd cs mid ∧ fs.standing mid = some e := by
  obtain ⟨ds, hds⟩ := hcs
  rw [← hds] at h
  obtain ⟨mid, l, hmid, hw⟩ := h.exists_of_append
  by_cases hnil : cs = []
  · subst hnil
    exact ⟨cwd, .dir, ⟨0, Nat.zero_le _, .nil⟩, standing_of_get? hcwd⟩
  · refine ⟨mid, ?_⟩
    cases ds with
    | nil =>
      cases hw
      exact ⟨e, hmid, he⟩
    | cons d ds =>
      have hroot := root_notMem_of_append hds.symm hnil
      exact ⟨.dir, hmid, hw.standing_of_ne_nil (List.cons_ne_nil d ds) hroot⟩

/-! ## The lookups of a path -/

theorem locate_eq_ok_iff :
    fs.locate cwd p = .ok pos ↔ checkPath p = .ok () ∧ fs.Leads cwd p.steps pos := by
  have hfind : fs.resolve .find cwd p = fs.walk .find maxLinks cwd p.steps := rfl
  unfold locate Leads
  rw [hfind, ← walk_find_eq_ok_iff]
  cases hc : checkPath p with
  | error e => simp [bind, Except.bind]
  | ok u =>
    cases hw : fs.walk .find maxLinks cwd p.steps with
    | error e => simp [bind, Except.bind]
    | ok place =>
      cases place with
      | found pos' => simp [bind, Except.bind, pure, Except.pure]
      | vacant dir n =>
        simp [bind, Except.bind, throw, throwThe, MonadExceptOf.throw]

theorem entryAt_eq_ok_iff {e : Entry} :
    fs.entryAt cwd p = .ok e ↔ ∃ pos, fs.locate cwd p = .ok pos ∧ fs.standing pos = some e := by
  unfold entryAt
  cases hl : fs.locate cwd p with
  | error e' => simp [bind, Except.bind]
  | ok pos =>
    cases hs : fs.standing pos with
    | none => simp [hs, bind, Except.bind, throw, throwThe, MonadExceptOf.throw]
    | some e' => simp [hs, bind, Except.bind, pure, Except.pure]

theorem isDir_iff :
    fs.isDir cwd p = true ↔
      ∃ pos, fs.locate cwd p = .ok pos ∧ fs.standing pos = some .dir := by
  rw [← entryAt_eq_ok_iff]
  unfold isDir
  split
  · rename_i h
    simp [h]
  · rename_i h
    simp only [Bool.false_eq_true, false_iff]
    exact h

theorem isFile_iff :
    fs.isFile cwd p = true ↔
      ∃ pos bytes, fs.locate cwd p = .ok pos ∧ fs.standing pos = some (.file bytes) := by
  have hfile : fs.isFile cwd p = true ↔ ∃ bytes, fs.entryAt cwd p = .ok (.file bytes) := by
    unfold isFile
    split
    · rename_i bytes h
      simp [h]
    · rename_i h
      simp only [Bool.false_eq_true, false_iff, not_exists]
      exact h
  rw [hfile, exists_comm]
  simp only [entryAt_eq_ok_iff]

theorem pathExists_iff :
    fs.pathExists cwd p = true ↔
      ∃ pos e, fs.locate cwd p = .ok pos ∧ fs.standing pos = some e := by
  have hex : fs.pathExists cwd p = true ↔ ∃ e, fs.entryAt cwd p = .ok e := by
    unfold pathExists
    cases fs.entryAt cwd p <;> simp
  rw [hex, exists_comm]
  simp only [entryAt_eq_ok_iff]

/-- A slash at the end leads nowhere else. -/
theorem leads_pieces_of_steps (h : fs.Leads cwd p.steps pos) : fs.Leads cwd p.pieces pos := by
  unfold Path.steps at h
  split at h
  · obtain ⟨mid, l, hl, hw⟩ := h.exists_of_append
    cases hw with
    | here _ hw =>
      cases hw
      exact hl
  · exact h

/-- What ends in a slash has to be a directory. -/
theorem leads_steps_of_pieces (h : fs.Leads cwd p.pieces pos)
    (hd : p.endsInSlash = false ∨ fs.standing pos = some .dir) : fs.Leads cwd p.steps pos := by
  unfold Path.steps
  split
  · rename_i hslash
    rcases hd with hd | hd
    · rw [hd] at hslash
      cases hslash
    · exact h.append (.here hd .nil)
  · exact h

/-! ## Naming a place -/

/-- The steps end in a name, and those before it lead to a directory that stands: they stand for the
place of that name. -/
theorem lastName_eq_ok_iff :
    fs.lastName cwd cs = .ok (some (dir, n)) ↔
      ∃ ds, cs = ds ++ [.name n] ∧ fs.Leads cwd ds (.ofPlace dir) ∧ fs.get? dir = some .dir ∧
        isTooLong n = false := by
  unfold Leads
  constructor
  · intro h
    unfold lastName at h
    obtain ⟨place, hw, h⟩ := exists_of_bind_eq_ok h
    split at h
    · cases h
    · rename_i pos
      split at h
      · cases h
      · cases h
      · cases h
      · rename_i hs
        split at h
        · rename_i m hlast
          split at h
          · cases h
          · rename_i hlost
            split at h
            · cases h
            · rename_i hn
              cases h
              have hpos : pos = .ofPlace pos.place := by
                have hzero : pos.lost = 0 := by omega
                cases pos
                rw [Position.ofPlace, ← hzero]
              refine ⟨cs.dropLast, ?_, ?_, ?_, by simpa using hn⟩
              · obtain ⟨ys, hys⟩ := List.getLast?_eq_some_iff.1 hlast
                rw [hys, List.dropLast_concat]
              · rw [← hpos]
                exact walk_find_eq_ok_iff.1 hw
              · unfold standing at hs
                rwa [if_pos (by omega)] at hs
        · cases h
  · rintro ⟨ds, rfl, hl, hd, hn⟩
    have hw := walk_find_eq_ok_iff.2 hl
    have hs : fs.standing (.ofPlace dir) = some .dir := hd
    unfold lastName
    rw [List.dropLast_concat, hw]
    simp only [bind, Except.bind]
    rw [hs, List.getLast?_concat]
    simp only [Position.ofPlace, hn]
    rfl

/-- The path is the name of a place, in a directory that stands. -/
def Names (fs : FileSystem) (cwd : Position) (p : Path) (loc : Location) : Prop :=
  checkPath p = .ok () ∧
    ∃ dir n, loc = dir ++ [n] ∧ fs.lastName cwd p.pieces = .ok (some (dir, n))

theorem names_iff :
    fs.Names cwd p loc ↔
      checkPath p = .ok () ∧ ∃ ds dir n, p.pieces = ds ++ [.name n] ∧ loc = dir ++ [n] ∧
        fs.Leads cwd ds (.ofPlace dir) ∧ fs.get? dir = some .dir ∧ isTooLong n = false := by
  unfold Names
  simp only [lastName_eq_ok_iff]
  constructor
  · rintro ⟨hc, dir, n, hloc, ds, hp, hl, hd, hn⟩
    exact ⟨hc, ds, dir, n, hp, hloc, hl, hd, hn⟩
  · rintro ⟨hc, ds, dir, n, hp, hloc, hl, hd, hn⟩
    exact ⟨hc, dir, n, hloc, ds, hp, hl, hd, hn⟩

/-- A path names one place only. -/
theorem Names.unique {loc' : Location} (h : fs.Names cwd p loc) (h' : fs.Names cwd p loc') :
    loc = loc' := by
  obtain ⟨-, dir, n, rfl, hl⟩ := h
  obtain ⟨-, dir', n', rfl, hl'⟩ := h'
  rw [hl] at hl'
  cases hl'
  rfl

/-- What is named is in a directory. -/
theorem Names.exists_concat (h : fs.Names cwd p loc) : ∃ dir n, loc = dir ++ [n] := by
  obtain ⟨-, dir, n, hloc, -⟩ := h
  exact ⟨dir, n, hloc⟩

/-- The root has no name. -/
theorem Names.ne_nil (h : fs.Names cwd p loc) : loc ≠ [] := by
  obtain ⟨-, dir, n, rfl, -⟩ := h
  exact List.append_ne_nil_of_right_ne_nil _ (List.cons_ne_nil _ _)

/-- A name stays as long as nothing is lost but the bytes of files. -/
theorem Names.retained (h : fs.Names cwd p loc) (hfs : fs'.Retains fs) : fs'.Names cwd p loc := by
  obtain ⟨hc, ds, dir, n, hp, hloc, hl, hd, hn⟩ := names_iff.1 h
  exact names_iff.2 ⟨hc, ds, dir, n, hp, hloc, hl.retained hfs, hfs.get?_dir hd, hn⟩

/-- More entries leave the name of a place as it is. -/
theorem Names.mono (h : fs.Names cwd p loc) (hfs : fs'.Extends fs) : fs'.Names cwd p loc :=
  h.retained hfs.retains

/-- Where a path leads by some of the entries only, they hold each name that it passes through, and
something stands there. -/
theorem Names.of_leads (h : fs.Names cwd q loc) (hfs : fs.Extends fs') (hl : fs'.Leads cwd cs pos)
    (hq : q.pieces <+: cs) : fs'.Names cwd q loc ∧ ∃ e, fs'.get? loc = some e := by
  obtain ⟨hc, ds, dir, n, hds, rfl, hdir, -, hn⟩ := names_iff.1 h
  obtain ⟨rest, rfl⟩ := hq
  rw [hds, List.append_assoc] at hl
  obtain ⟨mid, l, hmid, hw⟩ := hl.exists_of_append
  obtain rfl := (hmid.mono hfs).unique hdir
  have hnames : fs'.standing (.ofPlace dir) = some .dir → fs'.Names cwd q (dir ++ [n]) :=
    fun hd => names_iff.2 ⟨hc, ds, dir, n, hds, rfl, hmid, hd, hn⟩
  cases hw with
  | name hd _ _ he _ _ => exact ⟨hnames hd, _, he⟩
  | link hd _ _ he _ => exact ⟨hnames hd, _, he⟩

/-- **What stands under its name is what the path leads to**, if it is no link. -/
theorem Names.leads {e : Entry} (h : fs.Names cwd p loc) (he : fs.get? loc = some e)
    (hlink : ∀ target, e ≠ .link target) : fs.Leads cwd p.pieces (.ofPlace loc) := by
  obtain ⟨-, ds, dir, n, hp, rfl, hl, hd, hn⟩ := names_iff.1 h
  rw [hp]
  exact hl.concat hd hn he hlink

end SolVendor.FileSystem
