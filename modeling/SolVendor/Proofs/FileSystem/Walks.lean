import SolVendor.FileSystem.Walk
/-!
# FileSystem — walks as a relation

`Walks` says that a walk of some steps leads from one position to another,
and how many links it follows. What is missing or no directory has no walk.
The relation is the walk that is computed, cut at any step: a walk of more
steps goes on from where the first ones lead, with the links that are left
(`Walks.walk_append`, `exists_walks_of_walk`).

Where a walk leads is determined (`Walks.unique`), and more entries leave
it as it is (`Walks.mono`).
-/

namespace SolVendor.FileSystem

variable {fs : FileSystem} {pos mid stop : Position} {cs ds : List Component} {k l m : Nat}

/-- The steps lead from one position to another, through so many links. -/
inductive Walks (fs : FileSystem) : Nat → Position → List Component → Position → Prop
  | nil {pos : Position} : Walks fs 0 pos [] pos
  | root {k : Nat} {pos stop : Position} {cs : List Component} :
      Walks fs k (.ofPlace []) cs stop → Walks fs k pos (.root :: cs) stop
  | here {k : Nat} {pos stop : Position} {cs : List Component} :
      fs.standing pos = some .dir → Walks fs k pos cs stop → Walks fs k pos (.here :: cs) stop
  | up {k : Nat} {pos stop : Position} {cs : List Component} :
      fs.standing pos = some .dir → Walks fs k pos.up cs stop → Walks fs k pos (.up :: cs) stop
  | name {k : Nat} {pos stop : Position} {cs : List Component} {n : OsString} {e : Entry} :
      fs.standing pos = some .dir → pos.lost = 0 → isTooLong n = false →
      fs.get? (pos.place ++ [n]) = some e → (∀ target, e ≠ .link target) →
      Walks fs k (.ofPlace (pos.place ++ [n])) cs stop → Walks fs k pos (.name n :: cs) stop
  | link {k : Nat} {pos stop : Position} {cs : List Component} {n : OsString} {target : Path} :
      fs.standing pos = some .dir → pos.lost = 0 → isTooLong n = false →
      fs.get? (pos.place ++ [n]) = some (.link target) →
      Walks fs k pos (target.steps ++ cs) stop → Walks fs (k + 1) pos (.name n :: cs) stop

/-! ## The walk that is computed, step by step -/

section Computed

variable {purpose : Purpose} {n : OsString} {e : Entry} {target : Path}

@[simp] theorem walk_nil : fs.walk purpose m pos [] = .ok (.found pos) := by
  cases m <;> rfl

@[simp] theorem walk_root :
    fs.walk purpose m pos (.root :: cs) = fs.walk purpose m (.ofPlace []) cs := by
  cases m <;> rfl

/-- Every step but that to the root is taken from a directory. -/
def fromDir (fs : FileSystem) (pos : Position) (go : Except FileError Place) :
    Except FileError Place :=
  match fs.standing pos with
  | none => .error .notFound
  | some (.file _) | some (.link _) => .error .notDirectory
  | some .dir => go

theorem standing_of_fromDir {go : Except FileError Place} {x : Place}
    (h : fs.fromDir pos go = .ok x) : fs.standing pos = some .dir ∧ go = .ok x := by
  unfold fromDir at h
  split at h
  · cases h
  · cases h
  · cases h
  · rename_i hd
    exact ⟨hd, h⟩

/-- What is left to do at a link. -/
def jump (fs : FileSystem) (purpose : Purpose) :
    Nat → Position → List Component → Except FileError Place
  | 0 => fun _ _ => .error .tooManyLinks
  | links + 1 => fs.walk purpose links

theorem walk_here_eq :
    fs.walk purpose m pos (.here :: cs) = fs.fromDir pos (fs.walk purpose m pos cs) := by
  cases m <;> rfl

theorem walk_up_eq :
    fs.walk purpose m pos (.up :: cs) = fs.fromDir pos (fs.walk purpose m pos.up cs) := by
  cases m <;> rfl

theorem walk_name_eq :
    fs.walk purpose m pos (.name n :: cs) = fs.fromDir pos
      (if 0 < pos.lost then .error .notFound
      else if isTooLong n || purpose.isBeyond (pos.place ++ [n]) then .error .nameTooLong
      else
        match fs.get? (pos.place ++ [n]) with
        | none => if cs = [] then .ok (.vacant pos.place n) else .error .notFound
        | some (.link target) =>
          fs.jump purpose m pos (if cs = [] then purpose.steps target else target.steps ++ cs)
        | some _ => fs.walk purpose m (.ofPlace (pos.place ++ [n])) cs) := by
  cases m <;> rfl

theorem fromDir_of_standing {go : Except FileError Place} (hd : fs.standing pos = some .dir) :
    fs.fromDir pos go = go := by
  unfold fromDir
  rw [hd]

/-- Only to find a canonical path are places looked up by their paths. -/
theorem isBeyond_eq_false (hp : purpose ≠ .name) (loc : Location) :
    purpose.isBeyond loc = false := by
  unfold Purpose.isBeyond
  simp [hp]

theorem walk_name (hp : purpose ≠ .name) (hd : fs.standing pos = some .dir) (hl : pos.lost = 0)
    (hn : isTooLong n = false) :
    fs.walk purpose m pos (.name n :: cs) =
      match fs.get? (pos.place ++ [n]) with
      | none => if cs = [] then .ok (.vacant pos.place n) else .error .notFound
      | some (.link target) =>
        fs.jump purpose m pos (if cs = [] then purpose.steps target else target.steps ++ cs)
      | some _ => fs.walk purpose m (.ofPlace (pos.place ++ [n])) cs := by
  rw [walk_name_eq, fromDir_of_standing hd, hl, hn, isBeyond_eq_false hp]
  rfl

/-- A name is followed when it is short, and the directory it is in still stands. -/
theorem of_walk_name {x : Place} (h : fs.walk purpose m pos (.name n :: cs) = .ok x) :
    fs.standing pos = some .dir ∧ pos.lost = 0 ∧ isTooLong n = false := by
  rw [walk_name_eq] at h
  obtain ⟨hd, h⟩ := standing_of_fromDir h
  refine ⟨hd, ?_⟩
  split at h
  · cases h
  · rename_i hl
    split at h
    · cases h
    · rename_i hn
      rw [Bool.or_eq_true, not_or] at hn
      exact ⟨by omega, by simpa using hn.1⟩

end Computed

/-! ## The relation and the computed walk -/

/-- **A walk of more steps goes on from where the first ones lead**, with the links that are left. To
find what is there the first steps can be all of them; otherwise a link at the end is read
differently. -/
theorem Walks.walk_append {purpose : Purpose} (h : Walks fs k pos cs mid) (hp : purpose ≠ .name)
    (hds : ds ≠ [] ∨ purpose = .find) :
    fs.walk purpose (k + m) pos (cs ++ ds) = fs.walk purpose m mid ds := by
  induction h with
  | nil => simp
  | root _ ih => rw [List.cons_append, walk_root, ih]
  | here hd _ ih => rw [List.cons_append, walk_here_eq, fromDir_of_standing hd, ih]
  | up hd _ ih => rw [List.cons_append, walk_up_eq, fromDir_of_standing hd, ih]
  | @name k pos stop cs n e hd hl hn he hlink _ ih =>
    rw [List.cons_append, walk_name hp hd hl hn, he, ← ih]
    cases e with
    | link target => exact absurd rfl (hlink target)
    | dir => rfl
    | file bytes => rfl
  | @link k pos stop cs n target hd hl hn he _ ih =>
    have hlinks : k + 1 + m = (k + m) + 1 := by omega
    rw [List.cons_append, walk_name hp hd hl hn, he, ← ih, hlinks]
    show fs.walk purpose (k + m) pos _ = _
    split
    · rename_i hnil
      obtain ⟨rfl, rfl⟩ := List.append_eq_nil_iff.1 hnil
      rcases hds with hds | rfl
      · exact absurd rfl hds
      · rw [List.append_nil, List.append_nil]
        rfl
    · rw [List.append_assoc]

/-- **A walk that leads somewhere is a walk of its first steps**, and goes on from there. -/
theorem exists_walks_of_walk {purpose : Purpose} {x : Place}
    (h : fs.walk purpose m pos (cs ++ ds) = .ok x) (hp : purpose ≠ .name)
    (hds : ds ≠ [] ∨ (purpose = .find ∧ ∃ stop, x = .found stop)) :
    ∃ k l mid, k + l = m ∧ Walks fs k pos cs mid ∧ fs.walk purpose l mid ds = .ok x := by
  -- Within the same number of links the steps get fewer; at a link the links do.
  induction m using Nat.strongRecOn generalizing pos cs with
  | _ m ihm =>
    induction cs generalizing pos with
    | nil => exact ⟨0, m, pos, Nat.zero_add m, .nil, h⟩
    | cons c cs ihc =>
      rw [List.cons_append] at h
      cases c with
      | root =>
        rw [walk_root] at h
        obtain ⟨k, l, mid, hm, hw, hx⟩ := ihc h
        exact ⟨k, l, mid, hm, .root hw, hx⟩
      | here =>
        rw [walk_here_eq] at h
        obtain ⟨hd, h⟩ := standing_of_fromDir h
        obtain ⟨k, l, mid, hm, hw, hx⟩ := ihc h
        exact ⟨k, l, mid, hm, .here hd hw, hx⟩
      | up =>
        rw [walk_up_eq] at h
        obtain ⟨hd, h⟩ := standing_of_fromDir h
        obtain ⟨k, l, mid, hm, hw, hx⟩ := ihc h
        exact ⟨k, l, mid, hm, .up hd hw, hx⟩
      | name n =>
        obtain ⟨hd, hl, hn⟩ := of_walk_name h
        rw [walk_name hp hd hl hn] at h
        split at h
        · -- The walk is complete here, with nothing found.
          split at h
          · rename_i hnil
            obtain ⟨-, rfl⟩ := List.append_eq_nil_iff.1 hnil
            rcases hds with hds | ⟨-, stop, rfl⟩
            · exact absurd rfl hds
            · cases h
          · cases h
        · rename_i target he
          cases m with
          | zero => cases h
          | succ m =>
            have h : fs.walk purpose m pos ((target.steps ++ cs) ++ ds) = .ok x := by
              have hjump : fs.walk purpose m pos (if cs ++ ds = [] then purpose.steps target
                  else target.steps ++ (cs ++ ds)) = .ok x := h
              split at hjump
              · rename_i hnil
                obtain ⟨rfl, rfl⟩ := List.append_eq_nil_iff.1 hnil
                rcases hds with hds | ⟨rfl, -⟩
                · exact absurd rfl hds
                · rw [List.append_nil, List.append_nil]
                  exact hjump
              · rw [List.append_assoc]
                exact hjump
            obtain ⟨k, l, mid, hm, hw, hx⟩ := ihm m (Nat.lt_succ_self m) h
            exact ⟨k + 1, l, mid, by omega, .link hd hl hn he hw, hx⟩
        · rename_i e hlink he
          obtain ⟨k, l, mid, hm, hw, hx⟩ := ihc h
          exact ⟨k, l, mid, hm, .name hd hl hn he hlink hw, hx⟩

/-- **To find what is there is to walk**, through no more links than are allowed. -/
theorem walk_find_eq_ok_iff :
    fs.walk .find m pos cs = .ok (.found stop) ↔ ∃ k ≤ m, Walks fs k pos cs stop := by
  constructor
  · intro h
    rw [← List.append_nil cs] at h
    -- No steps are left over, so the walk is all of it.
    obtain ⟨k, l, mid, hm, hw, hx⟩ := exists_walks_of_walk h (by decide) (.inr ⟨rfl, stop, rfl⟩)
    rw [walk_nil] at hx
    cases hx
    exact ⟨k, by omega, hw⟩
  · rintro ⟨k, hk, hw⟩
    have h := hw.walk_append (m := m - k) (show Purpose.find ≠ .name by decide)
      (.inr rfl : ([] : List Component) ≠ [] ∨ _)
    rw [List.append_nil, walk_nil, Nat.add_sub_cancel' hk] at h
    exact h

/-- **A walk through more links than are allowed** is not found. -/
theorem Walks.walk_of_lt (h : Walks fs k pos cs stop) (hm : m < k) :
    fs.walk .find m pos cs = .error .tooManyLinks := by
  induction h generalizing m with
  | nil => exact absurd hm (Nat.not_lt_zero m)
  | root _ ih => rw [walk_root, ih hm]
  | here hd _ ih => rw [walk_here_eq, fromDir_of_standing hd, ih hm]
  | up hd _ ih => rw [walk_up_eq, fromDir_of_standing hd, ih hm]
  | @name k pos stop cs n e hd hl hn he hlink _ ih =>
    rw [walk_name (by decide) hd hl hn, he, ← ih hm]
    cases e with
    | link target => exact absurd rfl (hlink target)
    | dir => rfl
    | file bytes => rfl
  | @link k pos stop cs n target hd hl hn he _ ih =>
    rw [walk_name (by decide) hd hl hn, he]
    cases m with
    | zero => rfl
    | succ m =>
      show fs.walk .find m pos (if cs = [] then target.steps else target.steps ++ cs) = _
      rw [← ih (Nat.lt_of_succ_lt_succ hm)]
      split
      · rename_i hnil
        rw [hnil, List.append_nil]
      · rfl

/-! ## What a walk depends on -/

/-- The first steps of a walk, and the others from where they lead. -/
theorem Walks.append (h : Walks fs k pos cs mid) (h' : Walks fs l mid ds stop) :
    Walks fs (k + l) pos (cs ++ ds) stop := by
  induction h with
  | nil => rwa [Nat.zero_add]
  | root _ ih => exact .root (ih h')
  | here hd _ ih => exact .here hd (ih h')
  | up hd _ ih => exact .up hd (ih h')
  | name hd hl hn he hlink _ ih => exact .name hd hl hn he hlink (ih h')
  | @link k pos stop cs n target hd hl hn he _ ih =>
    have hlinks : k + 1 + l = (k + l) + 1 := by omega
    rw [hlinks]
    refine .link hd hl hn he ?_
    show Walks fs (k + l) pos (target.steps ++ (cs ++ ds)) _
    rw [← List.append_assoc]
    exact ih h'

/-- **Where a walk leads is determined.** -/
theorem Walks.unique {mid' : Position} (h : Walks fs k pos cs mid) (h' : Walks fs l pos cs mid') :
    k = l ∧ mid = mid' := by
  induction h generalizing l with
  | nil =>
    cases h'
    exact ⟨rfl, rfl⟩
  | root _ ih =>
    cases h' with
    | root h' => exact ih h'
  | here _ _ ih =>
    cases h' with
    | here _ h' => exact ih h'
  | up _ _ ih =>
    cases h' with
    | up _ h' => exact ih h'
  | name _ _ _ he hlink _ ih =>
    -- What stands there tells whether a link is followed.
    cases h' with
    | name _ _ _ _ _ h' => exact ih h'
    | link _ _ _ he' _ =>
      rw [he'] at he
      exact absurd (Option.some.inj he).symm (hlink _)
  | link _ _ _ he _ ih =>
    cases h' with
    | name _ _ _ he' hlink _ =>
      rw [he] at he'
      exact absurd (Option.some.inj he').symm (hlink _)
    | link _ _ _ he' h' =>
      rw [he] at he'
      cases he'
      obtain ⟨hk, hstop⟩ := ih h'
      exact ⟨by omega, hstop⟩

/-- A walk that begins at a place stays at places. -/
theorem Walks.lost_eq_zero (hw : Walks fs k pos cs stop) (hlost : pos.lost = 0) : stop.lost = 0 := by
  induction hw with
  | nil => exact hlost
  | root _ ih => exact ih rfl
  | here _ _ ih => exact ih hlost
  | @up k pos stop cs _ _ ih =>
    obtain ⟨place, lost⟩ := pos
    obtain rfl : lost = 0 := hlost
    exact ih rfl
  | name _ _ _ _ _ _ ih => exact ih rfl
  | link _ hlost _ _ _ ih => exact ih hlost

/-- The first steps of a walk lead somewhere, and the others lead on from there. -/
theorem Walks.exists_of_append (h : Walks fs m pos (cs ++ ds) stop) :
    ∃ k l mid, k + l = m ∧ Walks fs k pos cs mid ∧ Walks fs l mid ds stop := by
  obtain ⟨k, l, mid, hm, hw, hx⟩ := exists_walks_of_walk (walk_find_eq_ok_iff.2 ⟨m, Nat.le_refl m, h⟩)
    (by decide) (.inr ⟨rfl, stop, rfl⟩)
  obtain ⟨l', hl', hw'⟩ := walk_find_eq_ok_iff.1 hx
  obtain ⟨hlinks, -⟩ := h.unique (hw.append hw')
  exact ⟨k, l', mid, by omega, hw, hw'⟩

/-- All entries of one file system are in another one, but that the bytes of a file may differ. -/
def Retains (fs' fs : FileSystem) : Prop :=
  ∀ loc e, fs.get? loc = some e → fs'.get? loc = some e ∨
    ∃ bytes bytes', e = .file bytes ∧ fs'.get? loc = some (.file bytes')

/-- All entries of one file system are in another one. -/
def Extends (fs' fs : FileSystem) : Prop :=
  ∀ loc e, fs.get? loc = some e → fs'.get? loc = some e

theorem Extends.refl (fs : FileSystem) : fs.Extends fs :=
  fun _ _ h => h

theorem Extends.trans {fs' fs'' : FileSystem} (h : fs''.Extends fs') (h' : fs'.Extends fs) :
    fs''.Extends fs :=
  fun loc e he => h loc e (h' loc e he)

theorem Extends.retains {fs' : FileSystem} (h : fs'.Extends fs) : fs'.Retains fs :=
  fun loc e he => .inl (h loc e he)

theorem Retains.trans {fs' fs'' : FileSystem} (h : fs''.Retains fs') (h' : fs'.Retains fs) :
    fs''.Retains fs := by
  intro loc e he
  rcases h' loc e he with he' | ⟨bytes, bytes', rfl, he'⟩
  · exact h loc e he'
  · rcases h loc _ he' with he'' | ⟨_, bytes'', -, he''⟩
    · exact .inr ⟨bytes, bytes', rfl, he''⟩
    · exact .inr ⟨bytes, bytes'', rfl, he''⟩

theorem Retains.get?_dir {fs' : FileSystem} (h : fs'.Retains fs) {loc : Location}
    (hd : fs.get? loc = some .dir) : fs'.get? loc = some .dir := by
  rcases h loc _ hd with hd' | ⟨_, _, heq, -⟩
  · exact hd'
  · cases heq

theorem Retains.get?_link {fs' : FileSystem} (h : fs'.Retains fs) {loc : Location} {target : Path}
    (hl : fs.get? loc = some (.link target)) : fs'.get? loc = some (.link target) := by
  rcases h loc _ hl with hl' | ⟨_, _, heq, -⟩
  · exact hl'
  · cases heq

theorem Retains.standing_dir {fs' : FileSystem} (h : fs'.Retains fs)
    (hd : fs.standing pos = some .dir) : fs'.standing pos = some .dir := by
  unfold FileSystem.standing at hd ⊢
  split at hd
  · rename_i hl
    rw [if_pos hl]
    exact h.get?_dir hd
  · rename_i hl
    rw [if_neg hl]

/-- **More entries leave a walk as it is**, and so do other bytes in the files. -/
theorem Walks.mono {fs' : FileSystem} (h : Walks fs k pos cs stop) (hfs : fs'.Retains fs) :
    Walks fs' k pos cs stop := by
  induction h with
  | nil => exact .nil
  | root _ ih => exact .root ih
  | here hd _ ih => exact .here (hfs.standing_dir hd) ih
  | up hd _ ih => exact .up (hfs.standing_dir hd) ih
  | name hd hl hn he hlink _ ih =>
    rcases hfs _ _ he with he' | ⟨_, bytes', -, he'⟩
    · exact .name (hfs.standing_dir hd) hl hn he' hlink ih
    · exact .name (hfs.standing_dir hd) hl hn he' (fun target => by simp) ih
  | link hd hl hn he _ ih => exact .link (hfs.standing_dir hd) hl hn (hfs.get?_link he) ih

end SolVendor.FileSystem
