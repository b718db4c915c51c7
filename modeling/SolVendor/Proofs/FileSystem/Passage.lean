import SolVendor.Proofs.FileSystem.Effects
import SolVendor.Proofs.FileSystem.WellFormed
/-!
# FileSystem — ways that may have to be made

Steps lead along a way of places whether or not anything stands there yet
(`Position.along?`). A walk goes that way if no link is on it
(`Walks.along?`), and through directories only
(`Leads.standing_along`). A way is passable if it can be gone once
directories are made where nothing stands on it (`IsPassable`). Then there
is one reason only for which a directory at the end of it cannot be made:
one above it is missing (`IsPassable.of_makeDir_error`). At the end of a way
that leads to a directory a file can be written (`writePlace_of_leads`).
-/

namespace SolVendor

namespace Position

variable {pos stop next : Position} {c : Component} {cs ds : List Component} {n : OsString}

/-- Where a step leads, if no link is there. No name leads anywhere in a directory that has been
removed. -/
def next? : Position → Component → Option Position
  | _, .root => some (.ofPlace [])
  | pos, .here => some pos
  | pos, .up => some pos.up
  | pos, .name n => if pos.lost = 0 then some (.ofPlace (pos.place ++ [n])) else none

/-- Where steps lead, if no link is on the way. -/
def along? (pos : Position) (cs : List Component) : Option Position :=
  cs.foldlM next? pos

@[simp] theorem along?_nil : pos.along? [] = some pos := rfl

theorem along?_cons : pos.along? (c :: cs) = (pos.next? c).bind fun next => next.along? cs := rfl

theorem along?_cons_of_next (h : pos.next? c = some next) : pos.along? (c :: cs) = next.along? cs := by
  rw [along?_cons, h, Option.bind_some]

theorem along?_append : pos.along? (cs ++ ds) = (pos.along? cs).bind fun mid => mid.along? ds :=
  List.foldlM_append

/-- From a place a name leads to the place below. -/
theorem next?_name (loc : Location) (n : OsString) :
    (ofPlace loc).next? (.name n) = some (.ofPlace (loc ++ [n])) := rfl

theorem of_next?_name (h : pos.next? (.name n) = some next) :
    pos.lost = 0 ∧ next = .ofPlace (pos.place ++ [n]) := by
  have h : (if pos.lost = 0 then some (ofPlace (pos.place ++ [n])) else none) = some next := h
  split at h
  · rename_i hlost
    exact ⟨hlost, (Option.some.inj h).symm⟩
  · cases h

/-- **Names lead down** from a place. -/
theorem along?_names (loc : Location) (names : List OsString) :
    (ofPlace loc).along? (names.map .name) = some (.ofPlace (loc ++ names)) := by
  induction names generalizing loc with
  | nil => rw [List.append_nil]; rfl
  | cons n names ih =>
    rw [List.map_cons, along?_cons_of_next (next?_name loc n), ih, List.append_assoc]
    rfl

/-- Before a name there is a place. -/
theorem along?_concat_name :
    pos.along? (cs ++ [.name n]) = some stop ↔
      ∃ loc, pos.along? cs = some (.ofPlace loc) ∧ stop = .ofPlace (loc ++ [n]) := by
  rw [along?_append]
  constructor
  · intro h
    obtain ⟨mid, hmid, h⟩ := Option.bind_eq_some_iff.1 h
    rw [along?_cons] at h
    obtain ⟨next, hnext, h⟩ := Option.bind_eq_some_iff.1 h
    obtain ⟨hlost, rfl⟩ := of_next?_name hnext
    refine ⟨mid.place, ?_, (Option.some.inj h).symm⟩
    rw [hmid, ofPlace, ← hlost]
  · rintro ⟨loc, hloc, rfl⟩
    rw [hloc]
    rfl

/-- Before names there is a place. -/
theorem exists_of_along?_names {names : List OsString} (hne : names ≠ [])
    (h : pos.along? (cs ++ names.map .name) = some stop) :
    ∃ loc, pos.along? cs = some (.ofPlace loc) ∧ stop = .ofPlace (loc ++ names) := by
  obtain ⟨n, names, rfl⟩ := List.exists_cons_of_ne_nil hne
  rw [List.map_cons, List.append_cons, along?_append] at h
  obtain ⟨mid, hmid, h⟩ := Option.bind_eq_some_iff.1 h
  obtain ⟨loc, hloc, rfl⟩ := along?_concat_name.1 hmid
  rw [along?_names, List.append_assoc] at h
  exact ⟨loc, hloc, (Option.some.inj h).symm⟩

/-- Without a step up the way goes down. -/
theorem isPrefix_of_along? (hup : .up ∉ cs) (hroot : .root ∉ cs) (h : pos.along? cs = some stop) :
    pos.place <+: stop.place := by
  induction cs generalizing pos with
  | nil =>
    obtain rfl := Option.some.inj h
    exact List.prefix_refl _
  | cons c cs ih =>
    rw [along?_cons] at h
    obtain ⟨next, hnext, h⟩ := Option.bind_eq_some_iff.1 h
    have hrest := ih (fun hin => hup (List.mem_cons_of_mem c hin))
      (fun hin => hroot (List.mem_cons_of_mem c hin)) h
    cases c with
    | root => exact absurd List.mem_cons_self hroot
    | here =>
      obtain rfl := Option.some.inj hnext
      exact hrest
    | up => exact absurd List.mem_cons_self hup
    | name n =>
      obtain ⟨-, rfl⟩ := of_next?_name hnext
      exact (List.prefix_append _ _).trans hrest

/-- The place that a path leads to from here, if no link is on the way. Nothing has to stand there. -/
def IsEnd (pos : Position) (p : Path) (k : Location) : Prop :=
  pos.along? p.pieces = some (.ofPlace k)

/-- The place of a directory on the way to where a path leads. -/
def IsOnWay (pos : Position) (p : Path) (k : Location) : Prop :=
  ∃ ds, ds <+: p.pieces.dropLast ∧ pos.along? ds = some (.ofPlace k)

theorem IsEnd.unique {p : Path} {k k' : Location} (h : pos.IsEnd p k) (h' : pos.IsEnd p k') : k = k' := by
  unfold IsEnd at h h'
  rw [h] at h'
  exact congrArg Position.place (Option.some.inj h')

end Position

namespace FileSystem

open SolVendor.Path

variable {fs fs' : FileSystem} {cwd pos stop next : Position} {c : Component} {cs ds : List Component}
  {p q : Path} {dir loc k : Location} {n : OsString} {e : FileError}

/-! ## Ways without links -/

/-- No link is on the way that the steps lead. -/
def IsUnlinked (fs : FileSystem) (pos : Position) (cs : List Component) : Prop :=
  ∀ ds stop target, ds <+: cs → pos.along? ds = some stop → fs.get? stop.place ≠ some (.link target)

theorem IsUnlinked.of_isPrefix (h : fs.IsUnlinked pos cs) (hpre : ds <+: cs) : fs.IsUnlinked pos ds :=
  fun es stop target hes => h es stop target (hes.trans hpre)

theorem IsUnlinked.tail (h : fs.IsUnlinked pos (c :: cs)) (hnext : pos.next? c = some next) :
    fs.IsUnlinked next cs := by
  intro ds stop target hds hstop
  exact h (c :: ds) stop target (List.cons_prefix_cons.2 ⟨rfl, hds⟩)
    (by rw [Position.along?_cons_of_next hnext, hstop])

/-- **A walk goes along the way**, if no link is there. -/
theorem Walks.along? {m : Nat} (h : Walks fs m pos cs stop) (hu : fs.IsUnlinked pos cs) :
    pos.along? cs = some stop := by
  induction h with
  | nil => rfl
  | root _ ih => exact ih (hu.tail rfl)
  | here _ _ ih => exact ih (hu.tail rfl)
  | up _ _ ih => exact ih (hu.tail rfl)
  | @name m pos stop cs n e _ hlost _ _ _ _ ih =>
    have hnext : pos.next? (.name n) = some (.ofPlace (pos.place ++ [n])) := if_pos hlost
    rw [Position.along?_cons_of_next hnext]
    exact ih (hu.tail hnext)
  | @link m pos stop cs n target _ hlost _ hlink _ _ =>
    have hnext : pos.next? (.name n) = some (.ofPlace (pos.place ++ [n])) := if_pos hlost
    exact absurd hlink (hu [.name n] (.ofPlace (pos.place ++ [n])) target
      (List.cons_prefix_cons.2 ⟨rfl, List.nil_prefix⟩) (by rw [Position.along?_cons_of_next hnext]; rfl))

theorem Leads.along? (h : fs.Leads pos cs stop) (hu : fs.IsUnlinked pos cs) :
    pos.along? cs = some stop := by
  obtain ⟨m, -, hw⟩ := h
  exact hw.along? hu

/-- **What a path names is where it ends**, if no link is on the way. -/
theorem Names.isEnd (h : fs.Names cwd p k) (hu : fs.IsUnlinked cwd p.pieces.dropLast) :
    cwd.IsEnd p k := by
  obtain ⟨-, ds, dir, n, hp, rfl, hl, -, -⟩ := names_iff.1 h
  rw [hp, List.dropLast_concat] at hu
  unfold Position.IsEnd
  rw [hp]
  exact Position.along?_concat_name.2 ⟨dir, hl.along? hu, rfl⟩

/-- The root comes first among the steps, or not at all. -/
def RootIsFirst (cs : List Component) : Prop :=
  ∀ ds es, cs = ds ++ es → ds ≠ [] → .root ∉ es

theorem rootIsFirst_of_isPrefix (h : cs <+: p.pieces) : RootIsFirst cs := by
  rintro ds es rfl hds hroot
  obtain ⟨rest, hrest⟩ := h
  rw [List.append_assoc] at hrest
  exact root_notMem_of_append hrest.symm hds (List.mem_append_left _ hroot)

/-- **A way that leads to a directory goes through directories.** -/
theorem Leads.standing_along (h : fs.Leads pos cs stop) (hu : fs.IsUnlinked pos cs)
    (hroot : RootIsFirst cs) (hpos : fs.get? pos.place = some .dir)
    (hstop : fs.standing stop = some .dir) {mid : Position} (hds : ds <+: cs)
    (hmid : pos.along? ds = some mid) : fs.standing mid = some .dir := by
  obtain ⟨es, rfl⟩ := hds
  by_cases hnil : ds = []
  · subst hnil
    obtain rfl := Option.some.inj hmid
    exact standing_of_get? hpos
  · obtain ⟨mid', l, hl, hw⟩ := h.exists_of_append
    have hsame := hl.along? (hu.of_isPrefix (List.prefix_append ds es))
    rw [hmid] at hsame
    obtain rfl := Option.some.inj hsame
    by_cases hes : es = []
    · subst hes
      cases hw
      exact hstop
    · exact hw.standing_of_ne_nil hes (hroot ds es rfl hnil)

/-! ## Passable ways -/

/-- The way can be gone once directories are made where nothing stands on it. -/
def IsPassable (fs : FileSystem) (pos : Position) (cs : List Component) : Prop :=
  ∀ ds n, ds ++ [.name n] <+: cs → ∃ loc, pos.along? ds = some (.ofPlace loc) ∧ isTooLong n = false ∧
    (fs.get? (loc ++ [n]) = none ∨ fs.get? (loc ++ [n]) = some .dir)

theorem IsPassable.of_isPrefix (h : fs.IsPassable pos cs) (hpre : ds <+: cs) : fs.IsPassable pos ds :=
  fun es n hes => h es n (hes.trans hpre)

theorem IsPassable.tail (h : fs.IsPassable pos (c :: cs)) (hnext : pos.next? c = some next) :
    fs.IsPassable next cs := by
  intro ds n hds
  obtain ⟨loc, hloc, hat⟩ := h (c :: ds) n (List.cons_prefix_cons.2 ⟨rfl, hds⟩)
  rw [Position.along?_cons_of_next hnext] at hloc
  exact ⟨loc, hloc, hat⟩

/-- **A way that leads to a directory is passable.** -/
theorem Leads.isPassable (h : fs.Leads pos cs stop) (hu : fs.IsUnlinked pos cs)
    (hroot : RootIsFirst cs) (hpos : fs.get? pos.place = some .dir)
    (hstop : fs.standing stop = some .dir) : fs.IsPassable pos cs := by
  intro ds n hds
  obtain ⟨es, hes⟩ := id hds
  obtain ⟨mid, l, hl, hw⟩ := (hes ▸ h : fs.Leads pos (ds ++ [.name n] ++ es) stop).exists_of_append
  obtain ⟨mid₀, l₀, hl₀, hw₀⟩ := hl.exists_of_append
  have hmid₀ := hl₀.along? (hu.of_isPrefix ((List.prefix_append ds [.name n]).trans hds))
  have hmid := hl.along? (hu.of_isPrefix hds)
  obtain ⟨loc, hloc, rfl⟩ := Position.along?_concat_name.1 hmid
  rw [hmid₀] at hloc
  obtain rfl := Option.some.inj hloc
  have hdir := h.standing_along hu hroot hpos hstop hds hmid
  refine ⟨loc, hmid₀, ?_, .inr hdir⟩
  cases hw₀ with
  | name _ _ hn _ _ _ => exact hn
  | link _ _ hn _ _ => exact hn

/-- Above a directory there is one. -/
theorem WellFormed.get?_up (h : fs.WellFormed) (hd : fs.get? pos.place = some .dir) :
    fs.get? pos.up.place = some .dir := by
  obtain ⟨place, lost⟩ := pos
  cases lost with
  | succ lost => exact hd
  | zero =>
    have hd : fs.get? place = some .dir := hd
    show fs.get? place.dropLast = some .dir
    by_cases hnil : place = []
    · subst hnil
      rfl
    · rw [← List.dropLast_concat_getLast hnil] at hd
      exact h.above hd

/-- **A passable way leads to a directory, or else to where one is missing.** -/
theorem IsPassable.leads_or_missing (hp : fs.IsPassable pos cs) (hfs : fs.WellFormed)
    (hpos : fs.get? pos.place = some .dir) :
    (∃ stop, Walks fs 0 pos cs stop ∧ pos.along? cs = some stop ∧ fs.get? stop.place = some .dir) ∨
      (∃ n, .name n ∈ cs) ∧ ∀ m, fs.walk .find m pos cs = .error .notFound ∨
        ∃ dir n, fs.walk .find m pos cs = .ok (.vacant dir n) := by
  induction cs generalizing pos with
  | nil => exact .inl ⟨pos, .nil, rfl, hpos⟩
  | cons c cs ih =>
    have hd := standing_of_get? hpos
    -- A missing directory further on is missing here.
    have hmore : ∀ {next}, (∀ m, fs.walk .find m pos (c :: cs) = fs.walk .find m next cs) →
        ((∃ n, .name n ∈ cs) ∧ ∀ m, fs.walk .find m next cs = .error .notFound ∨
          ∃ dir n, fs.walk .find m next cs = .ok (.vacant dir n)) →
        (∃ n, .name n ∈ c :: cs) ∧ ∀ m, fs.walk .find m pos (c :: cs) = .error .notFound ∨
          ∃ dir n, fs.walk .find m pos (c :: cs) = .ok (.vacant dir n) := by
      rintro next hwalk ⟨⟨n, hn⟩, hmissing⟩
      exact ⟨⟨n, List.mem_cons_of_mem c hn⟩, fun m => by rw [hwalk m]; exact hmissing m⟩
    cases c with
    | root =>
      refine (ih (hp.tail rfl) rfl).imp ?_ (hmore fun m => walk_root)
      rintro ⟨stop, hw, halong, hstop⟩
      exact ⟨stop, .root hw, halong, hstop⟩
    | here =>
      refine (ih (hp.tail rfl) hpos).imp ?_
        (hmore fun m => by rw [walk_here_eq, fromDir_of_standing hd])
      rintro ⟨stop, hw, halong, hstop⟩
      exact ⟨stop, .here hd hw, halong, hstop⟩
    | up =>
      refine (ih (hp.tail rfl) (hfs.get?_up hpos)).imp ?_
        (hmore fun m => by rw [walk_up_eq, fromDir_of_standing hd])
      rintro ⟨stop, hw, halong, hstop⟩
      exact ⟨stop, .up hd hw, halong, hstop⟩
    | name n =>
      obtain ⟨loc, hloc, hn, hat⟩ := hp [] n (List.cons_prefix_cons.2 ⟨rfl, List.nil_prefix⟩)
      obtain rfl := Option.some.inj hloc
      rcases hat with hnone | hdir
      · refine .inr ⟨⟨n, List.mem_cons_self⟩, fun m => ?_⟩
        have hnone : fs.get? ((Position.ofPlace loc).place ++ [n]) = none := hnone
        rw [walk_name (by decide) hd rfl hn, hnone]
        by_cases hnil : cs = []
        · exact .inr ⟨loc, n, if_pos hnil⟩
        · exact .inl (if_neg hnil)
      · have hnext := Position.next?_name loc n
        have hat : fs.get? ((Position.ofPlace loc).place ++ [n]) = some .dir := hdir
        refine (ih (hp.tail hnext) hdir).imp ?_
          (hmore fun m => by rw [walk_name (by decide) hd rfl hn, hat]; rfl)
        rintro ⟨stop, hw, halong, hstop⟩
        refine ⟨stop, .name hd rfl hn hat (by simp) hw, ?_, hstop⟩
        rw [Position.along?_cons_of_next hnext, halong]

/-- A path that leads to a directory is one of a directory. -/
theorem Leads.isDir (h : fs.Leads cwd p.pieces pos) (hs : fs.standing pos = some .dir)
    (hc : checkPath p = .ok ()) : fs.isDir cwd p = true :=
  isDir_iff.2 ⟨pos, locate_eq_ok_iff.2 ⟨hc, leads_steps_of_pieces h (.inr hs)⟩, hs⟩

/-- **Why a directory is not made at the end of a passable way**: one is there already, or one above it
is missing. -/
theorem IsPassable.of_makeDir_error (hp : fs.IsPassable cwd p.pieces) (hfs : fs.WellFormed)
    (hcwd : fs.get? cwd.place = some .dir) (hc : checkPath p = .ok ())
    (h : fs.makeDir cwd p = .error e) :
    (e ≠ .notFound ∧ fs.isDir cwd p = true) ∨ e = .notFound ∧
      (∃ n, .name n ∈ p.pieces.dropLast) ∧ ∀ pos, ¬ fs.Leads cwd p.pieces.dropLast pos := by
  have hlast := (hp.of_isPrefix (List.dropLast_prefix p.pieces)).leads_or_missing hfs hcwd
  unfold makeDir lastName at h
  rw [hc] at h
  rcases hlast with ⟨stop, hw, halong, hstop⟩ | ⟨hname, hmissing⟩
  · refine .inl ?_
    have hl : fs.Leads cwd p.pieces.dropLast stop := ⟨0, Nat.zero_le _, hw⟩
    have hd := standing_of_get? hstop
    rw [walk_find_eq_ok_iff.2 ⟨0, Nat.zero_le _, hw⟩] at h
    simp only [bind, Except.bind, hd] at h
    rcases List.eq_nil_or_concat p.pieces with hnil | ⟨ds, c, hpieces⟩
    · rw [hnil] at h hl
      obtain rfl := Except.error.inj h
      exact ⟨by decide, Leads.isDir (by rw [hnil]; exact hl) hd hc⟩
    · rw [List.concat_eq_append] at hpieces
      rw [hpieces, List.dropLast_concat] at hl halong
      rw [hpieces, List.getLast?_concat] at h
      -- Steps that are no names lead to a directory from a directory.
      have hdots : ∀ {next}, Walks fs 0 stop [c] next → fs.get? next.place = some .dir →
          fs.isDir cwd p = true := fun hstep hnext =>
        Leads.isDir (by rw [hpieces]; exact hl.append hstep) (standing_of_get? hnext) hc
      cases c with
      | root =>
        obtain rfl := Except.error.inj h
        exact ⟨by decide, hdots (.root .nil) rfl⟩
      | here =>
        obtain rfl := Except.error.inj h
        exact ⟨by decide, hdots (.here hd .nil) hstop⟩
      | up =>
        obtain rfl := Except.error.inj h
        exact ⟨by decide, hdots (.up hd .nil) (hfs.get?_up hstop)⟩
      | name n =>
        obtain ⟨loc, hloc, hn, hat⟩ := hp ds n (hpieces ▸ List.prefix_refl _)
        rw [halong] at hloc
        obtain rfl := Option.some.inj hloc
        rcases hat with hnone | hdir
        · simp [Position.ofPlace, hn, hnone, pure, Except.pure] at h
        · simp only [Position.ofPlace, Nat.lt_irrefl, if_false, hn, Bool.false_eq_true, pure,
            Except.pure, hdir, Option.isSome_some, if_true, throw, throwThe, MonadExceptOf.throw] at h
          obtain rfl := Except.error.inj h
          exact ⟨by decide, hdots (.name hd rfl hn hdir (by simp) .nil) hdir⟩
  · have hvacant := hmissing maxLinks
    refine .inr ⟨?_, hname, ?_⟩
    · rcases hvacant with hwalk | ⟨dir, n, hwalk⟩
      · rw [hwalk] at h
        exact (Except.error.inj h).symm
      · rw [hwalk] at h
        exact (Except.error.inj h).symm
    · rintro pos ⟨m, hm, hw⟩
      rw [walk_find_eq_ok_iff.2 ⟨m, hm, hw⟩] at hvacant
      rcases hvacant with hwalk | ⟨dir, n, hwalk⟩
      · cases hwalk
      · cases hwalk

/-! ## Writing at the end of a way -/

/-- **A file can be written** where nothing or a file stands, in a directory that the path leads to. -/
theorem writePlace_of_leads (hc : checkPath p = .ok ()) (hp : p.pieces = cs ++ [.name n])
    (hslash : p.endsInSlash = false) (hl : fs.Leads cwd cs (.ofPlace dir))
    (hd : fs.get? dir = some .dir) (hn : isTooLong n = false)
    (hat : fs.get? (dir ++ [n]) = none ∨ ∃ bytes, fs.get? (dir ++ [n]) = some (.file bytes)) :
    fs.writePlace cwd p = .ok (dir ++ [n]) := by
  obtain ⟨m, hm, hw⟩ := hl
  have hwalk := hw.walk_append (m := maxLinks - m) (show Purpose.write ≠ .name by decide)
    (.inl (List.cons_ne_nil _ _) : [Component.name n] ≠ [] ∨ _)
  rw [Nat.add_sub_cancel' hm] at hwalk
  have hs : fs.standing (.ofPlace dir) = some .dir := hd
  rw [walk_name (by decide) hs rfl hn] at hwalk
  have hsteps : p.writeSteps = cs ++ [.name n] := by
    unfold Path.writeSteps
    rw [hslash, hp]
    rfl
  have hresolve : fs.resolve .write cwd p = fs.walk .write maxLinks cwd (cs ++ [.name n]) :=
    congrArg (fs.walk .write maxLinks cwd) hsteps
  unfold writePlace
  rw [hc, hresolve, hwalk]
  rcases hat with hnone | ⟨bytes, hfile⟩
  · have hnone : fs.get? ((Position.ofPlace dir).place ++ [n]) = none := hnone
    rw [hnone]
    rfl
  · have hfile : fs.get? ((Position.ofPlace dir).place ++ [n]) = some (.file bytes) := hfile
    have hstands : fs.standing (.ofPlace (dir ++ [n])) = some (.file bytes) := hfile
    simp only [hfile, walk_nil, bind, Except.bind]
    rw [show (Position.ofPlace dir).place = dir from rfl, hstands]
    rfl

end FileSystem

end SolVendor
