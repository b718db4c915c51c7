import SolVendor.Install.Parallel
import SolVendor.Proofs.Concurrency.RelyGuarantee
import SolVendor.Proofs.Host.Growing
import SolVendor.Proofs.Path.Descent
/-!
# Install — ways that copies make at the same time

Copies that run at the same time make directories on their ways and write
files at their own targets, and each of them relies on no more than that of
the others (`contract`). No link is at the destination, on the way to it or
below it, and no file that is copied lies there (`IsStart`).

Whatever the others do, a directory on the way to a copy is made or the
attempt fails, and it does not fail if the copies are feasible
(`safe_makeWayEach`). That they are can be told from the host that they
start from (`IsFeasible`).
-/

namespace SolVendor.Export

open FileSystem SolVendor.Path

/-! ## What an export starts from -/

/-- The place is that of the destination, or below it. -/
def IsWithin (cwd : Position) (dest : Path) (k : Location) : Prop :=
  ∃ rel : Location, cwd.along? (dest.pieces ++ rel.map .name) = some (.ofPlace k)

/-- No link is at the destination, on the way to it or below it. -/
structure IsPlain (h : Host) (dest : Path) : Prop where
  way : h.files.IsUnlinked h.cwd dest.pieces
  below : ∀ {k}, IsWithin h.cwd dest k → ∀ target, h.files.get? k ≠ some (.link target)

/-- Below a place there are the places that begin with it. -/
theorem isWithin_iff {cwd : Position} {dest : Path} {loc k : Location}
    (hdest : cwd.along? dest.pieces = some (.ofPlace loc)) : IsWithin cwd dest k ↔ loc <+: k := by
  have hbelow : ∀ rel : Location, cwd.along? (dest.pieces ++ rel.map .name) = some (.ofPlace (loc ++ rel)) := by
    intro rel
    rw [Position.along?_append, hdest, Option.bind_some, Position.along?_names]
  constructor
  · rintro ⟨rel, hk⟩
    rw [hbelow] at hk
    exact ⟨rel, congrArg Position.place (Option.some.inj hk)⟩
  · rintro ⟨rel, rfl⟩
    exact ⟨rel, hbelow rel⟩

/-- Where there are no links, every destination is plain. -/
theorem isPlain_of_hasNoLinks {h : Host} (hlinks : h.files.HasNoLinks []) (dest : Path) : IsPlain h dest where
  way _ stop target _ _ := hlinks stop.place target
  below _ target := hlinks _ target

/-- The files at some names of the tree can be copied to a plain destination: they are regular files, and
none of them lies at the destination. -/
structure IsStart (tree dest : Path) (todo : List Location) (h : Host) : Prop where
  wellFormed : h.files.WellFormed
  cwd_dir : h.files.get? h.cwd.place = some .dir
  names : ∀ names ∈ todo, names ≠ [] ∧ ∀ n ∈ names, IsFileName n
  nodup : todo.Nodup
  plain : IsPlain h dest
  source : ∀ names ∈ todo, ∃ pos bytes, h.files.locate h.cwd (tree.join (.ofNames names)) = .ok pos ∧
    h.files.standing pos = some (.file bytes) ∧ ¬ IsWithin h.cwd dest pos.place

/-- The path of the copy of a file. -/
abbrev copyPath (dest : Path) (names : Location) : Path :=
  dest.join (.ofNames names)

/-- The place of the copy with a number. -/
def IsTarget (h : Host) (dest : Path) (todo : List Location) (i : Nat) (k : Location) : Prop :=
  ∃ names, todo[i]? = some names ∧ h.cwd.IsEnd (copyPath dest names) k

/-- The place of a directory on the way to some copy. -/
def IsOnWay (h : Host) (dest : Path) (todo : List Location) (k : Location) : Prop :=
  ∃ names ∈ todo, h.cwd.IsOnWay (copyPath dest names) k

/-- **The copies can succeed**: all ways are passable, the paths can be followed, nothing or a file is at
each target, and no target is on a way. -/
structure IsFeasible (h : Host) (dest : Path) (todo : List Location) : Prop where
  passable : ∀ names ∈ todo, h.files.IsPassable h.cwd (copyPath dest names).pieces.dropLast
  short : ∀ names ∈ todo, checkPath (copyPath dest names) = .ok ()
  last : ∀ names ∈ todo, ∀ n ∈ names.getLast?, isTooLong n = false
  vacant_or_file : ∀ names ∈ todo, ∃ k, h.cwd.IsEnd (copyPath dest names) k ∧
    (h.files.get? k = none ∨ ∃ bytes, h.files.get? k = some (.file bytes))
  apart : ∀ names ∈ todo, ∀ k, h.cwd.IsEnd (copyPath dest names) k → ¬ IsOnWay h dest todo k

section

variable {h : Host} {tree dest : Path} {todo : List Location} {names names' : Location} {i j : Nat}
  {k : Location}

/-- The pieces of the path of a copy: the way to its directory, and its name. -/
theorem IsStart.exists_pieces (hs : IsStart tree dest todo h) (hmem : names ∈ todo) :
    ∃ n, names.getLast? = some n ∧
      (copyPath dest names).pieces = (copyPath dest names).pieces.dropLast ++ [.name n] := by
  obtain ⟨hne, hproper⟩ := hs.names names hmem
  obtain ⟨above, n, hnames⟩ := (List.eq_nil_or_concat names).resolve_left hne
  rw [List.concat_eq_append] at hnames
  refine ⟨n, by rw [hnames, List.getLast?_concat], ?_⟩
  rw [pieces_join_ofNames hproper, hnames, List.map_append, ← List.append_assoc]
  exact congrArg (· ++ [Component.name n]) List.dropLast_concat.symm

/-- **No link is on the way to a copy, nor at its place.** -/
theorem IsStart.isUnlinked (hs : IsStart tree dest todo h) (hmem : names ∈ todo) :
    h.files.IsUnlinked h.cwd (copyPath dest names).pieces := by
  rw [pieces_join_ofNames (hs.names names hmem).2]
  intro ds stop target hds hstop
  rcases prefix_append_names hds with hpre | ⟨rel, -, rfl⟩
  · exact hs.plain.way ds stop target hpre hstop
  · by_cases hnil : rel = []
    · subst hnil
      rw [List.map_nil, List.append_nil] at hstop
      exact hs.plain.way _ stop target (List.prefix_refl _) hstop
    · obtain ⟨loc, -, rfl⟩ := Position.exists_of_along?_names hnil hstop
      exact hs.plain.below ⟨rel, hstop⟩ target

/-- The place of a copy is below the destination. -/
theorem IsStart.exists_place (hs : IsStart tree dest todo h) (hmem : names ∈ todo)
    (hk : h.cwd.IsEnd (copyPath dest names) k) :
    ∃ loc, h.cwd.along? dest.pieces = some (.ofPlace loc) ∧ k = loc ++ names := by
  obtain ⟨hne, hproper⟩ := hs.names names hmem
  unfold Position.IsEnd at hk
  rw [pieces_join_ofNames hproper] at hk
  obtain ⟨loc, hloc, heq⟩ := Position.exists_of_along?_names hne hk
  exact ⟨loc, hloc, congrArg Position.place heq⟩

/-- **Different files have different targets.** -/
theorem IsStart.eq_of_isEnd (hs : IsStart tree dest todo h) (hmem : names ∈ todo) (hmem' : names' ∈ todo)
    (hk : h.cwd.IsEnd (copyPath dest names) k) (hk' : h.cwd.IsEnd (copyPath dest names') k) :
    names = names' := by
  obtain ⟨loc, hloc, rfl⟩ := hs.exists_place hmem hk
  obtain ⟨loc', hloc', heq⟩ := hs.exists_place hmem' hk'
  rw [hloc] at hloc'
  cases hloc'
  exact List.append_cancel_left heq

theorem IsStart.eq_of_isTarget (hs : IsStart tree dest todo h) (hi : IsTarget h dest todo i k)
    (hj : IsTarget h dest todo j k) : i = j := by
  obtain ⟨names, hn, hk⟩ := hi
  obtain ⟨names', hn', hk'⟩ := hj
  obtain rfl := hs.eq_of_isEnd (List.mem_of_getElem? hn) (List.mem_of_getElem? hn') hk hk'
  exact (List.getElem?_inj (List.getElem?_eq_some_iff.1 hn).1 hs.nodup).1 (hn.trans hn'.symm)

/-- A file that is copied is no target. -/
theorem IsStart.not_isTarget (hs : IsStart tree dest todo h) (hk : ¬ IsWithin h.cwd dest k) :
    ¬ IsTarget h dest todo i k := by
  rintro ⟨names, hn, hend⟩
  refine hk ⟨names, ?_⟩
  rw [← pieces_join_ofNames (hs.names names (List.mem_of_getElem? hn)).2]
  exact hend

/-! ## The contract -/

/-- What a copy relies on, and what it guarantees: directories are made on the ways, and files are written
at the targets, its own at its own only. -/
def contract (h : Host) (dest : Path) (todo : List Location) (i : Nat) : Contract Host where
  rely := Host.Grows (IsOnWay h dest todo) fun k => ∃ j, j ≠ i ∧ IsTarget h dest todo j k
  guar := Host.Grows (IsOnWay h dest todo) (IsTarget h dest todo i)
  live _ := True
  refl := Host.Grows.refl
  trans := Host.Grows.trans

/-- What a copy guarantees is what the others rely on. -/
theorem rely_of_guar {s t : Host} (hne : i ≠ j) (hg : (contract h dest todo i).guar s t) :
    (contract h dest todo j).rely s t :=
  hg.mono fun _ hk => ⟨i, hne, hk⟩

end

/-! ## Steps on the files -/

variable {h s t : Host} {tree dest q : Path} {todo : List Location} {names : Location} {i : Nat}
  {α : Type}

/-- A step on the files is safe if it is so in each case. -/
theorem safe_onFiles {c : Contract Host} {f : FileSystem → Position → Except FileError (α × FileSystem)}
    {post : Except Failure α → Host → Prop} (hlive : ∀ t, c.live t) (hidle : ∀ t, c.guar t t)
    (hok : ∀ {t a files}, c.rely s t → f t.files t.cwd = .ok (a, files) →
      c.guar t { t with files } ∧ ∀ u, c.rely { t with files } u → post (.ok a) u)
    (herr : ∀ {t e}, c.rely s t → f t.files t.cwd = .error e →
      ∀ u, c.rely t u → post (.error (.file e)) u) : (onFiles f).Safe c post s := by
  refine Process.safe_atomic fun t ht => ?_
  cases hf : f t.files t.cwd with
  | ok x =>
    obtain ⟨a, files⟩ := x
    simp only
    obtain ⟨hguar, hpost⟩ := hok ht hf
    exact ⟨hlive t, hguar, hpost⟩
  | error e => exact ⟨hlive t, hidle t, herr ht hf⟩

/-! ## The way to a copy -/

/-- The path is that of a directory on the way to a copy. -/
def IsAbove (q : Path) (dest : Path) (names : Location) : Prop :=
  q.pieces <+: (copyPath dest names).pieces.dropLast

section

variable (hs : IsStart tree dest todo h) (hmem : names ∈ todo) (hq : IsAbove q dest names)
  (hk : (contract h dest todo i).rely h s)

include hs hmem hk

theorem isUnlinked_of_rely : s.files.IsUnlinked s.cwd (copyPath dest names).pieces := by
  rw [hk.cwd]
  exact hk.isUnlinked (hs.isUnlinked hmem)

omit hs in
/-- **A feasible way stays passable.** -/
theorem isPassable_of_rely (hf : IsFeasible h dest todo) :
    s.files.IsPassable s.cwd (copyPath dest names).pieces.dropLast := by
  rw [hk.cwd]
  refine hk.isPassable (hf.passable names hmem) fun ds k hds hend => ?_
  rintro ⟨j, -, names', hn', hk'⟩
  exact hf.apart names' (List.mem_of_getElem? hn') k hk' ⟨names, hmem, ds, hds, hend⟩

include hq

/-- What the path of such a directory names is on the way. -/
theorem isOnWay_of_names {k : Location} (hname : s.files.Names s.cwd q k) : IsOnWay h dest todo k := by
  have hu := (isUnlinked_of_rely hs hmem hk).of_isPrefix
    ((List.dropLast_prefix _).trans (hq.trans (List.dropLast_prefix _)))
  have hend := hname.isEnd hu
  rw [hk.cwd] at hend
  exact ⟨names, hmem, q.pieces, hq, hend⟩

end

/-- What an attempt to make a directory has come to, that began on one host and ended on another. If the
copies are feasible, then the directory is there, or one above it was missing. -/
def Attempted (h : Host) (dest : Path) (todo : List Location) (q : Path) (s t : Host) :
    Except Failure Unit → Prop
  | .ok () => t.isDir q = true
  | .error e => IsFeasible h dest todo → checkPath q = .ok () →
    (e ≠ .file .notFound ∧ t.isDir q = true) ∨ e = .file .notFound ∧
      (∃ n, .name n ∈ q.pieces.dropLast) ∧ ∀ pos, ¬ s.files.Leads s.cwd q.pieces.dropLast pos

theorem Attempted.of_rely {made : Except Failure Unit} {u : Host} (ha : Attempted h dest todo q s t made)
    (hr : (contract h dest todo i).rely t u) : Attempted h dest todo q s u made := by
  cases made with
  | ok x => exact hr.isDir ha
  | error e => exact fun hf hc => (ha hf hc).imp_left fun ⟨he, hdir⟩ => ⟨he, hr.isDir hdir⟩

section

variable (hs : IsStart tree dest todo h) (hmem : names ∈ todo) (hq : IsAbove q dest names)
  (hk : (contract h dest todo i).rely h s)

include hs hmem hq hk

theorem safe_tryDir : (tryDir q).Safe (contract h dest todo i) (fun r t =>
    (contract h dest todo i).rely h t ∧ ∃ made, r = .ok made ∧ Attempted h dest todo q s t made) s := by
  refine Task.Safe.attempt (safe_onFiles (fun _ => trivial) .refl (fun {t a files} ht hf => ?_)
    fun {t e} ht hf u hu v hv => ?_)
  · have hkt := (contract h dest todo i).trans hk ht
    obtain ⟨made, hmake, heq⟩ := exists_of_bind_eq_ok hf
    cases heq
    have hway : ∀ k, t.files.Names t.cwd q k → IsOnWay h dest todo k := fun k =>
      isOnWay_of_names hs hmem hq hkt
    refine ⟨.put_dir hmake hway, fun u hu v hv => ?_⟩
    have hafter := (contract h dest todo i).trans hu hv
    have hmade : (contract h dest todo i).rely t { t with files } := .put_dir hmake hway
    exact ⟨hkt.trans (hmade.trans hafter), .ok (), rfl, hafter.isDir (isDir_of_makeDir hmake)⟩
  · have hkt := (contract h dest todo i).trans hk ht
    have hafter := (contract h dest todo i).trans hu hv
    have hmake : t.files.makeDir t.cwd q = .error e := by
      cases hm : t.files.makeDir t.cwd q with
      | ok files =>
        rw [hm] at hf
        cases hf
      | error e' =>
        rw [hm] at hf
        cases hf
        rfl
    refine ⟨hkt.trans hafter, .error (.file e), rfl, fun hfeas hc => ?_⟩
    have hpass := (isPassable_of_rely hmem hkt hfeas).of_isPrefix hq
    rcases hpass.of_makeDir_error (hkt.wellFormed hs.wellFormed) (hkt.keeps.cwd_dir hs.cwd_dir) hc hmake
      with ⟨hne, hdir⟩ | ⟨rfl, hname, hmissing⟩
    · exact .inl ⟨fun heq => hne (Failure.file.inj heq), hafter.isDir hdir⟩
    · exact .inr ⟨rfl, hname, fun pos hl => hmissing pos (ht.leads hl)⟩

end

/-- It is no failure if the directory is there. -/
theorem safe_acceptDir {made : Except Failure Unit} (hk : (contract h dest todo i).rely h s)
    (hmade : made = .ok () → s.isDir q = true) :
    (acceptDir q made).Safe (contract h dest todo i) (fun r t => (contract h dest todo i).rely h t ∧
      (r = .ok () → t.isDir q = true) ∧ (s.isDir q = true → r = .ok ())) s := by
  cases made with
  | ok x => exact fun t ht => ⟨hk.trans ht, fun _ => ht.isDir (hmade rfl), fun _ => rfl⟩
  | error e =>
    unfold acceptDir
    refine Task.Safe.andThen (Process.safe_atomic fun t ht => ⟨trivial, .refl t, fun u hu => ?_⟩)
    show (if t.isDir q = true then pure () else throw e : Task Host Unit).Safe _ _ u
    have hkv : ∀ {v}, (contract h dest todo i).rely u v → (contract h dest todo i).rely h v :=
      fun hv => ((hk.trans ht).trans hu).trans hv
    split
    · rename_i hdir
      exact fun v hv => ⟨hkv hv, fun _ => (hu.trans hv).isDir hdir, fun _ => rfl⟩
    · rename_i hdir
      exact fun v hv => ⟨hkv hv, nofun, fun hd => absurd (ht.isDir hd) hdir⟩

/-- The path can be followed, or it is empty. -/
def IsShort (q : Path) : Prop :=
  q = .empty ∨ checkPath q = .ok ()

/-- **The first of some paths is made.** If the copies are feasible, and so are the paths above it where
one of these is missing, then that does not fail. -/
theorem safe_makeFirstEach_cons {above : List Path} {P : Prop} (hs : IsStart tree dest todo h)
    (hmem : names ∈ todo) (hq : IsAbove q dest names) (hk : (contract h dest todo i).rely h s)
    (habove : ∀ s, (contract h dest todo i).rely h s → (makeFirstEach above).Safe (contract h dest todo i)
      (fun r t => (contract h dest todo i).rely h t ∧
        (P → r = .ok () ∧ ∃ pos, t.files.Leads t.cwd q.pieces.dropLast pos)) s) :
    (makeFirstEach (q :: above)).Safe (contract h dest todo i) (fun r t =>
      (contract h dest todo i).rely h t ∧ (r = .ok () → q = .empty ∨ t.isDir q = true) ∧
      (IsFeasible h dest todo → IsShort q → ((∃ n, .name n ∈ q.pieces.dropLast) → P) → r = .ok ())) s := by
  unfold makeFirstEach
  split
  · rename_i hempty
    exact fun t ht => ⟨hk.trans ht, fun _ => .inl hempty, fun _ _ _ => rfl⟩
  rename_i htext
  refine Task.Safe.andThen (Process.Safe.mono (safe_tryDir hs hmem hq hk) fun r t ht => ?_)
  obtain ⟨hkt, made, rfl, hmade⟩ := ht
  simp only
  split
  · -- A directory above is missing: those above are made, and then this one is tried once more.
    refine Task.Safe.andThen (Process.Safe.mono (habove t hkt) fun r u hu => ?_)
    obtain ⟨hku, hgood⟩ := hu
    cases r with
    | error e =>
      refine fun v hv => ⟨hku.trans hv, nofun, fun hf hshort hg => ?_⟩
      rcases hmade hf (hshort.resolve_left htext) with ⟨hne, -⟩ | ⟨-, hname, -⟩
      · exact absurd rfl hne
      · exact absurd (hgood (hg hname)).1 nofun
    | ok x =>
      refine Task.Safe.andThen (Process.Safe.mono (safe_tryDir hs hmem hq hku) fun r v hv => ?_)
      obtain ⟨hkv, made', rfl, hmade'⟩ := hv
      refine Process.Safe.mono (safe_acceptDir hkv fun hok => ?_) fun r w hw => ?_
      · rw [hok] at hmade'
        exact hmade'
      · obtain ⟨hkw, hdir, hok⟩ := hw
        refine ⟨hkw, fun hr => .inr (hdir hr), fun hf hshort hg => hok ?_⟩
        cases made' with
        | ok x => exact hmade'
        | error e =>
          rcases hmade hf (hshort.resolve_left htext) with ⟨hne, -⟩ | ⟨-, hname, -⟩
          · exact absurd rfl hne
          rcases hmade' hf (hshort.resolve_left htext) with ⟨-, hthere⟩ | ⟨-, -, hmissing⟩
          · exact hthere
          · obtain ⟨-, pos, hl⟩ := hgood (hg hname)
            exact absurd hl (hmissing pos)
  · rename_i hother
    refine Process.Safe.mono (safe_acceptDir hkt fun hok => ?_) fun r u hu => ?_
    · rw [hok] at hmade
      exact hmade
    · obtain ⟨hku, hdir, hok⟩ := hu
      refine ⟨hku, fun hr => .inr (hdir hr), fun hf hshort _ => hok ?_⟩
      cases made with
      | ok x => exact hmade
      | error e =>
        rcases hmade hf (hshort.resolve_left htext) with ⟨-, hthere⟩ | ⟨rfl, -, -⟩
        · exact hthere
        · exact absurd rfl hother

/-- What is above a directory on the way is on the way. -/
theorem isAbove_of_parent? {r : Path} (hq : IsAbove q dest names) (hr : q.parent? = some r) :
    IsAbove r dest names :=
  (prefix_of_parent? hr).trans hq

/-- The path does not end in a dot, unless it is one. -/
def EndsPlainly (q : Path) : Prop :=
  ∀ cs, q.pieces = cs ++ [.here] → cs = []

theorem isShort_of_parent? {r : Path} (hq : IsShort q) (hr : q.parent? = some r) : IsShort r := by
  have hpre := prefix_bytes_of_parent? hr
  by_cases hempty : r = .empty
  · exact .inl hempty
  · rcases hq with hq | hq
    · rw [hq] at hpre
      exact absurd (eq_empty_iff.2 (List.prefix_nil.1 hpre)) hempty
    · exact .inr <| checkPath_of_prefix hq hpre hempty

theorem length_pieces_of_parent? {r : Path} (hr : q.parent? = some r) {n : Nat}
    (hn : q.pieces.length ≤ n + 1) : r.pieces.length ≤ n := by
  rcases pieces_of_parent? hr with ⟨k, c, j, -, -, hq⟩ | ⟨rfl, k, -⟩
  · have hlen := congrArg List.length hq
    rw [List.length_append, List.length_append, List.length_cons] at hlen
    omega
  · exact Nat.zero_le n

/-- If the directory of a path is there, then the steps before the last lead to it. -/
theorem exists_leads_of_parent? {r : Path} {fs : FileSystem} {cwd : Position}
    (hcwd : fs.get? cwd.place = some .dir) (hr : q.parent? = some r)
    (hdots : EndsPlainly q)
    (hdir : r = .empty ∨ fs.isDir cwd r = true) :
    ∃ pos, fs.Leads cwd q.pieces.dropLast pos := by
  obtain ⟨pos, hl, hs⟩ : ∃ pos, fs.Leads cwd r.pieces pos ∧ fs.standing pos = some .dir := by
    rcases hdir with hempty | hdir
    · rw [pieces_empty hempty]
      exact ⟨cwd, ⟨0, Nat.zero_le _, .nil⟩, standing_of_get? hcwd⟩
    · obtain ⟨pos, hpos, hs⟩ := isDir_iff.1 hdir
      exact ⟨pos, leads_pieces_of_steps (locate_eq_ok_iff.1 hpos).2, hs⟩
  rcases pieces_of_parent? hr with ⟨k, c, j, hc, -, hq⟩ | ⟨rfl, k, hq⟩
  · cases j with
    | zero =>
      refine ⟨pos, ?_⟩
      rw [hq, List.replicate_zero, List.dropLast_concat]
      exact hl.append_dots hs k
    | succ j =>
      rw [List.replicate_succ', ← List.cons_append, ← List.append_assoc] at hq
      exact absurd (hdots _ hq) (by simp)
  · refine ⟨cwd, ⟨0, Nat.zero_le _, ?_⟩⟩
    rw [hq, List.dropLast_replicate]
    exact walks_dots (standing_of_get? hcwd) _

/-- Without paths above it a directory is made all the same, if no name comes before its last piece. -/
theorem safe_makeFirstEach_alone {fuel : Nat} (hs : IsStart tree dest todo h) (hmem : names ∈ todo)
    (hq : IsAbove q dest names) (hk : (contract h dest todo i).rely h s)
    (hnone : (∃ n, .name n ∈ q.pieces.dropLast) → ¬ q.pieces.length ≤ fuel) :
    (makeFirstEach [q]).Safe (contract h dest todo i) (fun r t =>
      (contract h dest todo i).rely h t ∧ (r = .ok () → q = .empty ∨ t.isDir q = true) ∧
      (IsFeasible h dest todo → IsShort q → EndsPlainly q → q.pieces.length ≤ fuel → r = .ok ())) s := by
  refine Process.Safe.mono (safe_makeFirstEach_cons (P := False) hs hmem hq hk fun t ht u hu =>
    ⟨ht.trans hu, False.elim⟩) fun r t ⟨hkt, hdir, hok⟩ => ⟨hkt, hdir, fun hf hshort _ hlen => ?_⟩
  exact hok hf hshort fun hname => hnone hname hlen

/-- **A directory is made with those above it.** If the copies are feasible that does not fail. -/
theorem safe_makeFirstEach {fuel : Nat} (hs : IsStart tree dest todo h) (hmem : names ∈ todo)
    (hq : IsAbove q dest names) (hk : (contract h dest todo i).rely h s) :
    (makeFirstEach (ancestors.go fuel q)).Safe (contract h dest todo i) (fun r t =>
      (contract h dest todo i).rely h t ∧ (r = .ok () → q = .empty ∨ t.isDir q = true) ∧
      (IsFeasible h dest todo → IsShort q → EndsPlainly q → q.pieces.length ≤ fuel → r = .ok ())) s := by
  induction fuel generalizing q s with
  | zero =>
    refine safe_makeFirstEach_alone hs hmem hq hk fun ⟨n, hn⟩ hlen => ?_
    rw [List.length_eq_zero_iff.1 (Nat.le_zero.1 hlen)] at hn
    exact absurd hn List.not_mem_nil
  | succ fuel ih =>
    unfold ancestors.go
    split
    · rename_i hnone
      refine safe_makeFirstEach_alone hs hmem hq hk fun ⟨n, hn⟩ => ?_
      have hmem' := List.dropLast_subset _ hn
      obtain ⟨r, hr⟩ := exists_parent?_of_mem (Component.isWritten_name.2 (isFileName_of_mem_pieces hmem'))
        (by simp) hmem'
      rw [hnone] at hr
      cases hr
    · rename_i r hr
      refine Process.Safe.mono (safe_makeFirstEach_cons (P := IsFeasible h dest todo ∧ IsShort q ∧
        EndsPlainly q ∧ q.pieces.length ≤ fuel + 1) hs hmem hq hk fun t ht => ?_) fun u t hut => ?_
      · refine Process.Safe.mono (ih (isAbove_of_parent? hq hr) ht) fun u v ⟨hkv, hdir, hok⟩ => ⟨hkv, ?_⟩
        rintro ⟨hf, hshort, hdots, hlen⟩
        have hmade := hok hf (isShort_of_parent? hshort hr) (fun cs hcs => eq_nil_of_parent? hr hcs)
          (length_pieces_of_parent? hr hlen)
        exact ⟨hmade, exists_leads_of_parent? (hkv.keeps.cwd_dir hs.cwd_dir) hr hdots (hdir hmade)⟩
      · obtain ⟨hkt, hdir, hok⟩ := hut
        exact ⟨hkt, hdir, fun hf hshort hdots hlen => hok hf hshort fun _ => ⟨hf, hshort, hdots, hlen⟩⟩

/-- The way to a copy leads to a directory. -/
def WayLeads (dest : Path) (names : Location) (t : Host) : Prop :=
  ∃ pos, t.files.Leads t.cwd (copyPath dest names).pieces.dropLast pos ∧
    t.files.standing pos = some .dir

theorem WayLeads.of_rely (hw : WayLeads dest names s) (hr : (contract h dest todo i).rely s t) :
    WayLeads dest names t := by
  obtain ⟨pos, hl, hdir⟩ := hw
  exact ⟨pos, hr.leads hl, hr.retains.standing_dir hdir⟩

/-- **The way to a copy is made.** -/
theorem safe_makeWayEach (hs : IsStart tree dest todo h) (hmem : names ∈ todo)
    (hk : (contract h dest todo i).rely h s) :
    (makeWayEach (copyPath dest names)).Safe (contract h dest todo i) (fun r t =>
      (contract h dest todo i).rely h t ∧
      (r = .ok () → WayLeads dest names t) ∧
      (IsFeasible h dest todo → r = .ok ())) s := by
  obtain ⟨n, -, hpieces⟩ := hs.exists_pieces hmem
  obtain ⟨q, k, hparent, hway⟩ := exists_parent?_of_concat hpieces
  have hq : IsAbove q dest names := ⟨List.replicate k .here, hway.symm⟩
  unfold makeWayEach
  rw [hparent]
  refine Task.Safe.during (Process.Safe.mono (safe_makeFirstEach hs hmem hq hk)
    fun r t ⟨hkt, hdir, hok⟩ u hu => ?_)
  refine ⟨hkt.trans hu, fun hr => ?_, fun hf => ?_⟩
  · have hr : r = .ok () := by
      cases r with
      | ok x => rfl
      | error e => cases hr
    unfold WayLeads
    rw [hway]
    rcases hdir hr with hempty | hdir
    · have hcwd := standing_of_get? (hu.keeps.cwd_dir (hkt.keeps.cwd_dir hs.cwd_dir))
      rw [pieces_empty hempty]
      exact ⟨u.cwd, Leads.append_dots ⟨0, Nat.zero_le _, .nil⟩ hcwd k, hcwd⟩
    · obtain ⟨pos, hpos, hs⟩ := isDir_iff.1 (hu.isDir hdir)
      exact ⟨pos, (leads_pieces_of_steps (locate_eq_ok_iff.1 hpos).2).append_dots hs k, hs⟩
  · rw [hok hf (isShort_of_parent? (.inr (hf.short names hmem)) hparent)
      (fun cs hcs => eq_nil_of_parent? hparent hcs) ?_]
    · rfl
    · unfold Path.steps
      split
      · simp
        omega
      · omega

end SolVendor.Export
