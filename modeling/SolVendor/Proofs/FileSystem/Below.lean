import Mathlib.Data.List.Induction
import SolVendor.Proofs.FileSystem.Effects
/-!
# FileSystem — below a place without links

Names lead down from a place one by one, as long as no link is on the way
(`Walks.eq_of_namesOf`); and they do lead there if what stands below is in
directories (`IsOpen.walks`). So where the way down from the place that a
path leads to is clear of links, what is made under longer paths is made
right there: the directories above a path, each at the place of its names or
on the way to that place (`AddsDirs.added_below`), and the file that is
written (`names_of_writePlace_below`).
-/

namespace SolVendor.FileSystem

variable {fs fs' : FileSystem} {cwd pos mid : Position} {p : Path} {ps : List Path}
  {cs : List Component} {names : List OsString} {loc k : Location} {e : Entry}

/-- Neither the place nor one below it is a link. -/
def HasNoLinks (fs : FileSystem) (loc : Location) : Prop :=
  ∀ rel target, fs.get? (loc ++ rel) ≠ some (.link target)

theorem HasNoLinks.append (h : fs.HasNoLinks loc) (rel : Location) :
    fs.HasNoLinks (loc ++ rel) := by
  intro rel' target
  rw [List.append_assoc]
  exact h (rel ++ rel') target

theorem HasNoLinks.addsDirs (hlinks : fs.HasNoLinks loc) (h : fs.AddsDirs cwd ps fs') :
    fs'.HasNoLinks loc :=
  fun rel target hlink => hlinks rel target (h.get?_link hlink)

theorem hasNoLinks_empty : empty.HasNoLinks loc := by
  intro rel target hlink
  by_cases hnil : loc ++ rel = []
  · rw [hnil] at hlink
    cases hlink
  · rw [get?_empty hnil] at hlink
    cases hlink

/-- An entry that is no link adds none. -/
theorem HasNoLinks.put (h : fs.HasNoLinks loc) (hk : k ≠ []) (he : ∀ target, e ≠ .link target) :
    (fs.put k e).HasNoLinks loc := by
  intro rel target hlink
  rw [get?_put_of_ne_nil hk] at hlink
  split at hlink
  · exact he target (Option.some.inj hlink)
  · exact h rel target hlink

/-- No link is on the way down through some names, nor at its end. -/
def IsClear (fs : FileSystem) (loc : Location) (names : List OsString) : Prop :=
  ∀ rel, rel <+: names → ∀ target, fs.get? (loc ++ rel) ≠ some (.link target)

theorem HasNoLinks.isClear (h : fs.HasNoLinks loc) (names : List OsString) : fs.IsClear loc names :=
  fun rel _ => h rel

theorem IsClear.of_prefix {above : List OsString} (h : fs.IsClear loc names) (hpre : above <+: names) :
    fs.IsClear loc above :=
  fun rel hrel => h rel (hrel.trans hpre)

theorem IsClear.tail {n : OsString} (h : fs.IsClear loc (n :: names)) :
    fs.IsClear (loc ++ [n]) names := by
  intro rel hrel target
  rw [List.append_assoc]
  exact h (n :: rel) (List.cons_prefix_cons.2 ⟨rfl, hrel⟩) target

theorem IsClear.addsDirs (h : fs.IsClear loc names) (hadds : fs.AddsDirs cwd ps fs') :
    fs'.IsClear loc names :=
  fun rel hrel target hlink => h rel hrel target (hadds.get?_link hlink)

/-- The name that a step is, if it is one. -/
def nameOf? : Component → Option OsString
  | .name n => some n
  | _ => none

/-- The names among some steps. -/
def namesOf (cs : List Component) : List OsString :=
  cs.filterMap nameOf?

theorem namesOf_map_name (names : List OsString) : namesOf (names.map .name) = names := by
  induction names with
  | nil => rfl
  | cons n names ih => exact congrArg (n :: ·) ih

/-- Fewer steps have no more names. -/
theorem namesOf_append_ne {ds : List Component} {rel : Location} (h : ds <+: cs) (hrel : rel ≠ []) :
    namesOf cs ++ rel ≠ namesOf ds := by
  intro heq
  have hlen := congrArg List.length heq
  have hle : (namesOf ds).length ≤ (namesOf cs).length := (h.filterMap nameOf?).length_le
  have hpos := List.length_pos_iff.2 hrel
  rw [List.length_append] at hlen
  omega

/-- **Steps that go neither up nor to the root lead to the place of their names.** -/
theorem Walks.eq_of_namesOf {l : Nat} (hclear : fs.IsClear loc (namesOf cs)) (hup : .up ∉ cs)
    (hroot : .root ∉ cs) (h : Walks fs l (.ofPlace loc) cs pos) :
    pos = .ofPlace (loc ++ namesOf cs) := by
  induction cs generalizing loc with
  | nil =>
    cases h
    exact congrArg Position.ofPlace (List.append_nil loc).symm
  | cons c cs ih =>
    rw [List.mem_cons, not_or] at hup hroot
    cases h with
    | root _ => exact absurd rfl hroot.1
    | here _ h => exact ih hclear hup.2 hroot.2 h
    | up _ _ => exact absurd rfl hup.1
    | @name _ _ _ _ n _ _ _ _ _ _ h =>
      have hclear : fs.IsClear loc (n :: namesOf cs) := hclear
      have hpos := ih hclear.tail hup.2 hroot.2 h
      rw [hpos, List.append_assoc]
      rfl
    | @link _ _ _ _ n target _ _ _ he _ =>
      have hclear : fs.IsClear loc (n :: namesOf cs) := hclear
      exact absurd he (hclear [n] (List.prefix_append [n] (namesOf cs)) target)

/-- The same for steps that come after a name, if that is no link. -/
theorem Leads.eq_of_namesOf {dir : Location} {n : OsString} {ds : List Component}
    (hdir : fs.Leads cwd cs (.ofPlace dir)) (hlinks : fs.HasNoLinks (dir ++ [n])) (hup : .up ∉ ds)
    (hroot : .root ∉ ds) (h : fs.Leads cwd (cs ++ .name n :: ds) pos) :
    pos = .ofPlace (dir ++ [n] ++ namesOf ds) := by
  obtain ⟨mid, l, hmid, hw⟩ := h.exists_of_append
  obtain rfl := hmid.unique hdir
  cases hw with
  | name _ _ _ _ _ hw => exact hw.eq_of_namesOf (hlinks.isClear _) hup hroot
  | @link _ _ _ _ _ target _ _ _ he _ =>
    have he : fs.get? (dir ++ [n]) = some (.link target) := he
    exact absurd he (by simpa using hlinks [] target)

/-- Names lead to their places. -/
theorem Walks.eq_of_names {l : Nat} (hclear : fs.IsClear loc names)
    (h : Walks fs l (.ofPlace loc) (names.map .name) pos) : pos = .ofPlace (loc ++ names) := by
  have hpos := h.eq_of_namesOf (by rwa [namesOf_map_name]) (by simp) (by simp)
  rwa [namesOf_map_name] at hpos

/-- The same for names at the end of a path. -/
theorem Leads.eq_of_names (hclear : fs.IsClear loc names)
    (hplace : ∀ mid, fs.Leads cwd cs mid → mid = .ofPlace loc)
    (h : fs.Leads cwd (cs ++ names.map .name) pos) : pos = .ofPlace (loc ++ names) := by
  obtain ⟨mid, l, hmid, hw⟩ := h.exists_of_append
  obtain rfl := hplace mid hmid
  exact hw.eq_of_names hclear

/-- The last of the names is found in a directory. -/
theorem Leads.of_names_concat {n : OsString} (hclear : fs.IsClear loc names)
    (hplace : ∀ mid, fs.Leads cwd cs mid → mid = .ofPlace loc)
    (h : fs.Leads cwd (cs ++ (names ++ [n]).map .name) pos) :
    fs.get? (loc ++ names) = some .dir ∧ isTooLong n = false := by
  rw [List.map_append, ← List.append_assoc] at h
  obtain ⟨mid, l, hmid, hw⟩ := h.exists_of_append
  obtain rfl := hmid.eq_of_names hclear hplace
  cases hw with
  | name hd _ hn _ _ _ => exact ⟨hd, hn⟩
  | link hd _ hn _ _ => exact ⟨hd, hn⟩

/-- **Names lead down through directories**, unless there is a link in the end. -/
theorem walks_names
    (hdirs : ∀ {above n}, above ++ [n] <+: names → fs.get? (loc ++ above) = some .dir ∧ isTooLong n = false)
    (he : fs.get? (loc ++ names) = some e) (hlink : ∀ target, e ≠ .link target) :
    Walks fs 0 (.ofPlace loc) (names.map .name) (.ofPlace (loc ++ names)) := by
  induction names using List.reverseRecOn generalizing e with
  | nil =>
    rw [List.append_nil]
    exact .nil
  | append_singleton names n ih =>
    obtain ⟨hdir, hn⟩ := hdirs (List.prefix_refl (names ++ [n]))
    have hbelow := ih (fun hpre => hdirs (hpre.trans (List.prefix_append names [n]))) hdir (by simp)
    rw [← List.append_assoc] at he ⊢
    rw [List.map_append]
    exact hbelow.append (.name hdir rfl hn he hlink .nil)

/-- What stands below the place is in directories, under names that can be followed. -/
def IsOpen (fs : FileSystem) (loc : Location) : Prop :=
  ∀ rel n e, fs.get? (loc ++ rel ++ [n]) = some e →
    fs.get? (loc ++ rel) = some .dir ∧ isTooLong n = false ∧ IsFileName n

/-- Above what stands below an open place there are directories. -/
theorem IsOpen.get?_above (h : fs.IsOpen loc) {rel rest : Location} (hne : rest ≠ [])
    (he : fs.get? (loc ++ (rel ++ rest)) = some e) : fs.get? (loc ++ rel) = some .dir := by
  induction rest using List.reverseRecOn generalizing e with
  | nil => exact absurd rfl hne
  | append_singleton rest n ih =>
    rw [← List.append_assoc, ← List.append_assoc] at he
    obtain ⟨hdir, -, -⟩ := h (rel ++ rest) n e (by rwa [← List.append_assoc])
    by_cases hrest : rest = []
    · rw [hrest, List.append_nil] at hdir
      exact hdir
    · exact ih hrest hdir

theorem IsOpen.isFileName (h : fs.IsOpen loc) {rel : Location}
    (he : fs.get? (loc ++ rel) = some e) : ∀ n ∈ rel, IsFileName n := by
  induction rel using List.reverseRecOn generalizing e with
  | nil => exact fun n hn => absurd hn List.not_mem_nil
  | append_singleton rel m ih =>
    rw [← List.append_assoc] at he
    obtain ⟨hdir, -, hm⟩ := h rel m e he
    intro n hn
    rcases List.mem_append.1 hn with hn | hn
    · exact ih hdir n hn
    · rw [List.mem_singleton.1 hn]
      exact hm

/-- **Names lead to what stands below an open place.** -/
theorem IsOpen.walks (h : fs.IsOpen loc) {rel : Location} (he : fs.get? (loc ++ rel) = some e)
    (hlink : ∀ target, e ≠ .link target) :
    Walks fs 0 (.ofPlace loc) (rel.map .name) (.ofPlace (loc ++ rel)) := by
  refine walks_names (fun {above n} hpre => ?_) he hlink
  obtain ⟨e', he'⟩ : ∃ e', fs.get? (loc ++ above ++ [n]) = some e' := by
    obtain ⟨rest, rfl⟩ := hpre
    rw [List.append_assoc loc]
    by_cases hrest : rest = []
    · rw [hrest, List.append_nil] at he
      exact ⟨e, he⟩
    · exact ⟨.dir, h.get?_above hrest he⟩
  obtain ⟨hdir, hn, -⟩ := h above n e' he'
  exact ⟨hdir, hn⟩

/-- A place that is named is in a directory, under a name that can be followed. -/
theorem Names.of_concat {n : OsString} (h : fs.Names cwd p (loc ++ [n])) :
    fs.get? loc = some .dir ∧ isTooLong n = false ∧ IsFileName n := by
  obtain ⟨-, ds, dir, m, hp, heq, -, hd, hm⟩ := names_iff.1 h
  obtain ⟨rfl, hnm⟩ := List.append_inj' heq rfl
  cases hnm
  exact ⟨hd, hm, Path.isFileName_of_mem_pieces (p := p) (by simp [hp])⟩

/-- The first pieces of a path that ends in names: some of the pieces before these, or all of them
and the first names. -/
theorem prefix_append_names {ds : List Component} (h : ds <+: cs ++ names.map .name) :
    ds <+: cs ∨ ∃ rel, rel <+: names ∧ ds = cs ++ rel.map .name := by
  rcases List.prefix_or_prefix_of_prefix h (List.prefix_append cs _) with hpre | ⟨t, rfl⟩
  · exact .inl hpre
  · obtain ⟨rel, hrel, rfl⟩ := List.prefix_map_iff.1 ((List.prefix_append_right_inj cs).1 h)
    exact .inr ⟨rel, hrel, rfl⟩

/-- **Where directories are added**: at a place on the way to the first pieces, or below it on the way
that the names go. -/
theorem AddsDirs.added_below (h : fs.AddsDirs cwd ps fs')
    (hps : ∀ q ∈ ps, q.pieces <+: cs ++ names.map .name) (hclear : fs.IsClear loc names)
    (hplace : ∀ mid, fs'.Leads cwd cs mid → mid = .ofPlace loc)
    (he : fs'.get? k = some e) (hnone : fs.get? k = none) :
    e = .dir ∧ ((∃ ds, ds <+: cs ∧ fs'.Leads cwd ds (.ofPlace k)) ∨
      ∃ rel, rel <+: names ∧ k = loc ++ rel) := by
  -- The path that names the directory leads to it now.
  obtain ⟨rfl, q, hq, hname⟩ := h.added he hnone
  have hl : fs'.Leads cwd q.pieces (.ofPlace k) := hname.leads he (by simp)
  refine ⟨rfl, ?_⟩
  rcases prefix_append_names (hps q hq) with hpre | ⟨rel, hrel, hpieces⟩
  · exact .inl ⟨q.pieces, hpre, hl⟩
  · rw [hpieces] at hl
    have hk := hl.eq_of_names ((hclear.of_prefix hrel).addsDirs h) hplace
    exact .inr ⟨rel, hrel, congrArg Position.place hk⟩

/-- **A path that goes down through names** names their place, whatever is there. -/
theorem Names.eq_below {n : OsString} (h : fs.Names cwd p k)
    (hp : p.pieces = cs ++ (names ++ [n]).map .name) (hclear : fs.IsClear loc names)
    (hplace : ∀ mid, fs.Leads cwd cs mid → mid = .ofPlace loc) : k = loc ++ (names ++ [n]) := by
  obtain ⟨-, ds, dir, m, hds, rfl, hl, -, -⟩ := names_iff.1 h
  rw [hp, List.map_append, ← List.append_assoc] at hds
  obtain ⟨rfl, hm⟩ := List.append_inj' hds rfl
  cases hm
  obtain rfl : dir = loc ++ names := congrArg Position.place (hl.eq_of_names hclear hplace)
  rw [List.append_assoc]

/-- **A file is written at the place of its names.** -/
theorem names_of_writePlace_below (h : fs.writePlace cwd p = .ok k)
    (hp : p.pieces = cs ++ names.map .name) (hne : names ≠ []) (hslash : p.endsInSlash = false)
    (hclear : fs.IsClear loc names) (hplace : ∀ mid, fs.Leads cwd cs mid → mid = .ofPlace loc) :
    k = loc ++ names ∧ fs.Names cwd p k := by
  obtain ⟨above, n, hnames⟩ := (List.eq_nil_or_concat names).resolve_left hne
  rw [List.concat_eq_append] at hnames
  subst hnames
  have habove := hclear.of_prefix (List.prefix_append above [n])
  have hp' : p.pieces = (cs ++ above.map .name) ++ [.name n] := by
    rw [hp, List.map_append, List.append_assoc]
    rfl
  have hname : fs.Names cwd p k := by
    refine names_of_writePlace h hp' hslash fun dir target hl => ?_
    -- The directory that the file is in lies below the place as well.
    obtain rfl : dir = loc ++ above := congrArg Position.place (hl.eq_of_names habove hplace)
    rw [List.append_assoc]
    exact hclear (above ++ [n]) (List.prefix_refl _) target
  exact ⟨hname.eq_below hp habove hplace, hname⟩

/-- What is before the names leads somewhere, if a file is written. -/
theorem exists_leads_of_writePlace (h : fs.writePlace cwd p = .ok k)
    (hp : p.pieces = cs ++ names.map .name) (hne : names ≠ []) (hslash : p.endsInSlash = false) :
    ∃ loc, fs.Leads cwd cs (.ofPlace loc) := by
  obtain ⟨n, names, rfl⟩ := List.exists_cons_of_ne_nil hne
  unfold writePlace at h
  obtain ⟨u, -, h⟩ := exists_of_bind_eq_ok h
  obtain ⟨place, hw, -⟩ := exists_of_bind_eq_ok h
  have hsteps : p.writeSteps = cs ++ (n :: names).map .name := by
    unfold Path.writeSteps
    rw [hslash, hp]
    rfl
  have hw : fs.walk .write maxLinks cwd p.writeSteps = .ok place := hw
  rw [hsteps] at hw
  obtain ⟨m, l, mid, hm, hmid, hw⟩ := exists_walks_of_walk hw (by decide) (.inl (by simp))
  -- A name is taken from a directory that stands.
  obtain ⟨-, hlost, -⟩ := of_walk_name hw
  refine ⟨mid.place, m, by omega, ?_⟩
  have hplace : mid = .ofPlace mid.place := by
    cases mid
    rw [Position.ofPlace, ← hlost]
  rw [← hplace]
  exact hmid

end SolVendor.FileSystem
