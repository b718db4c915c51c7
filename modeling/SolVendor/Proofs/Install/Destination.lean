import SolVendor.Proofs.Install.Export
/-!
# Install — new destinations

A destination is new when nothing stood before where its path leads after
the export (`IsNew`). That its path led nowhere before does not say as
much: once `a` has been made, `a/../b` may lead to what has long been
there. Without two dots it does (`isNew_of_not_leads`). The first directory
that an export makes then lies on the way to the destination, and all that
is below a vacant place is vacant.
-/

namespace SolVendor.Export

open FileSystem SolVendor.Path

variable {h h' g : Host} {tree dest : Path} {place : Location} {names : List OsString}
  {todo : List Location}

/-- The destination is new: where its path leads after the export nothing stood before. Where the path
has gone below that place on its way, as `new/src/..` does, the paths from the destination are not too
long. -/
structure IsNew (dest : Path) (h h' : Host) : Prop where
  vacant : ∀ {pos}, h'.files.Leads h'.cwd dest.pieces pos → h.files.get? pos.place = none
  short : ∀ {cs pos rel}, cs <+: dest.pieces → h'.files.Leads h'.cwd dest.pieces pos →
    h'.files.Leads h'.cwd cs (.ofPlace (pos.place ++ rel)) → rel ≠ [] →
      checkPath (dest.join (.ofNames rel)) = .ok ()

theorem IsNew.isNewPlace (hn : IsNew dest h h')
    (hl : h'.files.Leads h'.cwd dest.pieces (.ofPlace place)) : IsNewPlace dest place h h' where
  vacant := hn.vacant hl
  leads := hl
  short hcs hmid hne := hn.short hcs hl hmid hne

/-! ## What an export makes -/

/-- Copies make no links. -/
theorem get?_link_of_steps {paths : List Path} (hsteps : Steps dest paths h h') {k : Location} {target : Path}
    (hlink : h'.files.get? k = some (.link target)) : h.files.get? k = some (.link target) := by
  rcases places_of_steps hsteps k with hsame | ⟨-, hdir⟩ | ⟨-, ⟨bytes, hfile⟩, -⟩
  · rw [← hsame, hlink]
  · rw [hlink] at hdir
    cases hdir
  · rw [hlink] at hfile
    cases hfile

/-- **Copies begin at a vacant place on the way to their destination**, if that has led nowhere. -/
theorem exists_vacant_of_steps (hnames : ∀ names ∈ todo, names ≠ [] ∧ ∀ n ∈ names, IsFileName n)
    (hsteps : Steps dest (todo.map .ofNames) g h') (hnot : ∀ pos, ¬ g.files.Leads g.cwd dest.pieces pos)
    (hleads : ∃ pos, h'.files.Leads h'.cwd dest.pieces pos) :
    ∃ cs n rest dir, dest.pieces = cs ++ .name n :: rest ∧ g.files.Leads g.cwd cs (.ofPlace dir) ∧
      g.files.get? (dir ++ [n]) = none := by
  induction hsteps using Relation.ReflTransGen.head_induction_on with
  | refl =>
    obtain ⟨pos, hl⟩ := hleads
    exact absurd hl (hnot pos)
  | head hstep _ ih =>
    rcases hstep with rfl | ⟨p, hp, hdoes⟩
    · exact ih hnot
    obtain ⟨names, hmem, rfl⟩ := List.mem_map.1 hp
    obtain ⟨hne, hproper⟩ := hnames names hmem
    rcases hdoes with ⟨q, ⟨parent, hparent, habove⟩, loc, hname, hvacant, -⟩ | ⟨-, -, -, -, -, dir, hway⟩
    · obtain ⟨-, cs, dir, n, hpieces, rfl, hl, -, -⟩ := names_iff.1 hname
      obtain ⟨parent', hparent', hps⟩ := exists_parent?_join_ofNames (p := dest) hproper hne
      obtain rfl := Option.some.inj (hparent.symm.trans hparent')
      -- The path of the directory cannot have passed the destination.
      have hpre : q.pieces <+: dest.pieces := by
        rcases List.prefix_or_prefix_of_prefix (hps q habove) (List.prefix_append dest.pieces _) with
          hpre | hpre
        · exact hpre
        · rw [hpieces, List.prefix_concat_iff] at hpre
          rcases hpre with heq | ⟨ds, hds⟩
          · exact ⟨[], by rw [List.append_nil, hpieces, heq]⟩
          · rw [← hds] at hl
            obtain ⟨mid, -, hmid, -⟩ := hl.exists_of_append
            exact absurd hmid (hnot mid)
      obtain ⟨rest, hrest⟩ := hpre
      refine ⟨cs, n, rest, dir, ?_, hl, hvacant⟩
      rw [← hrest, hpieces, List.append_assoc]
      rfl
    · -- The way to a file passes the destination.
      rw [pieces_join_ofNames hproper, List.dropLast_append_of_ne_nil (by simpa using hne)] at hway
      obtain ⟨mid, -, hmid, -⟩ := hway.exists_of_append
      exact absurd hmid (hnot mid)

/-- If a file is copied, then the path of the destination leads somewhere afterwards. -/
theorem exists_leads_of_leadsToFile {k : Location} (hnames : ∀ n ∈ names, IsFileName n) (hne : names ≠ [])
    (hl : LeadsToFile (dest.join (.ofNames names)) k h') :
    ∃ place, h'.files.Leads h'.cwd dest.pieces (.ofPlace place) := by
  have hleads := hl.leads
  rw [pieces_join_ofNames hnames] at hleads
  obtain ⟨mid, l, hmid, hw⟩ := hleads.exists_of_append
  obtain ⟨n, names, rfl⟩ := List.exists_cons_of_ne_nil hne
  -- A name is taken from a directory that stands.
  have hlost : mid.lost = 0 := by
    cases hw with
    | name _ hlost _ _ _ _ => exact hlost
    | link _ hlost _ _ _ => exact hlost
  refine ⟨mid.place, ?_⟩
  have hplace : mid = .ofPlace mid.place := by
    cases mid
    rw [Position.ofPlace, ← hlost]
  rw [← hplace]
  exact hmid

/-! ## Destinations that have led nowhere -/

/-- **A destination without two dots that has led nowhere is new.** -/
theorem isNew_of_not_leads (hfs : h.files.WellFormed) (hcwd : h.files.get? h.cwd.place = some .dir)
    (hup : .up ∉ dest.pieces) (hnot : ∀ pos, ¬ h.files.Leads h.cwd dest.pieces pos)
    (hnames : ∀ names ∈ todo, names ≠ [] ∧ ∀ n ∈ names, IsFileName n)
    (hsteps : Steps dest (todo.map .ofNames) h h') : IsNew dest h h' := by
  by_cases hleads : ∃ pos, h'.files.Leads h'.cwd dest.pieces pos
  · obtain ⟨cs, n, rest, dir, hdest, hdir, hnone⟩ := exists_vacant_of_steps hnames hsteps hnot hleads
    have hkeeps := keeps_of_steps hsteps
    have hlinks : h'.files.HasNoLinks (dir ++ [n]) := by
      intro rel target hlink
      have hold := get?_link_of_steps hsteps hlink
      rw [hfs.get?_append hnone] at hold
      cases hold
    have hdots : .up ∉ rest ∧ .root ∉ rest := by
      rw [hdest] at hup
      refine ⟨fun hmem => hup (by simp [hmem]), ?_⟩
      have hsplit : dest.pieces = (cs ++ [.name n]) ++ rest := by simp [hdest]
      exact root_notMem_of_append hsplit (by simp)
    -- What begins with the vacant place lies there or below.
    have hbelow : ∀ {ds pos}, ds <+: rest →
        h'.files.Leads h'.cwd (cs ++ .name n :: ds) pos → pos = .ofPlace (dir ++ [n] ++ namesOf ds) := by
      intro ds pos hds hl
      have hdir' := hdir.retained hkeeps.files
      rw [← hkeeps.cwd] at hdir'
      exact hdir'.eq_of_namesOf hlinks (fun hmem => hdots.1 (hds.subset hmem))
        (fun hmem => hdots.2 (hds.subset hmem)) hl
    constructor
    · intro pos hl
      rw [hdest] at hl
      rw [hbelow (List.prefix_refl rest) hl]
      exact hfs.get?_append hnone (namesOf rest)
    · intro ds pos rel hds hl hmid hrel
      rw [hdest] at hl
      obtain rfl := hbelow (List.prefix_refl rest) hl
      have hmid : h'.files.Leads h'.cwd ds (.ofPlace (dir ++ [n] ++ namesOf rest ++ rel)) := hmid
      rw [hdest] at hds
      by_cases hpre : ds <+: cs
      · -- Before the vacant place the path is where something stood.
        obtain ⟨ds', rfl⟩ := hpre
        obtain ⟨mid, -, hold, -⟩ := hdir.exists_of_append
        rw [hkeeps.cwd] at hmid
        obtain rfl := (hold.retained hkeeps.files).unique hmid
        obtain ⟨k, -, hw⟩ := hold
        obtain ⟨e, he, -⟩ := hfs.exists_get?_of_walks hw hcwd (by simp) (.inr rfl)
        have he : h.files.get? (dir ++ [n] ++ namesOf rest ++ rel) = some e := he
        rw [List.append_assoc, hfs.get?_append hnone] at he
        cases he
      · -- From there on it goes down.
        obtain ⟨t, rfl⟩ := (List.prefix_or_prefix_of_prefix hds
          (List.prefix_append cs (.name n :: rest))).resolve_left hpre
        rw [List.prefix_append_right_inj] at hds
        cases t with
        | nil => exact absurd (by simp) hpre
        | cons c t =>
          obtain ⟨rfl, ht⟩ := List.cons_prefix_cons.1 hds
          have heq := congrArg Position.place (hbelow ht hmid)
          have heq : dir ++ [n] ++ namesOf rest ++ rel = dir ++ [n] ++ namesOf t := heq
          rw [List.append_assoc] at heq
          exact absurd (List.append_cancel_left heq) (namesOf_append_ne ht hrel)
  · exact ⟨fun {pos} hl => absurd ⟨pos, hl⟩ hleads, fun {_ pos _} _ hl => absurd ⟨pos, hl⟩ hleads⟩

end SolVendor.Export
