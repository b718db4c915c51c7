import SolVendor.Proofs.Install.Landing
import SolVendor.Proofs.Tree.Discovery
/-!
# Install — what an export leaves at its destination

If an export succeeds and its destination is new, then the destination holds
the copied files, the directories on the way down to them, and nothing else
(`Copied`). That is so in whatever order the steps of the copies are taken:
each of them leaves the destination with nothing but directories on the way
and files that are copied (`Filled.of_lands`), and as no two copies land on
one place, each file has the bytes of the tree in the end
(`copied_of_ends`).
-/

namespace SolVendor.Export

open FileSystem SolVendor.Path

variable {h h' s t : Host} {tree dest q : Path} {place k : Location} {names : Location}
  {todo : List Location}

/-- A file is found under the path that names it. -/
theorem entryAt_join_of_names {fs : FileSystem} {cwd : Position} {loc : Location} {bytes : List UInt8}
    (hnames : ∀ n ∈ names, IsFileName n) (hne : names ≠ [])
    (hname : fs.Names cwd (dest.join (.ofNames names)) loc) (hfile : fs.get? loc = some (.file bytes)) :
    fs.entryAt cwd (dest.join (.ofNames names)) = .ok (.file bytes) := by
  have hl := leads_steps_of_pieces (hname.leads hfile (by simp))
    (.inl (endsInSlash_join_ofNames hnames hne))
  exact entryAt_eq_ok_iff.2 ⟨_, locate_eq_ok_iff.2 ⟨hname.1, hl⟩, hfile⟩

/-! ## The destination -/

/-- The destination is a place at which nothing stood on the first host. On the last host its path
leads there; where it has gone below on its way, the paths from the destination are not too long. -/
structure IsNewPlace (dest : Path) (place : Location) (h h' : Host) : Prop where
  vacant : h.files.get? place = none
  leads : h'.files.Leads h'.cwd dest.pieces (.ofPlace place)
  short : ∀ {cs rel}, cs <+: dest.pieces → h'.files.Leads h'.cwd cs (.ofPlace (place ++ rel)) →
    rel ≠ [] → checkPath (dest.join (.ofNames rel)) = .ok ()

/-- What a path to a copy leads to is the copy's own place. -/
theorem IsNewPlace.eq_of_leads (hp : IsNewPlace dest place h h') (hk : t.Keeps h') {mid : Position}
    (hl : t.files.Leads t.cwd dest.pieces mid) : mid = .ofPlace place :=
  (Leads.of_keeps hl hk).unique hp.leads

/-- The place at the destination has directories and some of the files that are copied, and nothing
else. All else is as it was, or a directory has been made. -/
structure Filled (dest : Path) (place : Location) (h : Host) (todo : List Location) (t : Host) :
    Prop where
  cwd : t.cwd = h.cwd
  extends_old : t.files.Extends h.files
  below : ∀ {rel e}, t.files.get? (place ++ rel) = some e →
    (e = .dir ∧ (rel ≠ [] → checkPath (dest.join (.ofNames rel)) = .ok ())) ∨
      rel ∈ todo ∧ ∃ bytes, e = .file bytes
  isOpen : t.files.IsOpen place

/-- All files have been copied, with the bytes that they had on the first host. -/
structure Copied (tree dest : Path) (place : Location) (h : Host) (todo : List Location) (t : Host) : Prop
    extends Filled dest place h todo t where
  copies : ∀ names ∈ todo, ∃ bytes,
    h.files.entryAt h.cwd (tree.join (.ofNames names)) = .ok (.file bytes) ∧
      t.files.entryAt t.cwd (dest.join (.ofNames names)) = .ok (.file bytes)

/-- Nothing is there at first. -/
theorem filled_refl (hfs : h.files.WellFormed) (hvacant : h.files.get? place = none) :
    Filled dest place h todo h where
  cwd := rfl
  extends_old := .refl h.files
  below he := by
    rw [hfs.get?_append hvacant] at he
    cases he
  isOpen rel n e he := by
    rw [List.append_assoc, hfs.get?_append hvacant] at he
    cases he

theorem Filled.hasNoLinks (hf : Filled dest place h todo t) : t.files.HasNoLinks place := by
  intro rel target hlink
  rcases hf.below hlink with ⟨hdir, -⟩ | ⟨-, bytes, hfile⟩
  · cases hdir
  · cases hfile

section

variable (hf : Filled dest place h todo s) (hp : IsNewPlace dest place h h')
  (hnames : ∀ n ∈ names, IsFileName n) (hne : names ≠ [])

include hf hp hnames hne

/-- **A directory is made** on the way to a file. -/
theorem Filled.makeDir (hcheck : checkPath (dest.join (.ofNames names)) = .ok ())
    (hq : LiesAbove q (dest.join (.ofNames names))) (hmakes : MakesDir q s t) (hk : t.Keeps h') :
    Filled dest place h todo t := by
  obtain ⟨k, hname, hnone, rfl⟩ := hmakes
  obtain ⟨parent, hparent, hmem⟩ := hq
  obtain ⟨parent', hparent', habove⟩ := exists_parent?_join_ofNames (p := dest) hnames hne
  obtain rfl := Option.some.inj (hparent.symm.trans hparent')
  have hadds : s.files.AddsDirs s.cwd [q] (s.files.put k .dir) :=
    (AddsDirs.refl s.files s.cwd [q]).put hname hnone List.mem_cons_self
  refine ⟨hf.cwd, hadds.extends_old.trans hf.extends_old, fun {rel e} he => ?_, fun rel n e he => ?_⟩
  · cases hold : s.files.get? (place ++ rel) with
    | some e' =>
      obtain rfl := Option.some.inj ((hadds.extends_old _ _ hold).symm.trans he)
      exact hf.below hold
    | none =>
      obtain ⟨rfl, hway⟩ := hadds.added_below (fun r hr => by
          obtain rfl := List.mem_singleton.1 hr
          exact habove r hmem) (hf.hasNoLinks.isClear _) (fun mid hl => hp.eq_of_leads hk hl) he hold
      refine .inl ⟨rfl, fun hrel => ?_⟩
      rcases hway with ⟨cs, hcs, hl⟩ | ⟨rel', hrel', heq⟩
      · exact hp.short hcs (Leads.of_keeps hl hk) hrel
      · obtain rfl := List.append_cancel_left heq
        have hpre := hrel'.trans (List.dropLast_prefix names)
        exact checkPath_of_prefix hcheck (prefix_bytes_join hnames hpre)
          (join_ofNames_ne (fun n hn => hnames n (hpre.subset hn)) hrel)
  · have he : (s.files.put k .dir).get? (place ++ rel ++ [n]) = some e := he
    cases hold : s.files.get? (place ++ rel ++ [n]) with
    | some e' =>
      obtain ⟨hdir, hn⟩ := hf.isOpen rel n _ hold
      exact ⟨hadds.extends_old _ _ hdir, hn⟩
    | none =>
      obtain ⟨-, q, -, hname⟩ := hadds.added he hold
      exact hname.of_concat

omit hne in
/-- The path of a copy leads to the place of its names. -/
theorem Filled.eq_of_leads (hk : s.Keeps h') {pos : Position}
    (hl : s.files.Leads s.cwd (dest.join (.ofNames names)).pieces pos) : pos = .ofPlace (place ++ names) := by
  rw [pieces_join_ofNames hnames] at hl
  exact hl.eq_of_names (hf.hasNoLinks.isClear _) fun mid hmid => hp.eq_of_leads hk hmid

omit hne in
/-- **A file is written** at the place of its names. -/
theorem Filled.writeFile (hfs : h.files.WellFormed) (hmem : names ∈ todo)
    (hwrites : WritesFile (dest.join (.ofNames names)) s t) (hk : t.Keeps h') :
    Filled dest place h todo t := by
  obtain ⟨k, bytes, hat, rfl, hl, -⟩ := hwrites
  have hnil := ne_nil_of_vacant_or_file hat
  have hput : ∀ l, (s.files.put k (.file bytes)).get? l =
      if l = k then some (.file bytes) else s.files.get? l := get?_put_of_ne_nil hnil
  have hclear := (hf.hasNoLinks.put (e := .file bytes) hnil nofun).isClear
  rw [pieces_join_ofNames hnames] at hl
  have hplace : ∀ mid, (s.files.put k (.file bytes)).Leads s.cwd dest.pieces mid → mid = .ofPlace place :=
    fun mid hmid => hp.eq_of_leads hk hmid
  obtain rfl : k = place ++ names := congrArg Position.place (hl.eq_of_names (hclear _) hplace)
  have hdir : ∀ {l}, s.files.get? l = some .dir → (s.files.put (place ++ names) (.file bytes)).get? l = some .dir :=
    fun hl => (retains_put_file hat).get?_dir hl
  refine ⟨hf.cwd, fun l e he => ?_, fun {rel e} he => ?_, fun rel n e he => ?_⟩
  · show (s.files.put _ _).get? l = some e
    rw [hput, if_neg]
    · exact hf.extends_old l e he
    · rintro rfl
      rw [hfs.get?_append hp.vacant] at he
      cases he
  · by_cases hk : place ++ rel = place ++ names
    · obtain rfl := List.append_cancel_left hk
      exact .inr ⟨hmem, bytes, Option.some.inj (he.symm.trans ((hput _).trans (if_pos rfl)))⟩
    · exact hf.below (((hput _).trans (if_neg hk)).symm.trans he)
  · by_cases hk : place ++ rel ++ [n] = place ++ names
    · rw [List.append_assoc] at hk
      obtain rfl := List.append_cancel_left hk
      obtain ⟨hd, hn⟩ := hl.of_names_concat (hclear _) hplace
      exact ⟨hd, hn, hnames n (by simp)⟩
    · obtain ⟨hd, hn⟩ := hf.isOpen rel n e (((hput _).trans (if_neg hk)).symm.trans he)
      exact ⟨hdir hd, hn⟩

end

/-- **A step of a copy leaves the destination filled.** -/
theorem Filled.of_lands (hf : Filled dest place h todo s) (hfs : h.files.WellFormed)
    (hp : IsNewPlace dest place h h') (hnames : ∀ names ∈ todo, names ≠ [] ∧ ∀ n ∈ names, IsFileName n)
    (hcheck : ∀ names ∈ todo, checkPath (dest.join (.ofNames names)) = .ok ())
    (hstep : Lands dest (todo.map .ofNames) s t) (hk : t.Keeps h') : Filled dest place h todo t := by
  rcases hstep with rfl | ⟨p, hp', hdoes⟩
  · exact hf
  obtain ⟨names, hmem, rfl⟩ := List.mem_map.1 hp'
  obtain ⟨hne, hproper⟩ := hnames names hmem
  rcases hdoes with ⟨q, hq, hmakes⟩ | hwrites
  · exact hf.makeDir hp hproper hne (hcheck names hmem) hq hmakes hk
  · exact hf.writeFile hp hproper hfs hmem hwrites hk

/-- **So do all steps.** -/
theorem filled_of_steps (hfs : h.files.WellFormed) (hp : IsNewPlace dest place h h')
    (hnames : ∀ names ∈ todo, names ≠ [] ∧ ∀ n ∈ names, IsFileName n)
    (hcheck : ∀ names ∈ todo, checkPath (dest.join (.ofNames names)) = .ok ())
    (hsteps : Steps dest (todo.map .ofNames) h t) (hk : t.Keeps h') : Filled dest place h todo t := by
  induction hsteps with
  | refl => exact filled_refl hfs hp.vacant
  | tail _ hstep ih => exact (ih (hstep.keeps.trans hk)).of_lands hfs hp hnames hcheck hstep hk

/-- **All files have been copied**, and to different places. -/
theorem copied_of_ends {g : ImportGraph} {ids : NodeSet} (hfs : h.files.WellFormed)
    (hp : IsNewPlace dest place h h') (hnames : ∀ names ∈ todo, names ≠ [] ∧ ∀ n ∈ names, IsFileName n)
    (hnodup : todo.Nodup)
    (hread : ∀ names ∈ todo, ∃ bytes,
      h.files.entryAt h.cwd (tree.join (.ofNames names)) = .ok (.file bytes))
    (he : Ends tree dest g ids h (.ok (todo.map .ofNames)) h') : Copied tree dest place h todo h' := by
  have hends : ∀ p ∈ todo.map Path.ofNames, EndsInName (dest.join p) :=
    List.forall_mem_map.2 fun names hmem => endsInName_join_ofNames (hnames names hmem).2 (hnames names hmem).1
  have hlanded : ∀ {i names}, todo[i]? = some names →
      ∃ k, HasLanded h tree dest (todo.map .ofNames) i (.ofNames names) k h' := fun {i names} hi =>
    exists_hasLanded_of_ends hends he (by rw [List.getElem?_map, hi]; rfl)
  have hcheck : ∀ names ∈ todo, checkPath (dest.join (.ofNames names)) = .ok () := by
    intro names hmem
    obtain ⟨i, hi⟩ := List.mem_iff_getElem?.1 hmem
    obtain ⟨k, hl⟩ := hlanded hi
    exact hl.target.check
  have hf := filled_of_steps hfs hp hnames hcheck (steps_of_ends hends (pathsOf_of_ends he) he) (.refl h')
  have hplace : ∀ {names k}, names ∈ todo →
      h'.files.Leads h'.cwd (dest.join (.ofNames names)).pieces (.ofPlace k) → k = place ++ names :=
    fun hmem hl => congrArg Position.place (hf.eq_of_leads hp (hnames _ hmem).2 (.refl h') hl)
  refine ⟨hf, fun names hmem => ?_⟩
  obtain ⟨i, hi⟩ := List.mem_iff_getElem?.1 hmem
  obtain ⟨k, hl⟩ := hlanded hi
  obtain rfl := hplace hmem hl.target.leads
  obtain ⟨bytes, hbytes⟩ := hread names hmem
  obtain ⟨pos, hpos, hs⟩ := entryAt_eq_ok_iff.1 hbytes
  have hfile := hl.copies hpos hs ?_ ?_
  · have hsteps := leads_steps_of_pieces hl.target.leads (.inl (hends _ (List.mem_map_of_mem hmem)).slash)
    exact ⟨bytes, hbytes, entryAt_eq_ok_iff.2 ⟨_, locate_eq_ok_iff.2 ⟨hl.target.check, hsteps⟩, hfile⟩⟩
  · -- The other copies have other names.
    rintro ⟨p, hothers, hl'⟩
    obtain ⟨j, hne, hj⟩ := List.mem_eraseIdx_iff_getElem?.1 hothers
    obtain ⟨names', hj', rfl⟩ := Option.map_eq_some_iff.1 ((List.getElem?_map ..).symm.trans hj)
    have heq := List.append_cancel_left (hplace (List.mem_of_getElem? hj') hl')
    rw [← heq] at hj'
    exact hne ((List.getElem?_inj (List.getElem?_eq_some_iff.1 hj').1 hnodup).1 (hj'.trans hi.symm))
  · -- What is copied was there when nothing was at the destination.
    rintro ⟨p, hp', hl'⟩
    obtain ⟨names', hmem', rfl⟩ := List.mem_map.1 hp'
    have hfile := (get?_of_standing_file hs).2
    rw [hplace hmem' hl', hfs.get?_append hp.vacant] at hfile
    cases hfile

end SolVendor.Export
