import SolVendor.Proofs.Install.Copying
import SolVendor.Proofs.Install.InTurn
import SolVendor.Proofs.Install.SelfContained
/-!
# Install — copies in any order

Copies that run at the same time may take their steps in any order. Each of
them is complete when it has succeeded, and has left its target alone when
it has failed (`IsSettled.target`); complete copies are alike however they
were made (`eq_of_copied`), and that all can be completed shows on the host
that they start from (`IsFeasible.of_copied`). So an export succeeds in every
order or in none, and if it succeeds it leaves the same host in each of them
(`alike_in_every_order`).

Where the destination's own way goes through the place of a copy and up
again, the directory that is made there is in the way of that copy
(`makes_directory_at_target`).
-/

namespace SolVendor.Export

open FileSystem SolVendor.Path

/-! ## What an export changes -/

/-- The path is that of a node to export. -/
def Exports (g : ImportGraph) (files : NodeSet) (p : Path) : Prop :=
  ∃ id ∈ files, g.path? id = some p

/-- No file to export lies at the destination, whatever links its path goes through. -/
def LiesApart (tree dest : Path) (g : ImportGraph) (files : NodeSet) (h : Host) : Prop :=
  ∀ p, Exports g files p → ∀ pos, h.files.Leads h.cwd (tree.join p).pieces pos →
    ¬ IsWithin h.cwd dest pos.place

/-- The complete copy of a file of the tree stands at the place: the copy's path ends there, and the bytes
are those that the file had at first. -/
def HoldsCopy (tree dest : Path) (h h' : Host) (p : Path) (k : Location) : Prop :=
  h.cwd.IsEnd (dest.join p) k ∧ ∃ bytes, h.files.entryAt h.cwd (tree.join p) = .ok (.file bytes) ∧
    h'.files.get? k = some (.file bytes)

/-- Nothing has changed but the files, and no place but this: a missing directory has been made on the way
to a copy, or a complete copy is there. -/
structure ChangesCopies (tree dest : Path) (g : ImportGraph) (files : NodeSet) (h h' : Host) : Prop where
  host : h' = { h with files := h'.files }
  places : ∀ k, h'.files.get? k = h.files.get? k ∨
    (h.files.get? k = none ∧ h'.files.get? k = some .dir ∧
      ∃ p, Exports g files p ∧ h.cwd.IsOnWay (dest.join p) k) ∨
    ∃ p, Exports g files p ∧ HoldsCopy tree dest h h' p k

/-- The copy of the file has arrived: it is below the destination, and it holds the bytes of the file, which
are as they were. -/
def HasArrived (tree dest : Path) (h h' : Host) (p : Path) : Prop :=
  ∃ root names, h.cwd.along? dest.pieces = some (.ofPlace root) ∧ p = .ofNames names ∧ names ≠ [] ∧
    (∀ n ∈ names, IsFileName n) ∧ HoldsCopy tree dest h h' p (root ++ names) ∧
    ∃ bytes, h.files.entryAt h.cwd (tree.join p) = .ok (.file bytes) ∧
      h'.files.entryAt h'.cwd (tree.join p) = .ok (.file bytes) ∧
      h'.files.entryAt h'.cwd (dest.join p) = .ok (.file bytes)

/-- The way to the destination goes through the place. -/
def GoesThrough (cwd : Position) (dest : Path) (k : Location) : Prop :=
  ∃ ds, ds <+: dest.pieces ∧ cwd.along? ds = some (.ofPlace k)

/-- The place of the copy is as it was, or the complete copy is there, or the destination's own way goes
through it, and up again, and a missing directory has been made there. -/
def IsLeftOrCopied (tree dest : Path) (h h' : Host) (p : Path) (k : Location) : Prop :=
  h'.files.get? k = h.files.get? k ∨ HoldsCopy tree dest h h' p k ∨
    (.up ∈ dest.pieces ∧ GoesThrough h.cwd dest k ∧ h.files.get? k = none ∧ h'.files.get? k = some .dir)

/-! ## After a run of the copies -/

section

variable {h t t' : Host} {tree dest : Path} {todo : List Location} {names : Location} {i : Nat}
  {k : Location} {ds : List Component} {schedule : List Nat} {pool : Pool Host (Except Failure Unit)}
  {r : Except Failure Unit}

/-- **All copies are safe.** -/
theorem isSafe_copies (hs : IsStart tree dest todo h) :
    (copies tree dest (todo.map .ofNames) h).IsSafe (contract h dest todo) fun i r t =>
      ∀ names, todo[i]? = some names → HasEnded h tree dest todo i names r t := by
  intro i p hp
  unfold copies at hp
  rw [List.map_map, List.getElem?_map] at hp
  obtain ⟨names, hi, rfl⟩ := Option.map_eq_some_iff.1 hp
  refine Process.Safe.mono (safe_copyEach hs hi ((contract h dest todo i).refl h))
    fun r t hended names' hi' => ?_
  rw [hi] at hi'
  obtain rfl := Option.some.inj hi'
  exact hended

variable (hs : IsStart tree dest todo h)
  (hrun : (copies tree dest (todo.map .ofNames) h).run schedule = some pool)

include hs hrun

theorem isGrown_of_run : IsGrown h dest todo pool.shared := by
  have hchain : Relation.ReflTransGen (Pool.Guaranteed (contract h dest todo)) h pool.shared :=
    ((isSafe_copies hs).run hrun rely_of_guar).2
  generalize pool.shared = t at hchain
  clear hrun
  induction hchain with
  | refl => exact .refl h
  | tail _ hstep ih =>
    obtain ⟨i, hguar⟩ := hstep
    exact isGrown_of_guar hguar ih

theorem hasEnded_of_run (hi : todo[i]? = some names) (hr : pool.result? i = some r) :
    HasEnded h tree dest todo i names r pool.shared :=
  ((isSafe_copies hs).run hrun rely_of_guar).1.result hr names hi

/-- **What becomes of a copy**: it is complete, or its target is as the others have left it. -/
theorem copied_or_rely_of_run (hended : ∀ j ∈ schedule, ∃ r, pool.result? j = some r)
    (hi : todo[i]? = some names) :
    IsCopied h tree dest todo names pool.shared ∨ (contract h dest todo i).rely h pool.shared := by
  by_cases hin : i ∈ schedule
  · obtain ⟨r, hr⟩ := hended i hin
    have he := hasEnded_of_run hs hrun hi hr
    cases r with
    | ok x => exact .inl (he.copied rfl)
    | error e => exact .inr (he.failed rfl)
  · exact .inr ((isSafe_copies hs).rely_of_notMem hrun rely_of_guar hin)

end

/-! ## Complete copies -/

section

variable {h t t' : Host} {tree dest : Path} {todo : List Location} {names : Location} {k : Location}
  {ds : List Component} {bytes : List UInt8}

/-- A file can only be written where the way leads to a directory. -/
theorem wayLeads_of_names (hname : t.files.Names t.cwd (copyPath dest names) k) :
    WayLeads dest names t := by
  obtain ⟨-, ds, dir, n, hp, -, hl, hd, -⟩ := names_iff.1 hname
  refine ⟨.ofPlace dir, ?_, hd⟩
  rw [hp, List.dropLast_concat]
  exact hl

section

variable (hs : IsStart tree dest todo h) (hg : IsGrown h dest todo t) (hmem : names ∈ todo)

include hs hg hmem

theorem IsGrown.isUnlinked_way : t.files.IsUnlinked h.cwd (copyPath dest names).pieces.dropLast :=
  (Host.Grows.isUnlinked hg (hs.isUnlinked hmem)).of_isPrefix (List.dropLast_prefix _)

/-- **A way that leads to a directory goes through directories.** -/
theorem WayLeads.get?_dir (hw : WayLeads dest names t)
    (hds : ds <+: (copyPath dest names).pieces.dropLast) (hk : h.cwd.along? ds = some (.ofPlace k)) :
    t.files.get? k = some .dir := by
  obtain ⟨pos, hl, hdir⟩ := hw
  rw [hg.cwd] at hl
  have hcwd := (Host.Grows.keeps hg).cwd_dir hs.cwd_dir
  rw [hg.cwd] at hcwd
  exact hl.standing_along (hg.isUnlinked_way hs hmem) (rootIsFirst_of_isPrefix (List.dropLast_prefix _)) hcwd
    hdir hds hk

/-- It was passable from the start. -/
theorem WayLeads.isPassable (hw : WayLeads dest names t) :
    h.files.IsPassable h.cwd (copyPath dest names).pieces.dropLast := by
  obtain ⟨pos, hl, hdir⟩ := hw
  rw [hg.cwd] at hl
  have hcwd := (Host.Grows.keeps hg).cwd_dir hs.cwd_dir
  rw [hg.cwd] at hcwd
  exact Host.Grows.isPassable_of_later hg (hl.isPassable (hg.isUnlinked_way hs hmem)
    (rootIsFirst_of_isPrefix (List.dropLast_prefix _)) hcwd hdir)

end

theorem IsCopied.exists_holdsCopy (hs : IsStart tree dest todo h) (hmem : names ∈ todo)
    (hc : IsCopied h tree dest todo names t) : ∃ k, HoldsCopy tree dest h t (.ofNames names) k := by
  obtain ⟨k, bytes, hbytes, ho⟩ := hc
  obtain ⟨i, hi⟩ := List.getElem?_of_mem hmem
  obtain ⟨names', hi', hk⟩ := ho.isTarget hs hi
  rw [hi] at hi'
  obtain rfl := Option.some.inj hi'
  exact ⟨k, hk, bytes, hbytes, ho.entry⟩

theorem IsCopied.wayLeads (hc : IsCopied h tree dest todo names t) : WayLeads dest names t := by
  obtain ⟨k, bytes, -, ho⟩ := hc
  exact wayLeads_of_names ho.names

/-- **Copies that are complete were feasible.** -/
theorem IsFeasible.of_copied (hs : IsStart tree dest todo h) (hg : IsGrown h dest todo t)
    (hc : ∀ names ∈ todo, IsCopied h tree dest todo names t) : IsFeasible h dest todo := by
  have hways : ∀ names ∈ todo, WayLeads dest names t := fun names hmem => (hc names hmem).wayLeads
  refine ⟨fun names hmem => (hways names hmem).isPassable hs hg hmem, fun names hmem => ?_,
    fun names hmem n hn => ?_, fun names hmem => ?_, fun names hmem k hk => ?_⟩
  · obtain ⟨k, bytes, -, ho⟩ := hc names hmem
    exact ho.names.1
  · obtain ⟨k, bytes, -, ho⟩ := hc names hmem
    obtain ⟨-, ds, dir, m, hp, -, -, -, hm⟩ := names_iff.1 ho.names
    obtain ⟨n', hlast, hpieces⟩ := hs.exists_pieces hmem
    rw [hlast] at hn
    obtain rfl := Option.mem_some_iff.1 hn
    rw [hp, List.dropLast_concat] at hpieces
    obtain ⟨rfl⟩ := Component.name.inj (List.cons.inj (List.append_cancel_left hpieces)).1
    exact hm
  · obtain ⟨k, hk, bytes, -, hfile⟩ := (hc names hmem).exists_holdsCopy hs hmem
    refine ⟨k, hk, ?_⟩
    rcases Host.Grows.places hg k with heq | ⟨-, hdir, -⟩ | ⟨hold, -, -⟩
    · exact .inr ⟨bytes, heq ▸ hfile⟩
    · rw [hfile] at hdir
      cases hdir
    · exact hold
  · rintro ⟨names', hmem', ds, hds, halong⟩
    obtain ⟨k', hk', bytes, -, hfile⟩ := (hc names hmem).exists_holdsCopy hs hmem
    obtain rfl := hk.unique hk'
    rw [(hways names' hmem').get?_dir hs hg hmem' hds halong] at hfile
    cases hfile

/-- What is neither a target nor on a way is as it was. -/
theorem IsGrown.get?_eq (hg : IsGrown h dest todo t) (hway : ¬ IsOnWay h dest todo k)
    (hend : ∀ names ∈ todo, ¬ h.cwd.IsEnd (copyPath dest names) k) : t.files.get? k = h.files.get? k := by
  rcases Host.Grows.places hg k with heq | ⟨-, -, hw⟩ | ⟨-, -, i, names, hi, hk⟩
  · exact heq
  · exact absurd hw hway
  · exact absurd hk (hend names (List.mem_of_getElem? hi))

/-- **Complete copies are alike**: the host that they leave does not depend on how they were made. -/
theorem eq_of_copied (hs : IsStart tree dest todo h) (hg : IsGrown h dest todo t)
    (hc : ∀ names ∈ todo, IsCopied h tree dest todo names t) (hg' : IsGrown h dest todo t')
    (hc' : ∀ names ∈ todo, IsCopied h tree dest todo names t') : t = t' := by
  have hplaces : ∀ k, t.files.get? k = t'.files.get? k := by
    intro k
    by_cases hend : ∃ names ∈ todo, h.cwd.IsEnd (copyPath dest names) k
    · obtain ⟨names, hmem, hk⟩ := hend
      obtain ⟨k₁, hk₁, bytes, hbytes, hfile⟩ := (hc names hmem).exists_holdsCopy hs hmem
      obtain ⟨k₂, hk₂, bytes', hbytes', hfile'⟩ := (hc' names hmem).exists_holdsCopy hs hmem
      obtain rfl := hk.unique hk₁
      obtain rfl := hk.unique hk₂
      rw [hbytes] at hbytes'
      cases hbytes'
      rw [hfile, hfile']
    · have hend : ∀ names ∈ todo, ¬ h.cwd.IsEnd (copyPath dest names) k := fun names hmem hk =>
        hend ⟨names, hmem, hk⟩
      by_cases hway : IsOnWay h dest todo k
      · obtain ⟨names, hmem, ds, hds, hk⟩ := hway
        rw [(hc names hmem).wayLeads.get?_dir hs hg hmem hds hk,
          (hc' names hmem).wayLeads.get?_dir hs hg' hmem hds hk]
      · rw [hg.get?_eq hway hend, hg'.get?_eq hway hend]
  have hroot := (Host.Grows.root hg).trans (Host.Grows.root hg').symm
  rw [Host.Grows.host hg, Host.Grows.host hg', eq_of_get? hplaces hroot]

/-! ## Copies that have failed -/

/-- Of two files of a tree none is above the other. -/
theorem IsStart.eq_of_isPrefix {names' : Location} (hs : IsStart tree dest todo h) (hmem : names ∈ todo)
    (hmem' : names' ∈ todo) (hpre : names <+: names') : names = names' := by
  obtain ⟨rel, rfl⟩ := hpre
  by_cases hnil : rel = []
  · subst hnil
    exact (List.append_nil names).symm
  · obtain ⟨pos, bytes, hpos, hfile, -⟩ := hs.source names hmem
    obtain ⟨pos', bytes', hpos', -, -⟩ := hs.source _ hmem'
    have hl := leads_pieces_of_steps (locate_eq_ok_iff.1 hpos).2
    have hl' := leads_pieces_of_steps (locate_eq_ok_iff.1 hpos').2
    rw [pieces_join_ofNames (hs.names names hmem).2] at hl
    rw [pieces_join_ofNames (hs.names _ hmem').2, List.map_append, ← List.append_assoc] at hl'
    obtain ⟨mid, l, hmid, hw⟩ := hl'.exists_of_append
    obtain rfl := hmid.unique hl
    rw [hw.standing_of_ne_nil (by simpa using hnil) (by simp)] at hfile
    cases hfile

/-- **A target is on a way** only if the destination's own way goes through it. -/
theorem IsStart.goesThrough (hs : IsStart tree dest todo h) (hmem : names ∈ todo)
    (hk : h.cwd.IsEnd (copyPath dest names) k) (hway : IsOnWay h dest todo k) :
    GoesThrough h.cwd dest k := by
  obtain ⟨names', hmem', ds, hds, halong⟩ := hway
  obtain ⟨hne', hproper'⟩ := hs.names names' hmem'
  have hpre := hds.trans (List.dropLast_prefix _)
  rw [pieces_join_ofNames hproper'] at hpre
  rcases prefix_append_names hpre with hpre | ⟨rel, hrel, rfl⟩
  · exact ⟨ds, hpre, halong⟩
  · -- The way to the other file would go through this one, and files are not above each other.
    obtain ⟨loc, hloc, rfl⟩ := hs.exists_place hmem hk
    rw [Position.along?_append, hloc, Option.bind_some, Position.along?_names] at halong
    obtain rfl := List.append_cancel_left (congrArg Position.place (Option.some.inj halong))
    obtain rfl := hs.eq_of_isPrefix hmem hmem' hrel
    have hlen := hds.length_le
    rw [pieces_join_ofNames hproper', List.length_dropLast, List.length_append, List.length_map] at hlen
    have hpos := List.length_pos_iff.2 hne'
    omega

/-- If nothing was at the target, then the way goes up again. -/
theorem IsStart.up_mem (hs : IsStart tree dest todo h) (hmem : names ∈ todo)
    (hk : h.cwd.IsEnd (copyPath dest names) k) (hway : GoesThrough h.cwd dest k)
    (hnone : h.files.get? k = none) : .up ∈ dest.pieces := by
  obtain ⟨ds, ⟨es, hes⟩, hds⟩ := hway
  obtain ⟨loc, hloc, rfl⟩ := hs.exists_place hmem hk
  by_cases hnil : ds = []
  · subst hnil
    have hcwd := hs.cwd_dir
    rw [Option.some.inj hds] at hcwd
    rw [show (Position.ofPlace (loc ++ names)).place = loc ++ names from rfl, hnone] at hcwd
    cases hcwd
  · refine Classical.byContradiction fun hup => ?_
    have hroot := rootIsFirst_of_isPrefix (List.prefix_refl dest.pieces) ds es hes.symm hnil
    rw [← hes, Position.along?_append, hds, Option.bind_some] at hloc
    have hdown := Position.isPrefix_of_along? (fun hin => hup (hes ▸ List.mem_append_right ds hin)) hroot hloc
    have hlen : (loc ++ names).length ≤ loc.length := hdown.length_le
    rw [List.length_append] at hlen
    have hpos := List.length_pos_iff.2 (hs.names names hmem).1
    omega

/-- The copies that have begun have ended. -/
structure IsSettled (h : Host) (tree dest : Path) (todo : List Location) (t : Host) : Prop where
  grown : IsGrown h dest todo t
  copied_or_rely : ∀ {i names}, todo[i]? = some names →
    IsCopied h tree dest todo names t ∨ (contract h dest todo i).rely h t

/-- **A target is as it was or holds a complete copy**, unless the destination's own way goes through it. -/
theorem IsSettled.target (hs : IsStart tree dest todo h) (ht : IsSettled h tree dest todo t)
    (hmem : names ∈ todo) (hk : h.cwd.IsEnd (copyPath dest names) k) :
    IsLeftOrCopied tree dest h t (.ofNames names) k := by
  obtain ⟨i, hi⟩ := List.getElem?_of_mem hmem
  rcases ht.copied_or_rely hi with hc | hr
  · obtain ⟨k', hcopy⟩ := hc.exists_holdsCopy hs hmem
    obtain rfl := hk.unique hcopy.1
    exact .inr (.inl hcopy)
  · rcases Host.Grows.places hr k with heq | ⟨hnone, hdir, hway⟩ | ⟨-, -, j, hne, hj⟩
    · exact .inl heq
    · have hthrough := hs.goesThrough hmem hk hway
      exact .inr (.inr ⟨hs.up_mem hmem hk hthrough hnone, hthrough, hnone, hdir⟩)
    · exact absurd (hs.eq_of_isTarget hj ⟨names, hi, hk⟩) hne

/-- **What has changed at a place**: nothing, or a missing directory has been made, or the complete copy is
there. -/
theorem IsSettled.places (hs : IsStart tree dest todo h) (ht : IsSettled h tree dest todo t)
    (k : Location) : t.files.get? k = h.files.get? k ∨
      (h.files.get? k = none ∧ t.files.get? k = some .dir ∧ IsOnWay h dest todo k) ∨
      ∃ names ∈ todo, HoldsCopy tree dest h t (.ofNames names) k := by
  rcases Host.Grows.places ht.grown k with heq | hdir | ⟨-, ⟨bytes, hfile⟩, i, names, hi, hk⟩
  · exact .inl heq
  · exact .inr (.inl hdir)
  · have hmem := List.mem_of_getElem? hi
    rcases ht.target hs hmem hk with heq | hcopy | ⟨-, -, -, hdir⟩
    · exact .inl heq
    · exact .inr (.inr ⟨names, hmem, hcopy⟩)
    · rw [hfile] at hdir
      cases hdir

end

/-! ## The ends of an export -/

section

variable {h h' h'' : Host} {tree dest : Path} {g : ImportGraph} {files : NodeSet} {paths : List Path}
  {todo : List Location} {names : Location} {schedule : List Nat} {pool : Pool Host (Except Failure Unit)}
  {result other : Except Failure (List Path)}

/-- **What an export starts from.** -/
theorem exists_isStart (hfs : h.files.WellFormed) (hcwd : h.files.get? h.cwd.place = some .dir)
    (hg : Tree.graph h.files h.cwd tree = .ok g) (hplain : IsPlain h dest)
    (hapart : LiesApart tree dest g files h) (hpaths : pathsOf g files = .ok paths) :
    ∃ todo, IsStart tree dest todo h ∧ todo.map .ofNames = paths := by
  obtain ⟨rels, todo, hselects, rfl⟩ := exists_selects hfs hg hpaths
  refine ⟨todo, ⟨hfs, hcwd, hselects.isFileName hfs, hselects.nodup, hplain, fun names hmem => ?_⟩, rfl⟩
  obtain ⟨bytes, hbytes⟩ := hselects.reads names hmem
  obtain ⟨pos, hpos, hfile⟩ := entryAt_eq_ok_iff.1 hbytes
  refine ⟨pos, bytes, hpos, hfile, hapart (.ofNames names) ?_ pos
    (leads_pieces_of_steps (locate_eq_ok_iff.1 hpos).2)⟩
  exact (mem_of_pathsOf hpaths).1 (List.mem_map_of_mem hmem)

/-- **All have succeeded**, so all copies are complete. -/
theorem copied_of_run (hs : IsStart tree dest todo h)
    (hrun : (copies tree dest (todo.map .ofNames) h).run schedule = some pool)
    (hall : ∀ i < (todo.map Path.ofNames).length, pool.result? i = some (.ok ())) :
    ∀ names ∈ todo, IsCopied h tree dest todo names pool.shared := by
  intro names hmem
  obtain ⟨i, hi⟩ := List.getElem?_of_mem hmem
  have hlt : i < (todo.map Path.ofNames).length := by
    rw [List.length_map]
    exact (List.getElem?_eq_some_iff.1 hi).1
  exact (hasEnded_of_run hs hrun hi (hall i hlt)).copied rfl

/-- **No copy fails if the copies are feasible.** -/
theorem ok_of_isFeasible (hs : IsStart tree dest todo h) (hf : IsFeasible h dest todo)
    (hrun : (copies tree dest (todo.map .ofNames) h).run schedule = some pool) {i : Nat}
    {r : Except Failure Unit} (hr : pool.result? i = some r) : r = .ok () := by
  obtain ⟨p, hp, -⟩ := Option.bind_eq_some_iff.1 hr
  have hlt := (List.getElem?_eq_some_iff.1 hp).1
  rw [Pool.length_of_run hrun, copies, List.length_map, List.length_map] at hlt
  exact (hasEnded_of_run hs hrun (List.getElem?_eq_getElem hlt) hr).feasible hf

/-- **How copies end**: all are complete, or they were not feasible. -/
theorem Ends.settled (hs : IsStart tree dest todo h) (hpaths : pathsOf g files = .ok (todo.map .ofNames))
    (he : Ends tree dest g files h result h') : IsSettled h tree dest todo h' ∧
      ((result = .ok (todo.map .ofNames) ∧ ∀ names ∈ todo, IsCopied h tree dest todo names h') ∨
        (∃ e, result = .error e) ∧ ¬ IsFeasible h dest todo) := by
  cases he with
  | refused hp =>
    rw [hpaths] at hp
    cases hp
  | copied hp hrun hall =>
    rw [hpaths] at hp
    cases hp
    have hc := copied_of_run hs hrun hall
    refine ⟨⟨isGrown_of_run hs hrun, fun hi => .inl (hc _ (List.mem_of_getElem? hi))⟩, .inl ⟨rfl, hc⟩⟩
  | @failed _ _ _ _ e hp hrun hended hr =>
    rw [hpaths] at hp
    cases hp
    refine ⟨⟨isGrown_of_run hs hrun, copied_or_rely_of_run hs hrun hended⟩, .inr ⟨⟨e, rfl⟩, fun hf => ?_⟩⟩
    cases ok_of_isFeasible hs hf hrun hr

theorem IsSettled.changesCopies (hs : IsStart tree dest todo h)
    (hpaths : pathsOf g files = .ok (todo.map .ofNames)) (ht : IsSettled h tree dest todo h') :
    ChangesCopies tree dest g files h h' := by
  have hexports : ∀ names ∈ todo, Exports g files (.ofNames names) := fun names hmem =>
    (mem_of_pathsOf hpaths).1 (List.mem_map_of_mem hmem)
  refine ⟨Host.Grows.host ht.grown, fun k => (ht.places hs k).imp_right (.imp ?_ ?_)⟩
  · rintro ⟨hnone, hdir, names, hmem, hway⟩
    exact ⟨hnone, hdir, _, hexports names hmem, hway⟩
  · rintro ⟨names, hmem, hcopy⟩
    exact ⟨_, hexports names hmem, hcopy⟩

theorem IsCopied.hasArrived (hs : IsStart tree dest todo h) (hmem : names ∈ todo)
    (hc : IsCopied h tree dest todo names h') : HasArrived tree dest h h' (.ofNames names) := by
  obtain ⟨hne, hproper⟩ := hs.names names hmem
  obtain ⟨k, hcopy⟩ := hc.exists_holdsCopy hs hmem
  obtain ⟨root, hroot, rfl⟩ := hs.exists_place hmem hcopy.1
  refine ⟨root, names, hroot, rfl, hne, hproper, hcopy, ?_⟩
  obtain ⟨k', bytes, hbytes, ho⟩ := hc
  refine ⟨bytes, hbytes, ?_, entryAt_join_of_names hproper hne ho.names ho.entry⟩
  obtain ⟨pos, bytes', hpos, hfile, hout⟩ := hs.source names hmem
  have hentry := entryAt_eq_ok_iff.2 ⟨pos, hpos, hfile⟩
  rw [hbytes] at hentry
  cases hentry
  obtain ⟨hcheck, hl⟩ := locate_eq_ok_iff.1 hpos
  exact entryAt_eq_ok_iff.2 ⟨pos, locate_eq_ok_iff.2 ⟨hcheck, Host.Grows.leads ho.grown hl⟩,
    ho.grown.standing_source hs hfile hout⟩

/-- If the nodes do not all belong to the graph, nothing happens. -/
theorem Ends.of_pathsOf_error {e : Failure} (hpaths : pathsOf g files = .error e)
    (he : Ends tree dest g files h result h') : result = .error e ∧ h' = h := by
  cases he with
  | refused hp =>
    rw [hpaths] at hp
    cases hp
    exact ⟨rfl, rfl⟩
  | copied hp =>
    rw [hpaths] at hp
    cases hp
  | failed hp =>
    rw [hpaths] at hp
    cases hp

/-- **Exports that copy at the same time.** -/
theorem alike_in_every_order (hfs : h.files.WellFormed) (hcwd : h.files.get? h.cwd.place = some .dir)
    (hg : Tree.graph h.files h.cwd tree = .ok g) (hplain : IsPlain h dest)
    (hapart : LiesApart tree dest g files h) :
    Ends tree dest g files h (Action.run (run tree dest g files false) h).1
        (Action.run (run tree dest g files false) h).2 ∧
      ((∃ id ∈ files, g.path? id = none) → ∀ result h', Ends tree dest g files h result h' →
        (∃ e, result = .error e) ∧ h' = h) ∧
      (∀ paths result h' h'', Ends tree dest g files h (.ok paths) h' →
        Ends tree dest g files h result h'' → result = .ok paths ∧ h'' = h') ∧
      (∀ paths h', Ends tree dest g files h (.ok paths) h' → files.toList.Pairwise (· < ·) ∧
        files.toList.map g.path? = paths.map some ∧ ChangesCopies tree dest g files h h' ∧
        ∀ p ∈ paths, HasArrived tree dest h h' p) ∧
      ∀ e h', Ends tree dest g files h (.error e) h' → ChangesCopies tree dest g files h h' ∧
        ∀ p k, Exports g files p → h.cwd.IsEnd (dest.join p) k → IsLeftOrCopied tree dest h h' p k := by
  refine ⟨ends_run hcwd tree dest g files, ?_, ?_⟩
  · rintro ⟨id, hid, hnone⟩ result h' he
    cases hpaths : pathsOf g files with
    | error e =>
      obtain ⟨rfl, rfl⟩ := he.of_pathsOf_error hpaths
      exact ⟨⟨e, rfl⟩, rfl⟩
    | ok paths =>
      obtain ⟨p, hp⟩ := exists_path?_of_pathsOf hpaths hid
      rw [hnone] at hp
      cases hp
  cases hpaths : pathsOf g files with
  | error e =>
    have hends : ∀ {result h'}, Ends tree dest g files h result h' → result = .error e ∧ h' = h :=
      fun he => he.of_pathsOf_error hpaths
    refine ⟨fun paths _ _ _ he _ => ?_, fun paths _ he => ?_, fun e' h' he => ?_⟩
    · cases (hends he).1
    · cases (hends he).1
    · obtain ⟨-, rfl⟩ := hends he
      exact ⟨⟨rfl, fun k => .inl rfl⟩, fun p k _ _ => .inl rfl⟩
  | ok paths =>
    obtain ⟨todo, hs, rfl⟩ := exists_isStart hfs hcwd hg hplain hapart hpaths
    have hsucceeds : ∀ {paths h'}, Ends tree dest g files h (.ok paths) h' →
        paths = todo.map .ofNames ∧ IsGrown h dest todo h' ∧
          ∀ names ∈ todo, IsCopied h tree dest todo names h' := by
      intro paths h' he
      obtain ⟨ht, ⟨hok, hc⟩ | ⟨⟨e, herr⟩, -⟩⟩ := he.settled hs hpaths
      · exact ⟨Except.ok.inj hok, ht.grown, hc⟩
      · cases herr
    refine ⟨fun paths result h' h'' he he' => ?_, fun paths h' he => ?_, fun e h' he => ?_⟩
    · obtain ⟨rfl, hgrown, hc⟩ := hsucceeds he
      obtain ⟨ht, ⟨rfl, hc'⟩ | ⟨-, hnot⟩⟩ := he'.settled hs hpaths
      · exact ⟨rfl, eq_of_copied hs ht.grown hc' hgrown hc⟩
      · exact absurd (IsFeasible.of_copied hs hgrown hc) hnot
    · obtain ⟨rfl, -, hc⟩ := hsucceeds he
      refine ⟨ImportGraph.pairwise_lt_toList files, map_path?_of_pathsOf hpaths,
        (he.settled hs hpaths).1.changesCopies hs hpaths, fun p hp => ?_⟩
      obtain ⟨names, hmem, rfl⟩ := List.mem_map.1 hp
      exact (hc names hmem).hasArrived hs hmem
    · have ht := (he.settled hs hpaths).1
      refine ⟨ht.changesCopies hs hpaths, fun p k hp hk => ?_⟩
      obtain ⟨names, hmem, rfl⟩ := List.mem_map.1 ((mem_of_pathsOf hpaths).2 hp)
      exact ht.target hs hmem hk

end

/-! ## Two copies -/

theorem hasNoLinks_sampleFiles (a b c : List UInt8) : (sampleFiles a b c).HasNoLinks [] :=
  ((((hasNoLinks_empty.put (by simp) (by simp)).put (by simp) (by simp)).put (by simp) (by simp)).put
    (by simp) (by simp)).put (by simp) (by simp)

theorem pathsOf_sampleGraph :
    pathsOf sampleGraph (sampleGraph.closure [0]) = .ok [⟨"src/A.sol"⟩, ⟨"src/B.sol"⟩] := by
  have hpaths : (pathsOf sampleGraph (sampleGraph.closure [0])).toOption =
      some [⟨"src/A.sol"⟩, ⟨"src/B.sol"⟩] := by decide +kernel
  cases hp : pathsOf sampleGraph (sampleGraph.closure [0]) with
  | error e =>
    rw [hp] at hpaths
    cases hpaths
  | ok paths =>
    rw [hp] at hpaths
    exact congrArg _ (Option.some.inj hpaths)

/-- The files of the graph lie in the tree at `/t`, and so not at `/d`. -/
theorem liesApart_sampleHost {dest : Path} {files : NodeSet}
    (hdest : sampleHost.cwd.along? dest.pieces = some (.ofPlace ["d"])) :
    LiesApart ⟨"/t"⟩ dest sampleGraph files sampleHost := by
  rintro p ⟨id, -, hp⟩ pos hl hwithin
  have hpaths : sampleGraph.nodes.toList.map SourceFile.path =
      [⟨"src/A.sol"⟩, ⟨"src/B.sol"⟩, ⟨"src/C.sol"⟩] := by decide +kernel
  have hmem : p ∈ sampleGraph.nodes.toList.map SourceFile.path := by
    obtain ⟨node, hnode, rfl⟩ := ImportGraph.path?_eq_some_iff.1 hp
    exact List.mem_map_of_mem (Array.mem_toList_iff.2 (ImportGraph.mem_nodes_of_node? hnode))
  rw [hpaths] at hmem
  have hplace : ∃ n, pos = .ofPlace ["t", "src", n] := by
    simp only [List.mem_cons, List.not_mem_nil, or_false] at hmem
    rcases hmem with rfl | rfl | rfl
    · exact ⟨"A.sol", hl.unique (walk_find_eq_ok_iff.1 (by decide +kernel))⟩
    · exact ⟨"B.sol", hl.unique (walk_find_eq_ok_iff.1 (by decide +kernel))⟩
    · exact ⟨"C.sol", hl.unique (walk_find_eq_ok_iff.1 (by decide +kernel))⟩
  obtain ⟨n, rfl⟩ := hplace
  obtain ⟨rel, hrel⟩ := (isWithin_iff hdest).1 hwithin
  exact absurd (List.cons.inj hrel).1 (by decide)

/-- The steps of the two copies to `/d`, in turns. -/
def turns : List Nat :=
  [0, 1, 0, 1, 0, 1, 1, 1, 0, 1, 0, 1, 0, 1]

/-- The two copies made in turns leave what they leave one after the other. -/
theorem alike_in_every_order_sample :
    ∃ pool, (copies ⟨"/t"⟩ ⟨"/d"⟩ [⟨"src/A.sol"⟩, ⟨"src/B.sol"⟩] sampleHost).run turns = some pool ∧
      (∀ i < 2, pool.result? i = some (.ok ())) ∧
      sampleRun = (.ok [⟨"src/A.sol"⟩, ⟨"src/B.sol"⟩], pool.shared) ∧
      HasArrived ⟨"/t"⟩ ⟨"/d"⟩ sampleHost pool.shared ⟨"src/A.sol"⟩ ∧
      HasArrived ⟨"/t"⟩ ⟨"/d"⟩ sampleHost pool.shared ⟨"src/B.sol"⟩ := by
  have hturns : (((copies ⟨"/t"⟩ ⟨"/d"⟩ [⟨"src/A.sol"⟩, ⟨"src/B.sol"⟩] sampleHost).run turns).map
      fun pool => (List.range 2).map fun i => (pool.result? i).map Except.isOk) =
        some [some true, some true] := by decide +kernel
  cases hrun : (copies ⟨"/t"⟩ ⟨"/d"⟩ [⟨"src/A.sol"⟩, ⟨"src/B.sol"⟩] sampleHost).run turns with
  | none =>
    rw [hrun] at hturns
    cases hturns
  | some pool =>
    rw [hrun] at hturns
    have hall : ∀ i < 2, pool.result? i = some (.ok ()) := by
      have hok : ∀ {i}, (pool.result? i).map Except.isOk = some true → pool.result? i = some (.ok ()) := by
        intro i hi
        cases hr : pool.result? i with
        | none =>
          rw [hr] at hi
          cases hi
        | some r =>
          rw [hr] at hi
          cases r with
          | error e => cases hi
          | ok x => rfl
      obtain ⟨h₀, h₁⟩ : (pool.result? 0).map Except.isOk = some true ∧
          (pool.result? 1).map Except.isOk = some true := by
        simpa [List.range, List.range.loop] using hturns
      intro i hi
      match i with
      | 0 => exact hok h₀
      | 1 => exact hok h₁
    have hends : Ends ⟨"/t"⟩ ⟨"/d"⟩ sampleGraph (sampleGraph.closure [0]) sampleHost
        (.ok [⟨"src/A.sol"⟩, ⟨"src/B.sol"⟩]) pool.shared := .copied pathsOf_sampleGraph hrun hall
    obtain ⟨hfirst, -, hsame, hsucceeds, -⟩ := alike_in_every_order
      (wellFormed_sampleFiles _ _ _ : sampleHost.files.WellFormed) rfl graph_sampleHost
      (isPlain_of_hasNoLinks (hasNoLinks_sampleFiles _ _ _) ⟨"/d"⟩) (liesApart_sampleHost rfl)
    obtain ⟨hresult, hhost⟩ := hsame _ _ _ _ hends hfirst
    obtain ⟨-, -, -, harrived⟩ := hsucceeds _ _ hends
    exact ⟨pool, rfl, hall, Prod.ext hresult hhost, harrived _ List.mem_cons_self,
      harrived _ (List.mem_cons_of_mem _ List.mem_cons_self)⟩

/-- The path leads through the place of a copy, and up again to `/d`. -/
def crossing : Path := ⟨"/d/src/A.sol/../.."⟩

/-- **A directory may be made at the place of a copy**: the destination's own way goes through it. -/
theorem makes_directory_at_target :
    IsPlain sampleHost crossing ∧
      LiesApart ⟨"/t"⟩ crossing sampleGraph (sampleGraph.closure [0]) sampleHost ∧
      ∃ e h', Ends ⟨"/t"⟩ crossing sampleGraph (sampleGraph.closure [0]) sampleHost (.error e) h' ∧
        Exports sampleGraph (sampleGraph.closure [0]) ⟨"src/A.sol"⟩ ∧
        sampleHost.cwd.IsEnd (crossing.join ⟨"src/A.sol"⟩) ["d", "src", "A.sol"] ∧
        h'.files.get? ["d", "src", "A.sol"] = some .dir ∧
        ¬ (h'.files.get? ["d", "src", "A.sol"] = sampleHost.files.get? ["d", "src", "A.sol"] ∨
          HoldsCopy ⟨"/t"⟩ crossing sampleHost h' ⟨"src/A.sol"⟩ ["d", "src", "A.sol"]) := by
  have hends := ends_run (h := sampleHost) rfl ⟨"/t"⟩ crossing sampleGraph (sampleGraph.closure [0])
  obtain ⟨hfails, hdir⟩ : (Action.run (run ⟨"/t"⟩ crossing sampleGraph (sampleGraph.closure [0]) false)
        sampleHost).1.isOk = false ∧
      (Action.run (run ⟨"/t"⟩ crossing sampleGraph (sampleGraph.closure [0]) false)
        sampleHost).2.files.get? ["d", "src", "A.sol"] = some .dir := by decide +kernel
  refine ⟨isPlain_of_hasNoLinks (hasNoLinks_sampleFiles _ _ _) crossing,
    liesApart_sampleHost (by decide +kernel), ?_⟩
  have hexports := (mem_of_pathsOf pathsOf_sampleGraph).1 List.mem_cons_self
  rcases hrun : Action.run (run ⟨"/t"⟩ crossing sampleGraph (sampleGraph.closure [0]) false) sampleHost
    with ⟨e | paths, h'⟩
  · rw [hrun] at hends hdir
    have hnone : sampleHost.files.get? ["d", "src", "A.sol"] = none := by decide +kernel
    refine ⟨e, h', hends, hexports, ?_, hdir, ?_⟩
    · unfold Position.IsEnd
      decide +kernel
    · rw [hdir, hnone]
      rintro (heq | ⟨-, bytes, -, hfile⟩)
      · cases heq
      · rw [hdir] at hfile
        cases hfile
  · rw [hrun] at hfails
    cases hfails

end SolVendor.Export
