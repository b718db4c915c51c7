import SolVendor.Proofs.Install.Ways
/-!
# Install — where copies land

Copies may lead through links, and to one place or to the files that they
copy. Whatever the host, and whatever the order of their steps, each step
makes a missing directory above the path of one of the copies, or writes a
file at the place that this path leads to, or changes nothing (`Lands`). So
a file is as it was unless the path of a copy leads to it
(`places_of_steps`), and a directory is new or as it was.

Each copy relies on no more than that (`among`). A copy that succeeds has
read what its source held at the time, and what it has written may be
written over. But if no path leads to the source, and no other path leads
to where the copy has landed, then the bytes there are those that the
source held before the first step (`HasLanded.copies`).
-/

namespace SolVendor.Export

open FileSystem SolVendor.Path

variable {h h' s t : Host} {tree dest dst src p q : Path} {paths paths' : List Path} {k : Location} {i : Nat}

/-! ## Steps -/

/-- The path is that of a directory above the other path. -/
def LiesAbove (q dst : Path) : Prop :=
  ∃ parent, dst.parent? = some parent ∧ q ∈ parent.ancestors

/-- The path ends in a name and not in a slash. -/
structure EndsInName (dst : Path) : Prop where
  slash : dst.endsInSlash = false
  pieces : ∃ n, dst.pieces = dst.pieces.dropLast ++ [.name n]

theorem endsInName_join_ofNames {names : Location} (hnames : ∀ n ∈ names, IsFileName n) (hne : names ≠ []) :
    EndsInName (dest.join (.ofNames names)) where
  slash := endsInSlash_join_ofNames hnames hne
  pieces := by
    obtain ⟨above, n, rfl⟩ := (List.eq_nil_or_concat names).resolve_left hne
    refine ⟨n, ?_⟩
    rw [pieces_join_ofNames hnames, List.concat_eq_append, List.map_append, ← List.append_assoc]
    exact congrArg (· ++ [Component.name n]) List.dropLast_concat.symm

/-- A directory has been made under the path, where nothing stood, and nothing else has changed. -/
def MakesDir (q : Path) (s t : Host) : Prop :=
  ∃ k, s.files.Names s.cwd q k ∧ s.files.get? k = none ∧ t = { s with files := s.files.put k .dir }

/-- A file has been written where nothing or a file stood, and nothing else has changed. The path leads to
it, and the way of the path led somewhere before. -/
def WritesFile (dst : Path) (s t : Host) : Prop :=
  ∃ k bytes, (s.files.get? k = none ∨ ∃ old, s.files.get? k = some (.file old)) ∧
    t = { s with files := s.files.put k (.file bytes) } ∧ t.files.Leads t.cwd dst.pieces (.ofPlace k) ∧
    ∃ dir, s.files.Leads s.cwd dst.pieces.dropLast dir

/-- What a step of some copies does. -/
def Lands (dest : Path) (paths : List Path) (s t : Host) : Prop :=
  t = s ∨ ∃ p ∈ paths, (∃ q, LiesAbove q (dest.join p) ∧ MakesDir q s t) ∨ WritesFile (dest.join p) s t

/-- The path can be followed, and leads to a file at the place. -/
structure LeadsToFile (dst : Path) (k : Location) (t : Host) : Prop where
  check : checkPath dst = .ok ()
  leads : t.files.Leads t.cwd dst.pieces (.ofPlace k)
  file : ∃ bytes, t.files.get? k = some (.file bytes)

/-- The path of one of the copies leads to the place. -/
def Covers (h : Host) (dest : Path) (paths : List Path) (k : Location) : Prop :=
  ∃ p ∈ paths, h.files.Leads h.cwd (dest.join p).pieces (.ofPlace k)

theorem MakesDir.keeps (h : MakesDir q s t) : s.Keeps t := by
  obtain ⟨k, -, hnone, rfl⟩ := h
  exact ⟨rfl, (extends_put hnone).retains⟩

theorem WritesFile.keeps (h : WritesFile dst s t) : s.Keeps t := by
  obtain ⟨k, bytes, hat, rfl, -⟩ := h
  exact ⟨rfl, retains_put_file hat⟩

theorem Lands.keeps (h : Lands dest paths s t) : s.Keeps t := by
  rcases h with rfl | ⟨p, -, ⟨q, -, hdir⟩ | hfile⟩
  · exact .refl _
  · exact hdir.keeps
  · exact hfile.keeps

theorem Lands.mono (h : Lands dest paths s t) (hsub : paths ⊆ paths') : Lands dest paths' s t :=
  h.imp_right fun ⟨p, hp, hdoes⟩ => ⟨p, hsub hp, hdoes⟩

/-- **What a path leads to it leads to ever after.** -/
theorem Leads.of_keeps {cs : List Component} {pos : Position} (hl : s.files.Leads s.cwd cs pos)
    (hk : s.Keeps t) : t.files.Leads t.cwd cs pos := by
  rw [hk.cwd]
  exact hl.retained hk.files

theorem LeadsToFile.of_keeps (hl : LeadsToFile dst k s) (hk : s.Keeps t) : LeadsToFile dst k t := by
  obtain ⟨hcheck, hleads, bytes, hfile⟩ := hl
  refine ⟨hcheck, Leads.of_keeps hleads hk, ?_⟩
  rcases hk.files k _ hfile with hat | ⟨-, bytes', -, hat⟩
  · exact ⟨bytes, hat⟩
  · exact ⟨bytes', hat⟩

theorem Covers.of_keeps (hc : Covers s dest paths k) (hk : s.Keeps t) : Covers t dest paths k := by
  obtain ⟨p, hp, hl⟩ := hc
  exact ⟨p, hp, Leads.of_keeps hl hk⟩

/-- Writing over a file that the path leads to. -/
theorem LeadsToFile.write (hl : LeadsToFile dst k s) (hend : EndsInName dst) (bytes : List UInt8) :
    WritesFile dst s { s with files := s.files.put k (.file bytes) } := by
  refine ⟨k, bytes, .inr hl.file, rfl, hl.leads.retained (retains_put_file (.inr hl.file)), ?_⟩
  obtain ⟨n, hpieces⟩ := hend.pieces
  have hleads := hl.leads
  rw [hpieces] at hleads
  obtain ⟨dir, -, hdir, -⟩ := hleads.exists_of_append
  exact ⟨dir, hdir⟩

/-- Opening the file to write it. -/
theorem writesFile_of_writePlace (hloc : s.files.writePlace s.cwd dst = .ok k) (hend : EndsInName dst)
    (bytes : List UInt8) : WritesFile dst s { s with files := s.files.put k (.file bytes) } := by
  obtain ⟨n, hpieces⟩ := hend.pieces
  have hnames : dst.pieces = dst.pieces.dropLast ++ [n].map .name := hpieces
  obtain ⟨dir, hdir⟩ := exists_leads_of_writePlace hloc hnames (List.cons_ne_nil _ _) hend.slash
  exact ⟨k, bytes, writePlace_vacant_or_file hloc, rfl, leads_put_of_writePlace hloc hend.slash bytes, _, hdir⟩

/-! ## Several steps -/

/-- From one host to the other some copies have taken steps. -/
abbrev Steps (dest : Path) (paths : List Path) : Host → Host → Prop :=
  Relation.ReflTransGen (Lands dest paths)

theorem keeps_of_steps (hsteps : Steps dest paths s t) : s.Keeps t := by
  induction hsteps with
  | refl => exact .refl s
  | tail _ hstep ih => exact ih.trans hstep.keeps

theorem steps_mono (hsteps : Steps dest paths s t) (hsub : paths ⊆ paths') :
    Steps dest paths' s t :=
  Relation.ReflTransGen.mono (fun _ _ hl => hl.mono hsub) _ _ hsteps

/-- If nothing is copied, nothing happens. -/
theorem eq_of_steps_nil (hsteps : Steps dest [] h h') : h' = h := by
  induction hsteps with
  | refl => rfl
  | tail _ hstep ih =>
    rcases hstep with rfl | ⟨p, hp, -⟩
    · exact ih
    · exact absurd hp List.not_mem_nil

theorem host_of_steps (hsteps : Steps dest paths h h') :
    h' = { h with files := h'.files } := by
  induction hsteps with
  | refl => rfl
  | @tail s t _ hstep ih =>
    rcases hstep with rfl | ⟨p, -, ⟨q, -, k, -, -, rfl⟩ | ⟨k, bytes, -, rfl, -⟩⟩
    · exact ih
    · rw [ih]
    · rw [ih]

/-- **What the steps come to at a place.** -/
theorem places_of_steps (hsteps : Steps dest paths h h') (k : Location) :
    h'.files.get? k = h.files.get? k ∨ (h.files.get? k = none ∧ h'.files.get? k = some .dir) ∨
      ((h.files.get? k = none ∨ ∃ old, h.files.get? k = some (.file old)) ∧
        (∃ bytes, h'.files.get? k = some (.file bytes)) ∧ Covers h' dest paths k) := by
  induction hsteps using Relation.ReflTransGen.head_induction_on with
  | refl => exact .inl rfl
  | @head s t hstep hrest ih =>
    have hkeeps := keeps_of_steps hrest
    rcases hstep with rfl | ⟨p, hp, ⟨q, -, l, -, hnone, rfl⟩ | ⟨l, bytes, hat, rfl, hleads, -⟩⟩
    · exact ih
    · have hput : (s.files.put l .dir).get? k = if k = l then some .dir else s.files.get? k :=
        get?_put_of_ne_nil (ne_nil_of_vacant_or_file (.inl hnone)) k
      by_cases hk : k = l
      · subst hk
        rw [if_pos rfl] at hput
        exact .inr (.inl ⟨hnone, hkeeps.files.get?_dir hput⟩)
      · rw [if_neg hk] at hput
        rw [← hput]
        exact ih
    · have hput : (s.files.put l (.file bytes)).get? k =
          if k = l then some (.file bytes) else s.files.get? k :=
        get?_put_of_ne_nil (ne_nil_of_vacant_or_file hat) k
      by_cases hk : k = l
      · subst hk
        rw [if_pos rfl] at hput
        rcases hkeeps.files k _ hput with hfile | ⟨-, bytes', -, hfile⟩
        · exact .inr (.inr ⟨hat, ⟨bytes, hfile⟩, p, hp, Leads.of_keeps hleads hkeeps⟩)
        · exact .inr (.inr ⟨hat, ⟨bytes', hfile⟩, p, hp, Leads.of_keeps hleads hkeeps⟩)
      · rw [if_neg hk] at hput
        rw [← hput]
        exact ih

/-- **A file that no path leads to holds its bytes.** -/
theorem get?_of_steps {bytes : List UInt8} (hsteps : Steps dest paths s t)
    (hk : s.files.get? k = some (.file bytes)) (hout : ¬ Covers t dest paths k) :
    t.files.get? k = some (.file bytes) := by
  rcases places_of_steps hsteps k with hsame | ⟨hnone, -⟩ | ⟨-, -, hcov⟩
  · rw [hsame, hk]
  · rw [hk] at hnone
    cases hnone
  · exact absurd hcov hout

/-! ## One copy among others -/

/-- A copy takes the steps of its own path, and relies on nothing but that the others take those of theirs. -/
def among (dest : Path) (paths : List Path) (i : Nat) : Contract Host where
  rely := Steps dest (paths.eraseIdx i)
  guar := Lands dest paths[i]?.toList
  live _ := True
  refl _ := .refl
  trans := Relation.ReflTransGen.trans

/-- What a copy does is what the others rely on. -/
theorem among_fit {j : Nat} (hne : i ≠ j) (hg : (among dest paths i).guar s t) :
    (among dest paths j).rely s t := by
  refine .single (Lands.mono hg fun p hp => ?_)
  exact List.mem_eraseIdx_iff_getElem?.2 ⟨i, hne, Option.mem_toList.1 hp⟩

theorem steps_of_rely (hr : (among dest paths i).rely s t) : Steps dest paths s t :=
  steps_mono hr (List.eraseIdx_subset)

theorem step_of_guar (hg : (among dest paths i).guar s t) : Lands dest paths s t :=
  hg.mono fun _ hp => List.mem_of_getElem? (Option.mem_toList.1 hp)

/-- A copy has landed at a place, among the copies to some paths that have begun on a host. The path leads to a
file there. If no other path does, and no path leads to the file that is copied, then the bytes are those that
this has held from the start. -/
structure HasLanded (h : Host) (tree dest : Path) (paths : List Path) (i : Nat) (p : Path) (k : Location)
    (t : Host) : Prop where
  target : LeadsToFile (dest.join p) k t
  copies : ∀ {pos bytes}, h.files.locate h.cwd (tree.join p) = .ok pos →
    h.files.standing pos = some (.file bytes) → ¬ Covers t dest (paths.eraseIdx i) k →
    ¬ Covers t dest paths pos.place → t.files.get? k = some (.file bytes)

/-- **What has landed stays**, whatever the others do. -/
theorem HasLanded.of_rely (hl : HasLanded h tree dest paths i p k s) (hr : (among dest paths i).rely s t) :
    HasLanded h tree dest paths i p k t where
  target := hl.target.of_keeps (keeps_of_steps hr)
  copies hpos hs hothers hsource :=
    get?_of_steps hr (hl.copies hpos hs (fun hc => hothers (hc.of_keeps (keeps_of_steps hr)))
      fun hc => hsource (hc.of_keeps (keeps_of_steps hr))) hothers

section

variable (hi : paths[i]? = some p)

include hi

/-- A step of the copy itself. -/
theorem guar_of_does (hdoes : (∃ q, LiesAbove q (dest.join p) ∧ MakesDir q s t) ∨ WritesFile (dest.join p) s t) :
    (among dest paths i).guar s t :=
  .inr ⟨p, Option.mem_toList.2 hi, hdoes⟩

theorem landing_tryDir (hq : LiesAbove q (dest.join p)) (hs : Steps dest paths h s) :
    (tryDir q).Safe (among dest paths i) (fun _ t => Steps dest paths h t) s := by
  refine Task.Safe.attempt (safe_onFiles (fun _ => trivial) (fun _ => .inl rfl) (fun {t a files} ht hf => ?_)
    fun {t e} ht hf u hu v hv => ?_)
  · obtain ⟨made, hmake, heq⟩ := exists_of_bind_eq_ok hf
    cases heq
    obtain ⟨k, hname, hnone, rfl⟩ := makeDir_eq_ok_iff.1 hmake
    have hguar := guar_of_does hi (.inl ⟨q, hq, k, hname, hnone, rfl⟩)
    refine ⟨hguar, fun u hu v hv => ?_⟩
    exact (hs.trans (steps_of_rely ht)).trans
      (.head (step_of_guar hguar) ((steps_of_rely hu).trans (steps_of_rely hv)))
  · exact ((hs.trans (steps_of_rely ht)).trans (steps_of_rely hu)).trans (steps_of_rely hv)

omit hi in
theorem landing_acceptDir (q : Path) (made : Except Failure Unit) (hs : Steps dest paths h s) :
    (acceptDir q made).Safe (among dest paths i) (fun _ t => Steps dest paths h t) s := by
  cases made with
  | ok x => exact fun t ht => hs.trans (steps_of_rely ht)
  | error e =>
    refine Task.Safe.andThen (Process.safe_atomic fun t ht => ⟨trivial, .inl rfl, fun u hu => ?_⟩)
    have hu := (hs.trans (steps_of_rely ht)).trans (steps_of_rely hu)
    show (if t.isDir q = true then pure () else throw e : Task Host Unit).Safe _ _ u
    split
    · exact fun v hv => hu.trans (steps_of_rely hv)
    · exact fun v hv => hu.trans (steps_of_rely hv)

theorem landing_makeFirstEach {above : List Path} (habove : ∀ q ∈ above, LiesAbove q (dest.join p))
    (hs : Steps dest paths h s) :
    (makeFirstEach above).Safe (among dest paths i) (fun _ t => Steps dest paths h t) s := by
  induction above generalizing s with
  | nil => exact fun t ht => hs.trans (steps_of_rely ht)
  | cons q above ih =>
    have hq := habove q List.mem_cons_self
    unfold makeFirstEach
    split
    · exact fun t ht => hs.trans (steps_of_rely ht)
    refine Task.Safe.andThen (Process.Safe.mono (landing_tryDir hi hq hs) fun r t ht => ?_)
    cases r with
    | error e => exact fun u hu => ht.trans (steps_of_rely hu)
    | ok made =>
      simp only
      split
      · refine Task.Safe.andThen (Process.Safe.mono
          (ih (fun q hq => habove q (List.mem_cons_of_mem _ hq)) ht) fun r u hu => ?_)
        cases r with
        | error e => exact fun v hv => hu.trans (steps_of_rely hv)
        | ok x =>
          refine Task.Safe.andThen (Process.Safe.mono (landing_tryDir hi hq hu) fun r v hv => ?_)
          cases r with
          | error e => exact fun w hw => hv.trans (steps_of_rely hw)
          | ok made => exact landing_acceptDir q made hv
      · exact landing_acceptDir q made ht

theorem landing_makeWayEach (hs : Steps dest paths h s) :
    (makeWayEach (dest.join p)).Safe (among dest paths i) (fun _ t => Steps dest paths h t) s := by
  unfold makeWayEach
  cases hparent : (dest.join p).parent? with
  | none => exact fun t ht => hs.trans (steps_of_rely ht)
  | some parent =>
    refine Task.Safe.during (Process.Safe.mono
      (landing_makeFirstEach hi (fun q hq => ⟨parent, hparent, hq⟩) hs) fun r t ht u hu => ?_)
    exact ht.trans (steps_of_rely hu)

omit hi in
/-- What is opened to be copied is what the path leads to. -/
theorem landing_openSource (src : Path) (hs : Steps dest paths h s) :
    (openSource src).Safe (among dest paths i) (fun r t => Steps dest paths h t ∧
      ∀ pos', r = .ok pos' → ∀ pos, h.files.locate h.cwd src = .ok pos → pos' = pos) s := by
  refine safe_onFiles (fun _ => trivial) (fun _ => .inl rfl) (fun {t a files} ht hf => ?_)
    fun {t e} ht hf u hu => ⟨(hs.trans (steps_of_rely ht)).trans (steps_of_rely hu), nofun⟩
  have hst := hs.trans (steps_of_rely ht)
  obtain ⟨pos', hpos', hf⟩ := exists_of_bind_eq_ok hf
  split at hf
  · cases hf
    refine ⟨.inl rfl, fun u hu => ⟨hst.trans (steps_of_rely hu), fun pos'' heq pos hpos => ?_⟩⟩
    cases heq
    have hl := Leads.of_keeps (locate_eq_ok_iff.1 hpos).2 (keeps_of_steps hst)
    exact (locate_eq_ok_iff.1 hpos').2.unique hl
  · cases hf

variable (hend : EndsInName (dest.join p))

include hend

/-- What is opened to be written is where the path of the copy leads. -/
theorem landing_openTarget (hs : Steps dest paths h s) :
    (openTarget (dest.join p)).Safe (among dest paths i) (fun r t => Steps dest paths h t ∧
      ∀ k, r = .ok k → LeadsToFile (dest.join p) k t) s := by
  refine safe_onFiles (fun _ => trivial) (fun _ => .inl rfl) (fun {t a files} ht hf => ?_)
    fun {t e} ht hf u hu => ⟨(hs.trans (steps_of_rely ht)).trans (steps_of_rely hu), nofun⟩
  obtain ⟨loc, hloc, hf⟩ := exists_of_bind_eq_ok hf
  cases hf
  have hwrites := writesFile_of_writePlace hloc hend []
  have hl : LeadsToFile (dest.join p) a { t with files := t.files.put a (.file []) } :=
    ⟨checkPath_of_writePlace hloc, leads_put_of_writePlace hloc hend.slash [], [],
      (get?_put_of_ne_nil (ne_nil_of_writePlace hloc) a).trans (if_pos rfl)⟩
  have hguar := guar_of_does hi (.inr hwrites)
  refine ⟨hguar, fun u hu => ⟨?_, fun k hk => ?_⟩⟩
  · exact (hs.trans (steps_of_rely ht)).trans (.head (step_of_guar hguar) (steps_of_rely hu))
  · cases hk
    exact hl.of_keeps (keeps_of_steps hu)

/-- **The bytes are transferred**: what no path leads to has held the same from the start. -/
theorem landing_transfer {pos' : Position} (hs : Steps dest paths h s)
    (hpos' : ∀ pos, h.files.locate h.cwd (tree.join p) = .ok pos → pos' = pos)
    (hl : LeadsToFile (dest.join p) k s) :
    (transfer pos' k).Safe (among dest paths i)
      (fun r t => r = .ok () → HasLanded h tree dest paths i p k t) s := by
  refine safe_onFiles (fun _ => trivial) (fun _ => .inl rfl) (fun {t a files} ht hf => ?_)
    fun _ _ _ _ => nofun
  obtain ⟨bytes', hread, hf⟩ := exists_of_bind_eq_ok hf
  cases hf
  have hl := hl.of_keeps (keeps_of_steps ht)
  have hwrites := hl.write hend bytes'
  have hguar := guar_of_does hi (.inr hwrites)
  refine ⟨hguar, fun u hu _ => HasLanded.of_rely ⟨hl.of_keeps hwrites.keeps, ?_⟩ hu⟩
  intro pos bytes hpos hsource hothers hout
  obtain rfl := hpos' pos hpos
  obtain ⟨hplace, hfile⟩ := get?_of_standing_file hsource
  have hbytes := get?_of_steps (hs.trans (steps_of_rely ht)) hfile fun hc => hout (hc.of_keeps hwrites.keeps)
  have hstands : t.files.standing pos' = some (.file bytes) := by
    rw [hplace]
    exact hbytes
  unfold FileSystem.read at hread
  rw [hstands] at hread
  cases hread
  have hne : k ≠ [] := ne_nil_of_vacant_or_file (.inr hl.file)
  exact (get?_put_of_ne_nil hne k).trans (if_pos rfl)

/-- **One copy among others.** If it succeeds, it has landed. -/
theorem landing_copyEach (tree : Path) (hs : Steps dest paths h s) :
    (copyEach tree dest p).Safe (among dest paths i)
      (fun r t => r = .ok () → ∃ k, HasLanded h tree dest paths i p k t) s := by
  unfold copyEach
  refine Task.Safe.andThen (Process.Safe.mono (landing_makeWayEach hi hs) fun r t ht => ?_)
  cases r with
  | error e => exact fun _ _ => nofun
  | ok x =>
    unfold copyBytesEach
    refine Task.Safe.during (Task.Safe.andThen (Process.Safe.mono (landing_openSource (tree.join p) ht)
      fun r u ⟨hu, hsource⟩ => ?_))
    cases r with
    | error e => exact fun _ _ _ _ => nofun
    | ok pos =>
      refine Task.Safe.andThen (Process.Safe.mono (landing_openTarget hi hend hu) fun r v ⟨hv, htarget⟩ => ?_)
      cases r with
      | error e => exact fun _ _ _ _ => nofun
      | ok k =>
        refine Process.Safe.mono (landing_transfer hi hend hv (hsource pos rfl) (htarget k rfl))
          fun r w hw x hx hr => ?_
        cases r with
        | error e => cases hr
        | ok y => exact ⟨k, (hw rfl).of_rely hx⟩

end

/-! ## All copies -/

/-- All copies may go on at the same time. -/
theorem landing_copies (hends : ∀ p ∈ paths, EndsInName (dest.join p)) (tree : Path) (h : Host) :
    (copies tree dest paths h).IsSafe (among dest paths) fun i r t =>
      r = .ok () → ∀ p, paths[i]? = some p → ∃ k, HasLanded h tree dest paths i p k t := by
  intro i process hi
  obtain ⟨p, hp, rfl⟩ := Option.map_eq_some_iff.1 ((List.getElem?_map ..).symm.trans hi)
  refine Process.Safe.mono (landing_copyEach hp (hends p (List.mem_of_getElem? hp)) tree .refl)
    fun r t hr hok q hq => ?_
  obtain rfl := Option.some.inj (hp.symm.trans hq)
  exact hr hok

/-- What all copies together have done they have done step by step. -/
theorem steps_of_guaranteed (hr : Relation.ReflTransGen (Pool.Guaranteed (among dest paths)) s t) :
    Steps dest paths s t :=
  Relation.ReflTransGen.mono (fun _ _ ⟨_, hg⟩ => step_of_guar hg) _ _ hr

section

variable {g : ImportGraph} {ids : NodeSet} (hends : ∀ p ∈ paths, EndsInName (dest.join p))

include hends

/-- **However an export ends**, its copies have taken steps. -/
theorem steps_of_ends {r : Except Failure (List Path)} (hpaths : pathsOf g ids = .ok paths)
    (he : Ends tree dest g ids h r h') : Steps dest paths h h' := by
  cases he with
  | refused _ => exact .refl
  | copied hpaths' hrun _ =>
    obtain rfl := Except.ok.inj (hpaths'.symm.trans hpaths)
    exact steps_of_guaranteed ((landing_copies hends tree h).run hrun among_fit).2
  | failed hpaths' hrun _ _ =>
    obtain rfl := Except.ok.inj (hpaths'.symm.trans hpaths)
    exact steps_of_guaranteed ((landing_copies hends tree h).run hrun among_fit).2

/-- **If it has succeeded**, then each copy has landed. -/
theorem exists_hasLanded_of_ends (he : Ends tree dest g ids h (.ok paths) h') (hi : paths[i]? = some p) :
    ∃ k, HasLanded h tree dest paths i p k h' := by
  cases he with
  | copied hpaths hrun hall =>
    obtain ⟨hsafe, -⟩ := (landing_copies hends tree h).run hrun among_fit
    exact hsafe.result (hall i (List.getElem?_eq_some_iff.1 hi).1) rfl p hi

end

theorem pathsOf_of_ends {g : ImportGraph} {ids : NodeSet} (he : Ends tree dest g ids h (.ok paths) h') :
    pathsOf g ids = .ok paths := by
  cases he with
  | copied hpaths _ _ => exact hpaths

end SolVendor.Export
