import SolVendor.Proofs.Install.Ways
/-!
# Install — one copy among others

Once the way to a copy is made, its source is opened, its target is opened
and emptied, and the bytes are written. Nobody else writes at the target, so
whatever the others do a copy ends in one of two ways (`HasEnded`): it has
failed, and its target is as the others have left it, or the complete file
is there. And it does not fail if the copies are feasible
(`safe_copyEach`).
-/

namespace SolVendor.Export

open FileSystem SolVendor.Path

variable {h s t : Host} {tree dest : Path} {todo : List Location} {names : Location} {i : Nat}

/-! ## The target -/

/-- The files have grown by directories on the ways and by copies at the targets. -/
def IsGrown (h : Host) (dest : Path) (todo : List Location) (t : Host) : Prop :=
  Host.Grows (IsOnWay h dest todo) (fun k => ∃ j, IsTarget h dest todo j k) h t

theorem isGrown_of_rely (hk : (contract h dest todo i).rely h t) : IsGrown h dest todo t :=
  hk.mono fun _ ⟨j, _, hj⟩ => ⟨j, hj⟩

theorem isGrown_of_guar (hk : (contract h dest todo i).guar s t) (hs : IsGrown h dest todo s) :
    IsGrown h dest todo t :=
  Host.Grows.trans hs (hk.mono fun _ hi => ⟨i, hi⟩)

/-- **A file that is copied stays as it is.** -/
theorem IsGrown.standing_source (hg : IsGrown h dest todo t) (hs : IsStart tree dest todo h) {pos : Position}
    {bytes : List UInt8} (hpos : h.files.standing pos = some (.file bytes))
    (hout : ¬ IsWithin h.cwd dest pos.place) : t.files.standing pos = some (.file bytes) := by
  obtain ⟨heq, hfile⟩ := get?_of_standing_file hpos
  have hat := hg.get?_of_not_target hfile fun ⟨j, hj⟩ => hs.not_isTarget hout hj
  rw [heq]
  exact hat

/-- The file at the target of a copy, whatever its bytes are. -/
structure IsOpened (h : Host) (dest : Path) (todo : List Location) (names : Location) (k : Location)
    (entry : Entry) (t : Host) : Prop where
  grown : IsGrown h dest todo t
  names : t.files.Names t.cwd (copyPath dest names) k
  entry : t.files.get? k = some entry

/-- A complete copy: the target holds the bytes of the file of the tree. -/
def IsCopied (h : Host) (tree dest : Path) (todo : List Location) (names : Location) (t : Host) : Prop :=
  ∃ k bytes, h.files.entryAt h.cwd (tree.join (.ofNames names)) = .ok (.file bytes) ∧
    IsOpened h dest todo names k (.file bytes) t

section

variable {k : Location} {entry : Entry} (hs : IsStart tree dest todo h) (hi : todo[i]? = some names)

include hs hi

theorem IsOpened.isTarget (ho : IsOpened h dest todo names k entry s) : IsTarget h dest todo i k := by
  have hu : s.files.IsUnlinked h.cwd (copyPath dest names).pieces :=
    ho.grown.isUnlinked (hs.isUnlinked (List.mem_of_getElem? hi))
  have hname := ho.names
  rw [ho.grown.cwd] at hname
  exact ⟨names, hi, hname.isEnd (hu.of_isPrefix (List.dropLast_prefix _))⟩

/-- Nobody else writes there. -/
theorem IsOpened.of_rely (ho : IsOpened h dest todo names k entry s)
    (hr : (contract h dest todo i).rely s t) : IsOpened h dest todo names k entry t := by
  refine ⟨Host.Grows.trans ho.grown (hr.mono fun _ ⟨j, _, hj⟩ => ⟨j, hj⟩), ?_, ?_⟩
  · rw [hr.cwd]
    exact ho.names.retained hr.retains
  · refine hr.get?_of_not_target ho.entry fun ⟨j, hne, hj⟩ => hne ?_
    exact hs.eq_of_isTarget hj (ho.isTarget hs hi)

theorem IsCopied.of_rely (hc : IsCopied h tree dest todo names s)
    (hr : (contract h dest todo i).rely s t) : IsCopied h tree dest todo names t := by
  obtain ⟨k, bytes, hbytes, ho⟩ := hc
  exact ⟨k, bytes, hbytes, ho.of_rely hs hi hr⟩

omit hs hi in
/-- **Bytes are written** at the target. -/
theorem IsOpened.write {bytes : List UInt8} (hg : IsGrown h dest todo s) (ht : IsTarget h dest todo i k)
    (hname : s.files.Names s.cwd (copyPath dest names) k)
    (hat : s.files.get? k = none ∨ ∃ old, s.files.get? k = some (.file old)) :
    (contract h dest todo i).guar s { s with files := s.files.put k (.file bytes) } ∧
      IsOpened h dest todo names k (.file bytes) { s with files := s.files.put k (.file bytes) } := by
  have hguar : (contract h dest todo i).guar s { s with files := s.files.put k (.file bytes) } :=
    .put_file hname hat ht
  refine ⟨hguar, isGrown_of_guar hguar hg, hname.retained hguar.retains, ?_⟩
  exact (get?_put_of_ne_nil hname.ne_nil k).trans (if_pos rfl)

/-- **What is opened to be written is the target.** -/
theorem names_of_openTarget (hk : (contract h dest todo i).rely h s)
    (hw : s.files.writePlace s.cwd (copyPath dest names) = .ok k) :
    s.files.Names s.cwd (copyPath dest names) k ∧ IsTarget h dest todo i k := by
  have hmem := List.mem_of_getElem? hi
  obtain ⟨hne, hproper⟩ := hs.names names hmem
  obtain ⟨n, -, hpieces⟩ := hs.exists_pieces hmem
  have hu := isUnlinked_of_rely hs hmem hk
  have hway := hu.of_isPrefix (List.dropLast_prefix _)
  have hname : s.files.Names s.cwd (copyPath dest names) k := by
    refine names_of_writePlace hw hpieces (endsInSlash_join_ofNames hproper hne) fun dir link hl => ?_
    have halong : s.cwd.along? ((copyPath dest names).pieces.dropLast ++ [.name n]) =
        some (.ofPlace (dir ++ [n])) := Position.along?_concat_name.2 ⟨dir, hl.along? hway, rfl⟩
    rw [← hpieces] at halong
    exact hu _ _ link (List.prefix_refl _) halong
  have hend := hname.isEnd hway
  rw [hk.cwd] at hend
  exact ⟨hname, names, hi, hend⟩

/-! ### Its steps -/

omit hi in
/-- The file to copy can be opened. -/
theorem safe_openSource {pos : Position} {bytes : List UInt8} (hk : (contract h dest todo i).rely h s)
    (hpos : h.files.locate h.cwd (tree.join (.ofNames names)) = .ok pos)
    (hfile : h.files.standing pos = some (.file bytes)) (hout : ¬ IsWithin h.cwd dest pos.place) :
    (openSource (tree.join (.ofNames names))).Safe (contract h dest todo i) (fun r t =>
      (contract h dest todo i).rely s t ∧ r = .ok pos) s := by
  have hfinds : ∀ {t}, (contract h dest todo i).rely h t →
      t.files.locate t.cwd (tree.join (.ofNames names)) = .ok pos ∧
        t.files.standing pos = some (.file bytes) := by
    intro t ht
    obtain ⟨hc, hl⟩ := locate_eq_ok_iff.1 hpos
    exact ⟨locate_eq_ok_iff.2 ⟨hc, ht.leads hl⟩, (isGrown_of_rely ht).standing_source hs hfile hout⟩
  refine safe_onFiles (fun _ => trivial) .refl (fun {t a files} ht hf => ?_)
    fun {t e} ht hf => ?_
  · obtain ⟨hlocate, hstands⟩ := hfinds (hk.trans ht)
    rw [hlocate] at hf
    simp only [bind, Except.bind, hstands] at hf
    cases hf
    exact ⟨.refl t, fun u hu => ⟨ht.trans hu, rfl⟩⟩
  · obtain ⟨hlocate, hstands⟩ := hfinds (hk.trans ht)
    rw [hlocate] at hf
    simp only [bind, Except.bind, hstands] at hf
    cases hf

/-- The file to write is opened and emptied, or nothing has happened at the target. -/
theorem safe_openTarget (hk : (contract h dest todo i).rely h s)
    (hway : WayLeads dest names s) :
    (openTarget (copyPath dest names)).Safe (contract h dest todo i) (fun r t =>
      match r with
      | .ok k => IsOpened h dest todo names k (.file []) t
      | .error _ => (contract h dest todo i).rely h t ∧ ¬ IsFeasible h dest todo) s := by
  have hmem := List.mem_of_getElem? hi
  refine safe_onFiles (fun _ => trivial) .refl (fun {t k files} ht hf => ?_)
    fun {t e} ht hf u hu => ?_
  · have hkt := hk.trans ht
    obtain ⟨loc, hw, heq⟩ := exists_of_bind_eq_ok hf
    cases heq
    obtain ⟨hname, htarget⟩ := names_of_openTarget hs hi hkt hw
    obtain ⟨hguar, ho⟩ := IsOpened.write (isGrown_of_rely hkt) htarget hname
      (writePlace_vacant_or_file hw)
    exact ⟨hguar, fun u hu => ho.of_rely hs hi hu⟩
  · have hkt := hk.trans ht
    refine ⟨hkt.trans hu, fun hfeas => ?_⟩
    -- All that can be in the way of opening the file is ruled out.
    obtain ⟨hne, hproper⟩ := hs.names names hmem
    obtain ⟨n, hlast, hpieces⟩ := hs.exists_pieces hmem
    obtain ⟨pos, hl, hdir⟩ := hway
    have hl := ht.leads hl
    have hdir := ht.retains.standing_dir hdir
    have hu := isUnlinked_of_rely hs hmem hkt
    obtain ⟨k, hend, hat⟩ := hfeas.vacant_or_file names hmem
    have hend' := hend
    unfold Position.IsEnd at hend'
    rw [hpieces] at hend'
    obtain ⟨dir, hdir', hloc⟩ := Position.along?_concat_name.1 hend'
    obtain rfl : k = dir ++ [n] := congrArg Position.place hloc
    have halong := hl.along? (hu.of_isPrefix (List.dropLast_prefix _))
    rw [hkt.cwd, hdir'] at halong
    obtain rfl := Option.some.inj halong
    have hvacant : t.files.get? (dir ++ [n]) = none ∨
        ∃ bytes, t.files.get? (dir ++ [n]) = some (.file bytes) := by
      rcases hkt.places (dir ++ [n]) with heq | ⟨-, -, hw⟩ | ⟨-, hfile, -⟩
      · rwa [heq]
      · exact absurd hw (hfeas.apart names hmem _ hend)
      · exact .inr hfile
    have hw := writePlace_of_leads (hfeas.short names hmem) hpieces
      (endsInSlash_join_ofNames hproper hne) hl hdir (hfeas.last names hmem n hlast) hvacant
    rw [hw] at hf
    cases hf

/-- The bytes of the file to copy are written to the target. -/
theorem safe_transfer {k : Location} {pos : Position} {bytes : List UInt8}
    (ho : IsOpened h dest todo names k (.file []) s)
    (hfile : h.files.standing pos = some (.file bytes)) (hout : ¬ IsWithin h.cwd dest pos.place) :
    (transfer pos k).Safe (contract h dest todo i) (fun r t =>
      r = .ok () ∧ IsOpened h dest todo names k (.file bytes) t) s := by
  have hreads : ∀ {t}, (contract h dest todo i).rely s t → t.files.read pos = .ok bytes := by
    intro t ht
    unfold FileSystem.read
    rw [(ho.of_rely hs hi ht).grown.standing_source hs hfile hout]
  refine safe_onFiles (fun _ => trivial) .refl (fun {t a files} ht hf => ?_)
    fun {t e} ht hf => ?_
  · rw [hreads ht] at hf
    cases hf
    have ho' := ho.of_rely hs hi ht
    obtain ⟨hguar, hw⟩ : (contract h dest todo i).guar t _ ∧ IsOpened h dest todo names k (.file bytes) _ :=
      IsOpened.write ho'.grown (ho'.isTarget hs hi) ho'.names (.inr ⟨_, ho'.entry⟩)
    exact ⟨hguar, fun u hu => ⟨rfl, hw.of_rely hs hi hu⟩⟩
  · rw [hreads ht] at hf
    cases hf

end

/-- How a copy ends: it has failed and its target is as the others have left it, or the copy is complete.
If the copies are feasible it does not fail. -/
structure HasEnded (h : Host) (tree dest : Path) (todo : List Location) (i : Nat) (names : Location)
    (r : Except Failure Unit) (t : Host) : Prop where
  copied : r = .ok () → IsCopied h tree dest todo names t
  failed : ∀ {e}, r = .error e → (contract h dest todo i).rely h t
  feasible : IsFeasible h dest todo → r = .ok ()

section

variable (hs : IsStart tree dest todo h) (hi : todo[i]? = some names)

include hs hi

theorem HasEnded.of_rely {r : Except Failure Unit} (he : HasEnded h tree dest todo i names r s)
    (hr : (contract h dest todo i).rely s t) : HasEnded h tree dest todo i names r t where
  copied hok := (he.copied hok).of_rely hs hi hr
  failed herr := (he.failed herr).trans hr
  feasible := he.feasible

/-- **The bytes of a file are copied**, once the way is made. -/
theorem safe_copyBytesEach (hk : (contract h dest todo i).rely h s)
    (hway : WayLeads dest names s) :
    (copyBytesEach (tree.join (.ofNames names)) (copyPath dest names)).Safe (contract h dest todo i)
      (HasEnded h tree dest todo i names) s := by
  obtain ⟨src, bytes, hpos, hfile, hout⟩ := hs.source names (List.mem_of_getElem? hi)
  have hread := entryAt_eq_ok_iff.2 ⟨src, hpos, hfile⟩
  unfold copyBytesEach
  refine Task.Safe.during (Task.Safe.andThen (Process.Safe.mono (safe_openSource hs hk hpos hfile hout)
    fun r t ⟨hst, hr⟩ => ?_))
  have hkt := hk.trans hst
  subst hr
  simp only
  refine Task.Safe.andThen (Process.Safe.mono (safe_openTarget hs hi hkt (hway.of_rely hst)) fun r u hu => ?_)
  cases r with
  | error e =>
    obtain ⟨hku, hnot⟩ := hu
    exact fun v hv w hw => ⟨nofun, fun _ => (hku.trans hv).trans hw, fun hf => absurd hf hnot⟩
  | ok k =>
    refine Process.Safe.mono (safe_transfer hs hi hu hfile hout) fun r v ⟨hr, ho⟩ w hw => ?_
    subst hr
    exact ⟨fun _ => ⟨k, bytes, hread, ho.of_rely hs hi hw⟩, nofun, fun _ => rfl⟩

/-- **One copy among others.** -/
theorem safe_copyEach (hk : (contract h dest todo i).rely h s) :
    (copyEach tree dest (.ofNames names)).Safe (contract h dest todo i)
      (HasEnded h tree dest todo i names) s := by
  unfold copyEach
  refine Task.Safe.andThen (Process.Safe.mono (safe_makeWayEach hs (List.mem_of_getElem? hi) hk)
    fun r t ⟨hkt, hleads, hok⟩ => ?_)
  cases r with
  | ok x => exact safe_copyBytesEach hs hi hkt (hleads rfl)
  | error e =>
    refine fun u hu => ⟨nofun, fun _ => hkt.trans hu, fun hf => ?_⟩
    exact absurd (hok hf) nofun

end

end SolVendor.Export
