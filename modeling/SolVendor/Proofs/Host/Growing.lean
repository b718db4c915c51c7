import SolVendor.Proofs.FileSystem.Below
import SolVendor.Proofs.FileSystem.Passage
import SolVendor.Proofs.Host.Keeping
/-!
# Host — files that grow

Between two hosts the files grow along some places and at some others if
nothing has happened but this: directories have been made at vacant places
of the first kind, and files have been written at places of the second kind
where nothing or a file was (`Host.Grows`). Hosts may grow in several steps
(`Grows.trans`). What a path has led to it leads to still, no link is new
(`Grows.isUnlinked`), and where no file can be in the way a way stays
passable (`Grows.isPassable`).
-/

namespace SolVendor

open FileSystem

namespace Host

variable {way target target' : Location → Prop} {s t u : Host} {start pos : Position}
  {cs : List Component} {p : Path} {k loc : Location}

/-- From one host to the other nothing has changed, but that directories have been made on the way and
files have been written at the targets. -/
structure Grows (way target : Location → Prop) (s t : Host) : Prop where
  host : t = { s with files := t.files }
  places : ∀ k, t.files.get? k = s.files.get? k ∨
    (s.files.get? k = none ∧ t.files.get? k = some .dir ∧ way k) ∨
    ((s.files.get? k = none ∨ ∃ bytes, s.files.get? k = some (.file bytes)) ∧
      (∃ bytes, t.files.get? k = some (.file bytes)) ∧ target k)
  wellFormed : s.files.WellFormed → t.files.WellFormed
  /-- The root has no entry of its own, so that the files are told by their entries. -/
  root : t.files.entries[([] : Location)]? = s.files.entries[([] : Location)]?

namespace Grows

theorem refl (s : Host) : Grows way target s s where
  host := rfl
  places _ := .inl rfl
  wellFormed := id
  root := rfl

/-- **One change after another.** -/
theorem trans (h : Grows way target s t) (h' : Grows way target t u) : Grows way target s u where
  host := by
    have ht := h.host
    have hu := h'.host
    rw [ht] at hu
    exact hu
  places k := by
    rcases h'.places k with heq | ⟨hnone, hdir, hw⟩ | ⟨hold, hnew, ht⟩
    · rw [heq]
      exact h.places k
    · rcases h.places k with heq | ⟨-, hsome, -⟩ | ⟨-, ⟨bytes, hsome⟩, -⟩
      · exact .inr (.inl ⟨heq ▸ hnone, hdir, hw⟩)
      · rw [hnone] at hsome
        cases hsome
      · rw [hnone] at hsome
        cases hsome
    · rcases h.places k with heq | ⟨-, hsome, -⟩ | ⟨hfirst, -, -⟩
      · exact .inr (.inr ⟨heq ▸ hold, hnew, ht⟩)
      · rcases hold with hnone | ⟨bytes, hfile⟩
        · rw [hnone] at hsome
          cases hsome
        · rw [hfile] at hsome
          cases hsome
      · exact .inr (.inr ⟨hfirst, hnew, ht⟩)
  wellFormed hs := h'.wellFormed (h.wellFormed hs)
  root := h'.root.trans h.root

theorem mono (h : Grows way target s t) (hsub : ∀ k, target k → target' k) : Grows way target' s t where
  host := h.host
  places k := (h.places k).imp_right (.imp_right fun ⟨hold, hnew, ht⟩ => ⟨hold, hnew, hsub k ht⟩)
  wellFormed := h.wellFormed
  root := h.root

theorem mono_way {way' : Location → Prop} (h : Grows way target s t) (hsub : ∀ k, way k → way' k) :
    Grows way' target s t where
  host := h.host
  places k := (h.places k).imp_right (.imp_left fun ⟨hnone, hdir, hw⟩ => ⟨hnone, hdir, hsub k hw⟩)
  wellFormed := h.wellFormed
  root := h.root

theorem cwd (h : Grows way target s t) : t.cwd = s.cwd := by
  rw [h.host]

/-- Nothing is lost but the bytes of files. -/
theorem retains (h : Grows way target s t) : t.files.Retains s.files := by
  intro k e he
  rcases h.places k with heq | ⟨hnone, -, -⟩ | ⟨hold, ⟨bytes, hnew⟩, -⟩
  · exact .inl (heq.trans he)
  · rw [hnone] at he
    cases he
  · rcases hold with hnone | ⟨old, hfile⟩
    · rw [hnone] at he
      cases he
    · rw [hfile] at he
      exact .inr ⟨old, bytes, (Option.some.inj he).symm, hnew⟩

theorem keeps (h : Grows way target s t) : s.Keeps t where
  cwd := h.cwd
  files := h.retains

theorem leads (h : Grows way target s t) (hl : s.files.Leads s.cwd cs pos) :
    t.files.Leads t.cwd cs pos := by
  rw [h.cwd]
  exact hl.retained h.retains

theorem isDir (h : Grows way target s t) (hd : s.isDir p = true) : t.isDir p = true := by
  obtain ⟨pos, hpos, hs⟩ := isDir_iff.1 hd
  obtain ⟨hc, hl⟩ := locate_eq_ok_iff.1 hpos
  exact isDir_iff.2 ⟨pos, locate_eq_ok_iff.2 ⟨hc, h.leads hl⟩, h.retains.standing_dir hs⟩

/-- **No link is new.** -/
theorem isUnlinked (h : Grows way target s t) (hu : s.files.IsUnlinked start cs) :
    t.files.IsUnlinked start cs := by
  intro ds stop link hds hstop hlink
  rcases h.places stop.place with heq | ⟨-, hdir, -⟩ | ⟨-, ⟨bytes, hfile⟩, -⟩
  · exact hu ds stop link hds hstop (heq ▸ hlink)
  · rw [hdir] at hlink
    cases hlink
  · rw [hfile] at hlink
    cases hlink

/-- **A way stays passable** if no target is on it. -/
theorem isPassable (h : Grows way target s t) (hp : s.files.IsPassable start cs)
    (hapart : ∀ ds k, ds <+: cs → start.along? ds = some (.ofPlace k) → ¬ target k) :
    t.files.IsPassable start cs := by
  intro ds n hds
  obtain ⟨loc, hloc, hn, hat⟩ := hp ds n hds
  refine ⟨loc, hloc, hn, ?_⟩
  rcases h.places (loc ++ [n]) with heq | ⟨-, hdir, -⟩ | ⟨-, -, ht⟩
  · rw [heq]
    exact hat
  · exact .inr hdir
  · exact absurd ht (hapart _ _ hds (Position.along?_concat_name.2 ⟨loc, hloc, rfl⟩))

/-- **A way was passable before** if it is now. -/
theorem isPassable_of_later (h : Grows way target s t) (hp : t.files.IsPassable start cs) :
    s.files.IsPassable start cs := by
  intro ds n hds
  obtain ⟨loc, hloc, hn, hat⟩ := hp ds n hds
  refine ⟨loc, hloc, hn, ?_⟩
  rcases h.places (loc ++ [n]) with heq | ⟨hnone, -, -⟩ | ⟨-, ⟨bytes, hfile⟩, -⟩
  · rw [← heq]
    exact hat
  · exact .inl hnone
  · rw [hfile] at hat
    rcases hat with hat | hat
    · cases hat
    · cases hat

/-- A file that is found stays where it is, and keeps its bytes unless it is a target. -/
theorem get?_of_not_target (h : Grows way target s t) {e : Entry} (hk : s.files.get? k = some e)
    (hnot : ¬ target k) : t.files.get? k = some e := by
  rcases h.places k with heq | ⟨hnone, -, -⟩ | ⟨-, -, ht⟩
  · exact heq.trans hk
  · rw [hnone] at hk
    cases hk
  · exact absurd ht hnot

/-- **A directory is made** on the way. -/
theorem put_dir {files : FileSystem} (hmake : s.files.makeDir s.cwd p = .ok files)
    (hway : ∀ k, s.files.Names s.cwd p k → way k) : Grows way target s { s with files } := by
  obtain ⟨k, hname, hnone, rfl⟩ := makeDir_eq_ok_iff.1 hmake
  obtain ⟨dir, n, rfl⟩ := hname.exists_concat
  obtain ⟨hdir, -, hn⟩ := hname.of_concat
  refine ⟨rfl, fun l => ?_, fun hs => hs.put hdir hnone hn, ?_⟩
  · show (s.files.put (dir ++ [n]) .dir).get? l = _ ∨ _
    rw [get?_put_of_ne_nil hname.ne_nil]
    split
    · rename_i hl
      subst hl
      exact .inr (.inl ⟨hnone, rfl, hway _ hname⟩)
    · exact .inl rfl
  · exact Std.ExtTreeMap.getElem?_insert.trans (if_neg fun heq =>
      hname.ne_nil (Std.LawfulEqOrd.compare_eq_iff_eq.1 heq))

/-- **A file is written** at a target. -/
theorem put_file {bytes : List UInt8} (hname : s.files.Names s.cwd p k)
    (hat : s.files.get? k = none ∨ ∃ old, s.files.get? k = some (.file old)) (ht : target k) :
    Grows way target s { s with files := s.files.put k (.file bytes) } := by
  have hput : ∀ l, (s.files.put k (.file bytes)).get? l =
      if l = k then some (.file bytes) else s.files.get? l := get?_put_of_ne_nil hname.ne_nil
  refine ⟨rfl, fun l => ?_, fun hs => ?_, ?_⟩
  · show (s.files.put k (.file bytes)).get? l = _ ∨ _
    by_cases hl : l = k
    · subst hl
      exact .inr (.inr ⟨hat, ⟨bytes, by rw [hput, if_pos rfl]⟩, ht⟩)
    · exact .inl (by rw [hput, if_neg hl])
  · obtain ⟨dir, n, rfl⟩ := hname.exists_concat
    obtain ⟨hdir, -, hn⟩ := hname.of_concat
    rcases hat with hnone | ⟨old, hfile⟩
    · exact hs.put hdir hnone hn
    · exact hs.put_file hfile
  · exact Std.ExtTreeMap.getElem?_insert.trans (if_neg fun heq =>
      hname.ne_nil (Std.LawfulEqOrd.compare_eq_iff_eq.1 heq))

end Grows

end Host

/-- **Files are told by their entries.** -/
theorem FileSystem.eq_of_get? {fs fs' : FileSystem} (h : ∀ k, fs.get? k = fs'.get? k)
    (hroot : fs.entries[([] : Location)]? = fs'.entries[([] : Location)]?) : fs = fs' := by
  obtain ⟨entries⟩ := fs
  obtain ⟨entries'⟩ := fs'
  congr 1
  refine Std.ExtTreeMap.ext_getElem? fun k => ?_
  by_cases hk : k = []
  · subst hk
    exact hroot
  · have hget := h k
    unfold FileSystem.get? at hget
    rwa [if_neg hk, if_neg hk] at hget

end SolVendor
