import SolVendor.Host
import SolVendor.Proofs.Cache.Slots
import SolVendor.Proofs.FileSystem.MakeDirs
/-!
# Cache — tidy hosts

Take a host on which the directory of all trees is empty (`IsEmptyCache`).
A host is tidy when it differs from that one only in what is below that
directory, and each slot in it, and each place for an owner, is vacant or a
directory (`IsTidy`). Then the root of a storage still leads to the directory of all
trees, and the paths of trees lead to their slots (`leads_slot`).

Changes in slots keep a host tidy (`IsTidy.of_slots`), and so does a
directory for an owner (`IsTidy.of_owner`).
-/

namespace SolVendor

open FileSystem

/-- The root leads to a directory with nothing in it, the directory of all trees. -/
structure IsEmptyCache (root : Path) (r : Location) (h : Host) : Prop where
  cwd_dir : h.files.get? h.cwd.place = some .dir
  leads : h.files.Leads h.cwd root.pieces (.ofPlace r)
  dir : h.files.get? r = some .dir
  empty : ∀ {rel}, rel ≠ [] → h.files.get? (r ++ rel) = none

/-- Since the start only the inside of the directory of all trees has changed, and the owners and
slots in it are vacant or directories. -/
structure IsTidy (root : Path) (r : Location) (h₀ h : Host) : Prop where
  start : IsEmptyCache root r h₀
  cwd : h.cwd = h₀.cwd
  outside : ∀ {k}, (∀ rel, rel ≠ [] → k ≠ r ++ rel) → h.files.get? k = h₀.files.get? k
  owners : ∀ {o : OsString}, atSign ∉ o.bytes →
    h.files.get? (r ++ [o]) = none ∨ h.files.get? (r ++ [o]) = some .dir
  trees : ∀ {slot}, IsTreeSlot r slot →
    (∀ rel, h.files.get? (slot ++ rel) = none) ∨ h.files.get? slot = some .dir

variable {root : Path} {r : Location} {h₀ h h' : Host} {d : Dependency} {pos : Position}

theorem IsEmptyCache.isTidy (h : IsEmptyCache root r h₀) : IsTidy root r h₀ h₀ where
  start := h
  cwd := rfl
  outside _ := rfl
  owners _ := .inl (h.empty (List.cons_ne_nil _ _))
  trees hslot := by
    obtain ⟨rel, hrel, rfl⟩ := hslot.exists_eq_append
    refine .inl fun rest => ?_
    rw [List.append_assoc]
    exact h.empty (by simp [hrel])

/-- What was there at the start is there still. -/
theorem IsTidy.extends_start (ht : IsTidy root r h₀ h) : h.files.Extends h₀.files := by
  intro k e he
  by_cases hk : ∃ rel, rel ≠ [] ∧ k = r ++ rel
  · obtain ⟨rel, hrel, rfl⟩ := hk
    rw [ht.start.empty hrel] at he
    cases he
  · rw [ht.outside fun rel hrel heq => hk ⟨rel, hrel, heq⟩, he]

theorem IsTidy.cwd_dir (ht : IsTidy root r h₀ h) : h.files.get? h.cwd.place = some .dir := by
  rw [ht.cwd]
  exact ht.extends_start _ _ ht.start.cwd_dir

theorem IsTidy.dir (ht : IsTidy root r h₀ h) : h.files.get? r = some .dir :=
  ht.extends_start _ _ ht.start.dir

/-- The root leads where it led at the start. -/
theorem IsTidy.leads (ht : IsTidy root r h₀ h) : h.files.Leads h.cwd root.pieces (.ofPlace r) := by
  rw [ht.cwd]
  exact ht.start.leads.mono ht.extends_start

/-- A slot is vacant or a directory. -/
theorem IsTidy.slot {slot : Location} (ht : IsTidy root r h₀ h) (hslot : IsTreeSlot r slot) :
    h.files.get? slot = none ∨ h.files.get? slot = some .dir := by
  rcases ht.trees hslot with hnone | hdir
  · have hat := hnone []
    rw [List.append_nil] at hat
    exact .inl hat
  · exact .inr hdir

/-- The working directory is in no slot. -/
theorem IsTidy.not_prefix_cwd {slot : Location} (ht : IsTidy root r h₀ h)
    (hslot : IsTreeSlot r slot) : ¬ slot <+: h.cwd.place := by
  rintro ⟨rest, hrest⟩
  obtain ⟨rel, hrel, rfl⟩ := hslot.exists_eq_append
  have hdir := ht.start.cwd_dir
  rw [← ht.cwd, ← hrest, List.append_assoc, ht.start.empty (by simp [hrel])] at hdir
  cases hdir

/-! ## Changes that keep a host tidy -/

/-- **Changes in slots**, if what is in each of them in the end is a directory or nothing. -/
theorem IsTidy.of_slots (ht : IsTidy root r h₀ h) (hcwd : h'.cwd = h.cwd)
    (hslots : ∀ k, h'.files.get? k = h.files.get? k ∨ ∃ slot, IsTreeSlot r slot ∧ slot <+: k ∧
      ((∀ rel, h'.files.get? (slot ++ rel) = none) ∨ h'.files.get? slot = some .dir)) :
    IsTidy root r h₀ h' where
  start := ht.start
  cwd := hcwd.trans ht.cwd
  outside {k} hk := by
    rcases hslots k with hsame | ⟨slot, hslot, ⟨rest, rfl⟩, -⟩
    · rw [hsame, ht.outside hk]
    · obtain ⟨rel, hrel, rfl⟩ := hslot.exists_eq_append
      exact absurd (List.append_assoc r rel rest) (hk (rel ++ rest) (by simp [hrel]))
  owners {o} ho := by
    rcases hslots (r ++ [o]) with hsame | ⟨slot, hslot, hpre, -⟩
    · rw [hsame]
      exact ht.owners ho
    · exact absurd hpre (hslot.not_prefix_owner ho)
  trees {loc} hloc := by
    by_cases hall : ∀ rel, h'.files.get? (loc ++ rel) = h.files.get? (loc ++ rel)
    · have hat := hall []
      rw [List.append_nil] at hat
      rcases ht.trees hloc with hnone | hdir
      · exact .inl fun rel => (hall rel).trans (hnone rel)
      · exact .inr (hat.trans hdir)
    · obtain ⟨rel, hrel⟩ := not_forall.1 hall
      rcases hslots (loc ++ rel) with hsame | ⟨slot, hslot, hpre, hat⟩
      · exact absurd hsame hrel
      · rw [← hslot.eq_of_prefix hloc hpre]
        exact hat

/-- Only the files and the working directory count. -/
theorem IsTidy.of_files_eq (ht : IsTidy root r h₀ h) (hfiles : h'.files = h.files)
    (hcwd : h'.cwd = h.cwd) : IsTidy root r h₀ h' :=
  ht.of_slots hcwd fun k => .inl (by rw [hfiles])

/-- Nothing has changed but one slot, and that is vacant or a directory. -/
structure ChangesSlot (slot : Location) (h h' : Host) : Prop where
  cwd : h'.cwd = h.cwd
  outside : ∀ {k}, ¬ slot <+: k → h'.files.get? k = h.files.get? k
  inside : (∀ rel, h'.files.get? (slot ++ rel) = none) ∨ h'.files.get? slot = some .dir

theorem ChangesSlot.trans {slot : Location} {h'' : Host} (hc : ChangesSlot slot h h')
    (hc' : ChangesSlot slot h' h'') : ChangesSlot slot h h'' where
  cwd := hc'.cwd.trans hc.cwd
  outside hk := (hc'.outside hk).trans (hc.outside hk)
  inside := hc'.inside

theorem ChangesSlot.isTidy {slot : Location} (hc : ChangesSlot slot h h')
    (hslot : IsTreeSlot r slot) (ht : IsTidy root r h₀ h) : IsTidy root r h₀ h' := by
  refine ht.of_slots hc.cwd fun k => ?_
  by_cases hk : slot <+: k
  · exact .inr ⟨slot, hslot, hk, hc.inside⟩
  · exact .inl (hc.outside hk)

/-- **The other slots are as they were.** -/
theorem ChangesSlot.get?_other {slot slot' : Location} (hc : ChangesSlot slot h h')
    (hslot : IsTreeSlot r slot) (hslot' : IsTreeSlot r slot') (hne : slot' ≠ slot)
    (rel : Location) : h'.files.get? (slot' ++ rel) = h.files.get? (slot' ++ rel) :=
  hc.outside fun hpre => hne (hslot.eq_of_prefix hslot' hpre).symm

/-- **A new directory for an owner.** -/
theorem IsTidy.of_owner {o : OsString} (ht : IsTidy root r h₀ h) (hcwd : h'.cwd = h.cwd)
    (ho : atSign ∉ o.bytes)
    (hfiles : ∀ k, h'.files.get? k = h.files.get? k ∨ k = r ++ [o] ∧ h'.files.get? k = some .dir) :
    IsTidy root r h₀ h' where
  start := ht.start
  cwd := hcwd.trans ht.cwd
  outside {k} hk := by
    rcases hfiles k with hsame | ⟨rfl, -⟩
    · rw [hsame, ht.outside hk]
    · exact absurd rfl (hk [o] (List.cons_ne_nil _ _))
  owners {o'} ho' := by
    rcases hfiles (r ++ [o']) with hsame | ⟨-, hdir⟩
    · rw [hsame]
      exact ht.owners ho'
    · exact .inr hdir
  trees {slot} hslot := by
    have hsame : ∀ rel, h'.files.get? (slot ++ rel) = h.files.get? (slot ++ rel) := by
      intro rel
      rcases hfiles (slot ++ rel) with hsame | ⟨howner, -⟩
      · exact hsame
      · exact absurd howner (hslot.append_ne_owner ho rel)
    have hat := hsame []
    rw [List.append_nil] at hat
    rcases ht.trees hslot with hnone | hdir
    · exact .inl fun rel => (hsame rel).trans (hnone rel)
    · exact .inr (hat.trans hdir)

/-! ## Where the paths of a storage lead -/

/-- **The directory of an owner is where its path leads.** -/
theorem IsTidy.leads_owner (ht : IsTidy root r h₀ h) (hd : d.IsAccepted) (hdots : d.owner ≠ "..")
    (hl : h.files.Leads h.cwd (root.pieces ++ [.ofPiece d.owner.bytes]) pos) :
    pos = .ofPlace (d.placeOfOwner r) ∧ h.files.get? (d.placeOfOwner r) = some .dir := by
  obtain ⟨mid, l, hmid, hw⟩ := hl.exists_of_append
  obtain rfl := hmid.unique ht.leads
  unfold Dependency.placeOfOwner
  split
  · rename_i hdot
    rw [hdot] at hw
    cases hw with
    | here _ hw =>
      cases hw
      exact ⟨rfl, ht.dir⟩
  · rename_i hdot
    rw [hd.ofPiece_owner hdot hdots] at hw
    exact hw.eq_of_name (ht.owners hd.at_notMem_owner)

/-- **A slot is where its path leads.** -/
theorem IsTidy.leads_slot {n : OsString} (ht : IsTidy root r h₀ h) (hd : d.IsAccepted)
    (hdots : d.owner ≠ "..") (hn : atSign ∈ n.bytes)
    (hl : h.files.Leads h.cwd (root.pieces ++ [.ofPiece d.owner.bytes, .name n]) pos) :
    pos = .ofPlace (d.placeOfOwner r ++ [n]) ∧
      h.files.get? (d.placeOfOwner r ++ [n]) = some .dir := by
  rw [List.append_cons] at hl
  obtain ⟨mid, l, hmid, hw⟩ := hl.exists_of_append
  obtain ⟨rfl, -⟩ := ht.leads_owner hd hdots hmid
  exact hw.eq_of_name (ht.slot (hd.isTreeSlot hn))

end SolVendor
