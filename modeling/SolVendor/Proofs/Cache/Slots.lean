import SolVendor.Proofs.Cache.Layout
import SolVendor.FileSystem.Basic
/-!
# Cache — the places below the directory of all trees

Seen as places, the directory of all trees holds the directories of the
owners, and slots for trees: in it or in the directory of an owner, under a
name with an `@` (`IsTreeSlot`). No owner has such a name, so no slot is
below another one (`IsTreeSlot.eq_of_prefix`).

The trees of dependencies, complete or not, are in slots. The staging tree
of a dependency can be in the slot of another one's tree (`StagesAs`),
though never in that of its own; the slots of two trees are different ones.
-/

namespace SolVendor

/-! ## Slots -/

/-- A place for a tree: a name with an `@`, in the directory of all trees or in that of an owner. -/
inductive IsTreeSlot (r : Location) : Location → Prop
  | direct {n : OsString} : atSign ∈ n.bytes → IsTreeSlot r (r ++ [n])
  | owned {o n : OsString} : atSign ∉ o.bytes → atSign ∈ n.bytes → IsTreeSlot r (r ++ [o, n])

variable {r loc loc' rel : Location}

/-- **No slot is below another one.** -/
theorem IsTreeSlot.eq_of_prefix (h : IsTreeSlot r loc) (h' : IsTreeSlot r loc')
    (hpre : loc <+: loc' ++ rel) : loc = loc' := by
  cases h with
  | @direct n hn =>
    cases h' with
    | @direct m hm =>
      rw [List.append_assoc, List.prefix_append_right_inj] at hpre
      rw [(List.cons_prefix_cons.1 hpre).1]
    | @owned o m ho hm =>
      rw [List.append_assoc, List.prefix_append_right_inj] at hpre
      have hno : n = o := (List.cons_prefix_cons.1 hpre).1
      exact absurd (hno ▸ hn) ho
  | @owned o n ho hn =>
    cases h' with
    | @direct m hm =>
      rw [List.append_assoc, List.prefix_append_right_inj] at hpre
      have hom : o = m := (List.cons_prefix_cons.1 hpre).1
      exact absurd (hom ▸ hm) ho
    | @owned o' m ho' hm =>
      rw [List.append_assoc, List.prefix_append_right_inj] at hpre
      obtain ⟨rfl, hrest⟩ := List.cons_prefix_cons.1 hpre
      rw [(List.cons_prefix_cons.1 hrest).1]

/-- The directory of an owner is not in a slot. -/
theorem IsTreeSlot.not_prefix_owner {o : OsString} (h : IsTreeSlot r loc) (ho : atSign ∉ o.bytes) :
    ¬ loc <+: r ++ [o] := by
  intro hpre
  cases h with
  | @direct n hn =>
    rw [List.prefix_append_right_inj] at hpre
    have hno : n = o := (List.cons_prefix_cons.1 hpre).1
    exact ho (hno ▸ hn)
  | @owned o' n ho' hn =>
    have hlen := hpre.length_le
    simp at hlen

theorem IsTreeSlot.append_ne_owner {o : OsString} (h : IsTreeSlot r loc) (ho : atSign ∉ o.bytes)
    (rel : Location) : loc ++ rel ≠ r ++ [o] := by
  intro heq
  exact h.not_prefix_owner ho ⟨rel, heq⟩

/-- A slot is strictly below the directory of all trees. -/
theorem IsTreeSlot.exists_eq_append (h : IsTreeSlot r loc) : ∃ rel, rel ≠ [] ∧ loc = r ++ rel := by
  cases h with
  | direct _ => exact ⟨_, List.cons_ne_nil _ _, rfl⟩
  | owned _ _ => exact ⟨_, List.cons_ne_nil _ _, rfl⟩

namespace Dependency

/-- The directory that the tree of a dependency is in. -/
def placeOfOwner (d : Dependency) (r : Location) : Location :=
  if d.owner = "." then r else r ++ [d.owner]

/-- The place of the tree. -/
def treePlace (d : Dependency) (r : Location) : Location :=
  d.placeOfOwner r ++ [d.treeName]

/-- The place of the tree before it is complete. -/
def stagingPlace (d : Dependency) (r : Location) : Location :=
  d.placeOfOwner r ++ [d.stagingName]

variable {d e : Dependency}

/-- That directory is in no slot. -/
theorem IsAccepted.not_prefix_placeOfOwner (h : d.IsAccepted) (hslot : IsTreeSlot r loc) :
    ¬ loc <+: d.placeOfOwner r := by
  unfold placeOfOwner
  split
  · obtain ⟨rel, hrel, rfl⟩ := hslot.exists_eq_append
    intro hpre
    have hlen := hpre.length_le
    have hpos : 0 < rel.length := List.length_pos_iff.2 hrel
    rw [List.length_append] at hlen
    omega
  · exact hslot.not_prefix_owner h.at_notMem_owner

theorem IsAccepted.isTreeSlot (h : d.IsAccepted) {n : OsString} (hn : atSign ∈ n.bytes) :
    IsTreeSlot r (d.placeOfOwner r ++ [n]) := by
  unfold placeOfOwner
  split
  · exact .direct hn
  · rw [List.append_assoc]
    exact .owned h.at_notMem_owner hn

theorem IsAccepted.isTreeSlot_treePlace (h : d.IsAccepted) : IsTreeSlot r (d.treePlace r) :=
  h.isTreeSlot h.at_mem_treeName

theorem IsAccepted.at_mem_stagingName (h : d.IsAccepted) : atSign ∈ d.stagingName.bytes := by
  rw [bytes_stagingName]
  exact List.mem_cons_of_mem _ (List.mem_append_left _ h.at_mem_treeName)

theorem IsAccepted.isTreeSlot_stagingPlace (h : d.IsAccepted) : IsTreeSlot r (d.stagingPlace r) :=
  h.isTreeSlot h.at_mem_stagingName

/-- Below one directory of all trees the place tells the owner and the name. -/
theorem of_place_eq {n m : OsString} (heq : d.placeOfOwner r ++ [n] = e.placeOfOwner r ++ [m]) :
    d.owner = e.owner ∧ n = m := by
  obtain ⟨hplace, hlast⟩ := List.append_inj' heq rfl
  refine ⟨?_, List.cons.inj hlast |>.1⟩
  unfold placeOfOwner at hplace
  split at hplace <;> split at hplace <;> rename_i ho ho'
  · exact ho.trans ho'.symm
  · have hlen := congrArg List.length hplace
    simp at hlen
  · have hlen := congrArg List.length hplace
    simp at hlen
  · exact (List.cons.inj (List.append_cancel_left hplace)).1

/-- The staging tree of one dependency has the name of the tree of the other. -/
def StagesAs (e d : Dependency) : Prop :=
  e.owner = d.owner ∧ e.stagingName = d.treeName

instance (e d : Dependency) : Decidable (e.StagesAs d) :=
  inferInstanceAs (Decidable (_ ∧ _))

/-- A dependency never stages as itself. -/
theorem not_stagesAs_self (d : Dependency) : ¬ d.StagesAs d := by
  rintro ⟨-, hname⟩
  have hlen := congrArg (fun s : OsString => s.bytes.length) hname
  simp only [bytes_stagingName, List.length_cons, List.length_append] at hlen
  omega

theorem stagingPlace_ne_treePlace (hs : ¬ e.StagesAs d) : e.stagingPlace r ≠ d.treePlace r :=
  fun heq => hs (of_place_eq heq)

theorem IsAccepted.eq_of_treePlace_eq (h : e.IsAccepted) (h' : d.IsAccepted)
    (heq : e.treePlace r = d.treePlace r) : e = d := by
  obtain ⟨ho, ht⟩ := of_place_eq heq
  exact h.eq_of_owner_of_treeName h' ho ht

end Dependency

end SolVendor
