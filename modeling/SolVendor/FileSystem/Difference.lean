import SolVendor.FileSystem.Basic
/-!
# FileSystem — what one file system has that another has not

The difference of an old file system and a new one is in two lists: the
places that have become vacant, and the entries that are new or have
changed. Emptied in the first order and filled in the second, the old one
becomes the new one with no place ever missing what is above it.
-/

namespace SolVendor.FileSystem

/-- The places at which something stands in `old` and nothing in `new`, what is below a place
before it. -/
def vacated (old new : FileSystem) : List Location :=
  ((old.entries.toList.filter fun (loc, _) => (new.get? loc).isNone).map Prod.fst).reverse

/-- The entries of `new` that `old` has not, what is below a place after it. -/
def changed (old new : FileSystem) : List (Location × Entry) :=
  new.entries.toList.filter fun (loc, e) => old.get? loc ≠ some e

/-- A place is vacated when the entry that stood there has gone. -/
theorem mem_vacated {old new : FileSystem} {loc : Location} :
    loc ∈ vacated old new ↔ loc ∈ old.entries ∧ new.get? loc = none := by
  simp only [vacated, List.mem_reverse, List.mem_map, List.mem_filter, Prod.exists,
    Option.isNone_iff_eq_none, exists_and_right, exists_eq_right,
    Std.ExtTreeMap.mem_toList_iff_getElem?_eq_some]
  rw [← Std.ExtTreeMap.isSome_getElem?_iff_mem, Option.isSome_iff_exists]

/-- An entry is changed when it stands in the new file system only. -/
theorem mem_changed {old new : FileSystem} {loc : Location} {e : Entry} :
    (loc, e) ∈ changed old new ↔ new.entries[loc]? = some e ∧ old.get? loc ≠ some e := by
  simp [changed, Std.ExtTreeMap.mem_toList_iff_getElem?_eq_some]

end SolVendor.FileSystem
