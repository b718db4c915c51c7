import SolVendor.FileSystem.Basic
/-!
# FileSystem — what the operations do to the entries

The view of a file system is `get?`. Here is one law for each operation:
what it leaves at every place below the root.
-/

namespace SolVendor

/-- Taking a place off the front of another leaves the way on from there. -/
theorem Location.isPrefixOf?_eq_some_iff {loc k rel : Location} :
    loc.isPrefixOf? k = some rel ↔ k = loc ++ rel := by
  induction loc generalizing k with
  | nil =>
    have hnil : List.isPrefixOf? [] k = some k := rfl
    simp [hnil]
  | cons n loc ih =>
    cases k with
    | nil =>
      have hnil : List.isPrefixOf? (n :: loc) [] = none := rfl
      simp [hnil]
    | cons m k =>
      have hcons : (n :: loc).isPrefixOf? (m :: k) = if n == m then loc.isPrefixOf? k else none := rfl
      rw [hcons]
      by_cases h : n = m
      · simp [h, ih]
      · simp [h, Ne.symm h]

/-- The places above another are those on the way down to it. -/
theorem Location.mem_above {loc k : Location} : k ∈ loc.above ↔ k <+: loc ∧ k ≠ loc := by
  simp only [above, List.mem_map, List.mem_range]
  constructor
  · rintro ⟨n, hn, rfl⟩
    refine ⟨List.take_prefix n loc, fun h => ?_⟩
    have := congrArg List.length h
    simp at this
    omega
  · rintro ⟨h, hne⟩
    refine ⟨k.length, Nat.lt_of_le_of_ne h.length_le fun hl => hne (h.eq_of_length hl), ?_⟩
    exact (List.prefix_iff_eq_take.1 h).symm

namespace FileSystem

variable {fs : FileSystem} {loc k : Location} {e : Entry}

/-- The root is always a directory. -/
@[simp] theorem get?_root : fs.get? [] = some .dir := rfl

/-- Below the root nothing stands in the empty file system. -/
theorem get?_empty (hk : k ≠ []) : empty.get? k = none := by
  simp [get?, empty, hk]

/-- A place has what was put there last. -/
theorem get?_put (hk : k ≠ []) :
    (fs.put loc e).get? k = if k = loc then some e else fs.get? k := by
  simp only [get?, put, hk, if_false, Std.ExtTreeMap.getElem?_insert,
    Std.LawfulEqOrd.compare_eq_iff_eq, eq_comm (a := loc)]

/-- After a cut nothing stands at the place or below it, and all else stands. -/
theorem get?_cut (hk : k ≠ []) :
    (fs.cut loc).get? k = if loc <+: k then none else fs.get? k := by
  simp only [get?, cut, hk, if_false, Std.ExtTreeMap.getElem?_filter']
  by_cases h : loc <+: k
  · cases fs.entries[k]? <;> simp [h, Option.filter]
  · cases fs.entries[k]? <;> simp [h, Option.filter]

/-- A cut leaves what is neither at the place nor below it. -/
theorem get?_cut_of_apart (hk : ¬ loc <+: k) : (fs.cut loc).get? k = fs.get? k := by
  by_cases hnil : k = []
  · rw [hnil, get?_root, get?_root]
  · rw [get?_cut hnil, if_neg hk]

theorem get?_cut_append (hloc : loc ≠ []) (rel : Location) :
    (fs.cut loc).get? (loc ++ rel) = none := by
  rw [get?_cut (by simp [hloc]), if_pos (List.prefix_append loc rel)]

/-- The subtree of a place holds what stands there and below. -/
theorem mem_subtree {rel : Location} :
    (rel, e) ∈ fs.subtree loc ↔ fs.entries[loc ++ rel]? = some e := by
  simp only [subtree, List.mem_filterMap, Prod.exists, Std.ExtTreeMap.mem_toList_iff_getElem?_eq_some,
    Option.map_eq_some_iff, Prod.mk.injEq, Location.isPrefixOf?_eq_some_iff]
  constructor
  · rintro ⟨k, _, h, _, rfl, rfl, rfl⟩
    exact h
  · intro h
    exact ⟨_, _, h, _, rfl, rfl, rfl⟩

/-- What is below a place stands there. -/
theorem mem_below {rel : Location} :
    (rel, e) ∈ fs.below loc ↔ rel ≠ [] ∧ fs.get? (loc ++ rel) = some e := by
  simp only [below, List.mem_filter, mem_subtree, decide_eq_true_eq, and_comm (b := rel ≠ [])]
  refine and_congr_right fun hne => ?_
  unfold get?
  rw [if_neg (by simp [hne])]

/-- A directory is made where nothing stands. -/
theorem get?_ensureDir (hk : k ≠ []) :
    (fs.ensureDir loc).get? k =
      if k = loc ∧ fs.get? k = none then some .dir else fs.get? k := by
  unfold ensureDir
  split
  · rename_i h
    rw [if_neg]
    rintro ⟨rfl, hn⟩
    simp [hn] at h
  · rename_i h
    rw [get?_put hk]
    by_cases hl : k = loc
    · subst hl
      simp_all
    · simp [hl]

/-- Of several directories those are made where nothing stands. -/
theorem get?_foldl_ensureDir {locs : List Location} (hk : k ≠ []) :
    (locs.foldl ensureDir fs).get? k =
      if k ∈ locs ∧ fs.get? k = none then some .dir else fs.get? k := by
  induction locs generalizing fs with
  | nil => simp
  | cons l locs ih =>
    rw [List.foldl_cons, ih, get?_ensureDir hk]
    by_cases hl : k = l
    · subst hl
      cases h : fs.get? k <;> simp
    · simp [hl]

/-- An entry is planted with directories above it where nothing stands; a directory takes the place
of nothing else. -/
theorem get?_plant (hk : k ≠ []) :
    (fs.plant loc e).get? k =
      if k = loc then (if e = .dir then some ((fs.get? k).getD .dir) else some e)
      else if k <+: loc ∧ fs.get? k = none then some .dir
      else fs.get? k := by
  have habove : (loc.above.foldl ensureDir fs).get? k =
      if (k <+: loc ∧ k ≠ loc) ∧ fs.get? k = none then some .dir else fs.get? k := by
    rw [get?_foldl_ensureDir hk]
    simp only [Location.mem_above]
  unfold plant
  by_cases hl : k = loc
  · subst hl
    cases e
    · rw [get?_ensureDir hk, habove]
      cases h : fs.get? k <;> simp
    · rw [get?_put hk]
      simp
    · rw [get?_put hk]
      simp
  · cases e
    · rw [get?_ensureDir hk, habove]
      simp [hl]
    · rw [get?_put hk, habove]
      simp [hl]
    · rw [get?_put hk, habove]
      simp [hl]

/-- The subtree of a place has one entry for each way down from it. -/
theorem pairwise_subtree :
    (fs.subtree loc).Pairwise fun a b => a.1 ≠ b.1 := by
  unfold subtree
  rw [List.pairwise_filterMap]
  refine fs.entries.distinct_keys_toList.imp fun {a b} hab c hc d hd => ?_
  simp only [Option.map_eq_some_iff, Location.isPrefixOf?_eq_some_iff] at hc hd
  obtain ⟨r, hr, rfl⟩ := hc
  obtain ⟨t, ht, rfl⟩ := hd
  rintro (rfl : r = t)
  exact hab (Std.LawfulEqOrd.compare_eq_iff_eq.2 (hr.trans ht.symm))

/-- After a graft the new place has what stood at the old one, with all below it. -/
theorem get?_graft {src dst : Location} (hk : k ≠ []) :
    (fs.graft src dst).get? k =
      match dst.isPrefixOf? k with
      | some rel => fs.entries[src ++ rel]?
      | none => if src <+: k then none else fs.get? k := by
  have hpair : ((fs.subtree src).map fun a => (dst ++ a.1, a.2)).Pairwise
      fun a b => ¬compare a.1 b.1 = .eq := by
    rw [List.pairwise_map]
    refine pairwise_subtree.imp fun {a b} hab h => hab ?_
    simpa using Std.LawfulEqOrd.compare_eq_iff_eq.1 h
  simp only [get?, graft, hk, if_false]
  split
  · rename_i rel h
    obtain rfl := Location.isPrefixOf?_eq_some_iff.1 h
    cases he : fs.entries[src ++ rel]? with
    | some e =>
      refine Std.ExtTreeMap.getElem?_insertMany_list_of_mem
        (Std.LawfulEqOrd.compare_eq_iff_eq.2 rfl) hpair ?_
      exact List.mem_map.2 ⟨(rel, e), mem_subtree.2 he, rfl⟩
    | none =>
      rw [Std.ExtTreeMap.getElem?_insertMany_list_of_contains_eq_false]
      · have hcut : ((fs.cut src).cut dst).get? (dst ++ rel) = _ := get?_cut hk
        simpa [get?, hk] using hcut
      · simp only [List.map_map, List.contains_eq_mem, decide_eq_false_iff_not, List.mem_map,
          Function.comp_apply, Prod.exists, not_exists, not_and, mem_subtree]
        rintro r e hr h
        rw [List.append_cancel_left h, he] at hr
        cases hr
  · rename_i h
    rw [Std.ExtTreeMap.getElem?_insertMany_list_of_contains_eq_false]
    · have hd : ¬dst <+: k := by
        rintro ⟨rel, rfl⟩
        rw [Location.isPrefixOf?_eq_some_iff.2 rfl] at h
        cases h
      have hcut : ((fs.cut src).cut dst).get? k = if src <+: k then none else fs.get? k := by
        rw [get?_cut hk, if_neg hd, get?_cut hk]
      simpa [get?, hk] using hcut
    · simp only [List.map_map, List.contains_eq_mem, decide_eq_false_iff_not, List.mem_map,
        Function.comp_apply, Prod.exists, not_exists, not_and]
      rintro r e - rfl
      rw [Location.isPrefixOf?_eq_some_iff.2 rfl] at h
      cases h

/-- What stood at the old place is at the new one. -/
theorem get?_graft_append {src dst : Location} (hsrc : src ≠ []) (hdst : dst ≠ []) (rel : Location) :
    (fs.graft src dst).get? (dst ++ rel) = fs.get? (src ++ rel) := by
  have hnil : src ++ rel ≠ [] := by simp [hsrc]
  rw [get?_graft (by simp [hdst]), Location.isPrefixOf?_eq_some_iff.2 rfl]
  unfold get?
  rw [if_neg hnil]

/-- Elsewhere only the old place is vacant now, with all below it. -/
theorem get?_graft_of_apart {src dst : Location} (hsrc : src ≠ []) (hk : ¬ dst <+: k) :
    (fs.graft src dst).get? k = if src <+: k then none else fs.get? k := by
  by_cases hnil : k = []
  · have hroot : ¬ src <+: [] := fun hpre => hsrc (List.prefix_nil.1 hpre)
    rw [hnil, if_neg hroot, get?_root, get?_root]
  · have hout : dst.isPrefixOf? k = none := by
      rw [Option.eq_none_iff_forall_ne_some]
      intro rel hrel
      exact hk ⟨rel, (Location.isPrefixOf?_eq_some_iff.1 hrel).symm⟩
    rw [get?_graft hnil, hout]

end FileSystem

end SolVendor
