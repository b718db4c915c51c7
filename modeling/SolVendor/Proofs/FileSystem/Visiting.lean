import Mathlib.Data.List.Perm.Subperm
import Mathlib.Data.List.Sort
import SolVendor.Proofs.FileSystem.WellFormed
/-!
# FileSystem — walking depth first

`Visits` describes a walk that goes depth first: it takes the names in a
directory in order, and after each entry that is a directory it goes through
what is below it. Links are not followed. Nothing is said there of whole
locations; yet what such a walk visits is just what is below the directory,
in the order of the locations (`Visits.eq_below`), and from each directory
there is such a walk (`exists_visits`).
-/

namespace SolVendor.FileSystem

variable {fs : FileSystem} {loc dir rel : Location} {n : OsString} {names : List OsString} {e : Entry}
  {xs ys : List (Location × Entry)}

/-! ## Locations in order -/

theorem compare_cons (n : OsString) (a b : Location) : compare (n :: a) (n :: b) = compare a b := by
  rw [List.compare_cons_cons, Std.compare_self, Ordering.eq_then]

/-- What two places share at the front makes no difference to their order. -/
theorem compare_append (loc a b : Location) : compare (loc ++ a) (loc ++ b) = compare a b := by
  induction loc with
  | nil => rfl
  | cons n loc ih => rw [List.cons_append, List.cons_append, compare_cons, ih]

/-- **What is below a place is listed in order.** -/
theorem pairwise_below (fs : FileSystem) (loc : Location) :
    (fs.below loc).Pairwise fun a b => compare a.1 b.1 = .lt := by
  unfold below subtree
  refine List.Pairwise.filter _ (List.pairwise_filterMap.2 ?_)
  refine fs.entries.ordered_keys_toList.imp fun {a b} hab c hc d hd => ?_
  simp only [Option.map_eq_some_iff, Location.isPrefixOf?_eq_some_iff] at hc hd
  obtain ⟨r, hr, rfl⟩ := hc
  obtain ⟨t, ht, rfl⟩ := hd
  rw [hr, ht, compare_append] at hab
  exact hab

section

variable {α : Type} {f : α → Location} {as bs : List α}

theorem ne_of_compare_eq_lt {a b : α} (h : compare (f a) (f b) = .lt) : a ≠ b := by
  rintro rfl
  rw [Std.compare_self] at h
  cases h

/-- What is in the order of its locations is determined by its members. -/
theorem eq_of_ordered_of_mem_iff (h : as.Pairwise fun a b => compare (f a) (f b) = .lt)
    (h' : bs.Pairwise fun a b => compare (f a) (f b) = .lt) (hmem : ∀ a, a ∈ as ↔ a ∈ bs) : as = bs := by
  have hirrefl : Std.Irrefl fun a b : α => compare (f a) (f b) = .lt :=
    ⟨fun a ha => ne_of_compare_eq_lt ha rfl⟩
  have hantisymm : Std.Antisymm fun a b : α => compare (f a) (f b) = .lt := ⟨fun a b hab hba => by
    have hswap : compare (f b) (f a) = (compare (f a) (f b)).swap := Std.OrientedCmp.eq_swap
    rw [hswap, hab] at hba
    cases hba⟩
  exact h.eq_of_mem_iff h' hmem

end

/-! ## Walks -/

/-- The names in a directory, in order. -/
structure IsContents (fs : FileSystem) (dir : Location) (names : List OsString) : Prop where
  ordered : names.Pairwise fun a b => compare a b = .lt
  mem_iff : ∀ {n}, n ∈ names ↔ ∃ e, fs.get? (dir ++ [n]) = some e

/-- What is visited in the directory called `n`, as it is named outside. -/
def beneath (n : OsString) (x : Location × Entry) : Location × Entry :=
  (n :: x.1, x.2)

/-- What a walk visits that goes depth first through some names in a directory. After an entry comes what is
below it, if that is a directory. -/
inductive Visits (fs : FileSystem) : Location → List OsString → List (Location × Entry) → Prop
  | nil {dir : Location} : Visits fs dir [] []
  | enter {dir : Location} {n : OsString} {names inner : List OsString} {inside after : List (Location × Entry)} :
      fs.get? (dir ++ [n]) = some .dir → IsContents fs (dir ++ [n]) inner →
      Visits fs (dir ++ [n]) inner inside → Visits fs dir names after →
      Visits fs dir (n :: names) (([n], .dir) :: (inside.map (beneath n) ++ after))
  | pass {dir : Location} {n : OsString} {names : List OsString} {e : Entry} {after : List (Location × Entry)} :
      fs.get? (dir ++ [n]) = some e → e ≠ .dir → Visits fs dir names after →
      Visits fs dir (n :: names) (([n], e) :: after)

theorem mem_map_beneath {x : Location × Entry} :
    x ∈ xs.map (beneath n) ↔ ∃ rel, x.1 = n :: rel ∧ (rel, x.2) ∈ xs := by
  rw [List.mem_map]
  constructor
  · rintro ⟨y, hy, rfl⟩
    exact ⟨y.1, rfl, hy⟩
  · rintro ⟨rel, hrel, hmem⟩
    exact ⟨(rel, x.2), hmem, Prod.ext hrel.symm rfl⟩

/-- What is visited is below one of the names. -/
theorem Visits.exists_of_mem (h : Visits fs dir names xs) {x : Location × Entry} (hx : x ∈ xs) :
    ∃ n ∈ names, ∃ rel, x.1 = n :: rel ∧ fs.get? (dir ++ x.1) = some x.2 := by
  induction h generalizing x with
  | nil => cases hx
  | @enter dir n names inner inside after hdir _ _ _ ihin ihafter =>
    rcases List.mem_cons.1 hx with rfl | hx
    · exact ⟨n, List.mem_cons_self, [], rfl, hdir⟩
    rcases List.mem_append.1 hx with hx | hx
    · obtain ⟨rel, hrel, hmem⟩ := mem_map_beneath.1 hx
      obtain ⟨-, -, -, -, he⟩ := ihin hmem
      refine ⟨n, List.mem_cons_self, rel, hrel, ?_⟩
      rw [hrel, List.append_cons]
      exact he
    · obtain ⟨m, hm, hrest⟩ := ihafter hx
      exact ⟨m, List.mem_cons_of_mem n hm, hrest⟩
  | @pass dir n names e after he _ _ ih =>
    rcases List.mem_cons.1 hx with rfl | hx
    · exact ⟨n, List.mem_cons_self, [], rfl, he⟩
    · obtain ⟨m, hm, hrest⟩ := ih hx
      exact ⟨m, List.mem_cons_of_mem n hm, hrest⟩

/-- **All that is below the names is visited.** -/
theorem Visits.mem_of_get? (h : Visits fs dir names xs) (hfs : fs.WellFormed) (hn : n ∈ names)
    (he : fs.get? (dir ++ n :: rel) = some e) : (n :: rel, e) ∈ xs := by
  induction h generalizing n rel with
  | nil => cases hn
  | @enter dir m names inner inside after hdir hinner _ _ ihin ihafter =>
    rcases List.mem_cons.1 hn with rfl | hn
    · cases rel with
      | nil =>
        obtain rfl := Option.some.inj (hdir.symm.trans he)
        exact List.mem_cons_self
      | cons k rel =>
        rw [List.append_cons] at he
        have hdeep : fs.get? (dir ++ [n] ++ [k] ++ rel) = some e := by rwa [List.append_cons] at he
        have hk : k ∈ inner := hinner.mem_iff.2 (hfs.exists_get? hdeep)
        refine List.mem_cons_of_mem _ (List.mem_append_left after (mem_map_beneath.2 ⟨k :: rel, rfl, ?_⟩))
        exact ihin hk he
    · exact List.mem_cons_of_mem _ (List.mem_append_right _ (ihafter hn he))
  | @pass dir m names e' after hentry hne _ ih =>
    rcases List.mem_cons.1 hn with rfl | hn
    · rw [List.append_cons] at he
      cases rel with
      | nil =>
        rw [List.append_nil] at he
        obtain rfl := Option.some.inj (hentry.symm.trans he)
        exact List.mem_cons_self
      | cons k rel =>
        -- Nothing is below what is no directory.
        rw [hfs.get?_above (List.cons_ne_nil k rel) he] at hentry
        exact absurd (Option.some.inj hentry).symm hne
    · exact List.mem_cons_of_mem _ (ih hn he)

/-- What is below one name comes before what is visited below later ones. -/
theorem Visits.compare_cons_eq_lt (h : Visits fs dir names xs) (hlt : ∀ m ∈ names, compare n m = .lt)
    (rel : Location) : ∀ x ∈ xs, compare (n :: rel) x.1 = .lt := by
  intro x hx
  obtain ⟨m, hm, rest, hrest, -⟩ := h.exists_of_mem hx
  rw [hrest, List.compare_cons_cons, hlt m hm, Ordering.lt_then]

/-- **A walk that goes depth first visits locations in order.** -/
theorem Visits.ordered (h : Visits fs dir names xs) (hnames : names.Pairwise fun a b => compare a b = .lt) :
    xs.Pairwise fun a b => compare a.1 b.1 = .lt := by
  induction h with
  | nil => exact .nil
  | @enter dir n names inner inside after _ hinner hinside hafter ihin ihafter =>
    obtain ⟨hlt, hnames⟩ := List.pairwise_cons.1 hnames
    rw [List.pairwise_cons, List.pairwise_append]
    refine ⟨fun y hy => ?_, List.pairwise_map.2 ?_, ihafter hnames, fun x hx y hy => ?_⟩
    · rcases List.mem_append.1 hy with hy | hy
      · obtain ⟨rel, hrel, hmem⟩ := mem_map_beneath.1 hy
        obtain ⟨m, -, rest, hrest, -⟩ := hinside.exists_of_mem hmem
        have hrest : rel = m :: rest := hrest
        rw [hrel, hrest, compare_cons, List.compare_nil_cons]
      · exact hafter.compare_cons_eq_lt hlt [] y hy
    · refine (ihin hinner.ordered).imp fun {a b} hab => ?_
      exact (compare_cons n a.1 b.1).trans hab
    · obtain ⟨rel, hrel, -⟩ := mem_map_beneath.1 hx
      rw [hrel]
      exact hafter.compare_cons_eq_lt hlt rel y hy
  | pass _ _ hafter ih =>
    obtain ⟨hlt, hnames⟩ := List.pairwise_cons.1 hnames
    exact List.pairwise_cons.2 ⟨hafter.compare_cons_eq_lt hlt [], ih hnames⟩

/-- **A walk that goes depth first visits what is below the directory**, in this order. -/
theorem Visits.eq_below (h : Visits fs dir names xs) (hfs : fs.WellFormed) (hnames : IsContents fs dir names) :
    xs = fs.below dir := by
  refine eq_of_ordered_of_mem_iff (f := Prod.fst) (h.ordered hnames.ordered) (pairwise_below fs dir) fun x => ?_
  obtain ⟨rel, e⟩ := x
  rw [mem_below]
  constructor
  · intro hx
    obtain ⟨n, -, rest, hrest, he⟩ := h.exists_of_mem hx
    have hrest : rel = n :: rest := hrest
    exact ⟨by rw [hrest]; exact List.cons_ne_nil n rest, he⟩
  · rintro ⟨hne, he⟩
    obtain ⟨n, rest, rfl⟩ := List.exists_cons_of_ne_nil hne
    have hdeep : fs.get? (dir ++ [n] ++ rest) = some e := by rwa [List.append_cons] at he
    exact h.mem_of_get? hfs (hnames.mem_iff.2 (hfs.exists_get? hdeep)) he

/-! ## There are walks -/

/-- The names among the places below a directory that are right in it. -/
def contents (fs : FileSystem) (dir : Location) : List OsString :=
  (fs.below dir).filterMap fun x => match x.1 with
    | [n] => some n
    | _ => none

theorem isContents_contents (fs : FileSystem) (dir : Location) : IsContents fs dir (fs.contents dir) := by
  have hname : ∀ {x : Location × Entry} {n : OsString},
      (match x.1 with | [m] => some m | _ => none) = some n ↔ x.1 = [n] := by
    intro x n
    split
    · rename_i m hx
      rw [hx]
      simp
    · rename_i hx
      simp only [reduceCtorEq, false_iff]
      exact fun h => hx n h
  constructor
  · refine List.pairwise_filterMap.2 ((pairwise_below fs dir).imp fun {a b} hab n hn m hm => ?_)
    rw [hname.1 hn, hname.1 hm, List.compare_cons_cons, Ordering.then_eq_lt] at hab
    exact hab.resolve_right fun h => by cases h.2
  · intro n
    unfold contents
    simp only [List.mem_filterMap, hname]
    constructor
    · rintro ⟨⟨rel, e⟩, hmem, hrel⟩
      obtain rfl : rel = [n] := hrel
      exact ⟨e, (mem_below.1 hmem).2⟩
    · rintro ⟨e, he⟩
      exact ⟨([n], e), mem_below.2 ⟨List.cons_ne_nil n [], he⟩, rfl⟩

/-- Less is below a directory than below the one that it is in. -/
theorem length_below_lt (he : fs.get? (dir ++ [n]) = some e) :
    (fs.below (dir ++ [n])).length < (fs.below dir).length := by
  have hnodup : (([n], e) :: (fs.below (dir ++ [n])).map (beneath n)).Nodup := by
    refine List.nodup_cons.2 ⟨fun hmem => ?_, ?_⟩
    · obtain ⟨rel, hrel, hbelow⟩ := mem_map_beneath.1 hmem
      obtain rfl : rel = [] := (List.cons.inj hrel).2.symm
      exact (mem_below.1 hbelow).1 rfl
    · refine List.pairwise_map.2 ((pairwise_below fs _).imp fun {a b} hab heq => ?_)
      have hrel : a.1 = b.1 := (List.cons.inj (Prod.mk.inj heq).1).2
      exact ne_of_compare_eq_lt (f := Prod.fst) hab (Prod.ext hrel (Prod.mk.inj heq).2)
  have hsub : (([n], e) :: (fs.below (dir ++ [n])).map (beneath n)) ⊆ fs.below dir := by
    intro x hx
    rcases List.mem_cons.1 hx with rfl | hx
    · exact mem_below.2 ⟨List.cons_ne_nil n [], he⟩
    · obtain ⟨rel, hrel, hmem⟩ := mem_map_beneath.1 hx
      have hx : x = (n :: rel, x.2) := Prod.ext hrel rfl
      rw [hx]
      refine mem_below.2 ⟨List.cons_ne_nil n rel, ?_⟩
      rw [List.append_cons]
      exact (mem_below.1 hmem).2
  have hlen := (hnodup.subperm hsub).length_le
  rw [List.length_cons, List.length_map] at hlen
  omega

/-- **From every directory there is a walk that goes depth first.** -/
theorem exists_visits (fs : FileSystem) (dir : Location) :
    ∃ names xs, IsContents fs dir names ∧ Visits fs dir names xs := by
  -- The walks from the directories inside are shorter.
  induction hlen : (fs.below dir).length using Nat.strongRecOn generalizing dir with
  | _ k ih =>
    have hsome : ∀ names : List OsString, (∀ n ∈ names, ∃ e, fs.get? (dir ++ [n]) = some e) →
        ∃ xs, Visits fs dir names xs := by
      intro names
      induction names with
      | nil => exact fun _ => ⟨[], .nil⟩
      | cons n names ihnames =>
        intro hnames
        obtain ⟨⟨e, he⟩, hnames⟩ := List.forall_mem_cons.1 hnames
        obtain ⟨after, hafter⟩ := ihnames hnames
        by_cases hdir : e = .dir
        · subst hdir
          obtain ⟨inner, inside, hinner, hinside⟩ := ih _ (hlen ▸ length_below_lt he) (dir ++ [n]) rfl
          exact ⟨_, .enter he hinner hinside hafter⟩
        · exact ⟨_, .pass he hdir hafter⟩
    have hcontents := isContents_contents fs dir
    obtain ⟨xs, hxs⟩ := hsome (fs.contents dir) fun n hn => hcontents.mem_iff.1 hn
    exact ⟨_, xs, hcontents, hxs⟩

end SolVendor.FileSystem
