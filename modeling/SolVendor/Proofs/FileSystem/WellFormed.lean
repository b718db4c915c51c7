import Mathlib.Data.List.Induction
import SolVendor.Proofs.FileSystem.MakeDirs
/-!
# FileSystem — well-formed file systems

In a well-formed file system every entry has a name that files can have,
and is in a directory. So nothing is below a vacant place
(`WellFormed.get?_append`). The empty file system is well formed, and an
entry that is put in a directory at a vacant place keeps it so
(`WellFormed.put`), as does one that is planted with the directories above
it (`WellFormed.plant`).
-/

namespace SolVendor

open SolVendor.Path

namespace FileSystem

variable {fs : FileSystem} {loc : Location} {n : OsString} {e : Entry}

/-- All names are such as files can have, and what has an entry is in a directory. -/
structure WellFormed (fs : FileSystem) : Prop where
  names : ∀ {loc e}, fs.get? loc = some e → ∀ n ∈ loc, IsFileName n
  above : ∀ {loc n e}, fs.get? (loc ++ [n]) = some e → fs.get? loc = some .dir

/-- **What stands anywhere is reached through directories.** -/
theorem WellFormed.get?_above (h : fs.WellFormed) {rest : Location} (hne : rest ≠ [])
    (he : fs.get? (loc ++ rest) = some e) : fs.get? loc = some .dir := by
  induction rest using List.reverseRecOn generalizing e with
  | nil => exact absurd rfl hne
  | append_singleton rest n ih =>
    rw [← List.append_assoc] at he
    have hdir := h.above he
    by_cases hrest : rest = []
    · rwa [hrest, List.append_nil] at hdir
    · exact ih hrest hdir

/-- **Nothing is below a vacant place.** -/
theorem WellFormed.get?_append (h : fs.WellFormed) (hnone : fs.get? loc = none) (rel : Location) :
    fs.get? (loc ++ rel) = none := by
  by_cases hrel : rel = []
  · rwa [hrel, List.append_nil]
  · rw [Option.eq_none_iff_forall_ne_some]
    intro e he
    rw [h.get?_above hrel he] at hnone
    cases hnone

theorem WellFormed.exists_get? (h : fs.WellFormed) {rest : Location} (he : fs.get? (loc ++ rest) = some e) :
    ∃ e, fs.get? loc = some e := by
  refine Option.ne_none_iff_exists'.1 fun hnone => ?_
  rw [h.get?_append hnone] at he
  cases he

/-- **A walk ends where something stands** that is no link, or in a directory that has been removed. -/
theorem WellFormed.exists_get?_of_walks (h : fs.WellFormed) {k : Nat} {pos stop : Position}
    {cs : List Component} (hw : Walks fs k pos cs stop) {e : Entry}
    (he : fs.get? pos.place = some e) (hlink : ∀ target, e ≠ .link target)
    (hlost : pos.lost = 0 ∨ e = .dir) :
    ∃ e, fs.get? stop.place = some e ∧ ∀ target, e ≠ .link target := by
  have hdir : ∀ target, Entry.dir ≠ .link target := by simp
  -- A directory that has been removed is as good as one: dots lead up from it still.
  induction hw generalizing e with
  | nil => exact ⟨e, he, hlink⟩
  | root _ ih => exact ih (e := .dir) rfl hdir (.inl rfl)
  | here _ _ ih => exact ih he hlink hlost
  | @up k pos stop cs hd _ ih =>
    obtain ⟨place, lost⟩ := pos
    cases lost with
    | zero =>
      have hd : fs.get? place = some .dir := hd
      by_cases hnil : place = []
      · subst hnil
        exact ih (e := .dir) rfl hdir (.inl rfl)
      · rw [← List.dropLast_concat_getLast hnil] at hd
        exact ih (e := .dir) (h.above hd) hdir (.inl rfl)
    | succ lost =>
      obtain rfl := hlost.resolve_left (Nat.succ_ne_zero lost)
      exact ih he hdir (.inr rfl)
  | name _ _ _ hnext hlink' _ ih => exact ih hnext hlink' (.inl rfl)
  | link _ _ _ _ _ ih => exact ih he hlink hlost

theorem wellFormed_empty : empty.WellFormed where
  names {loc e} he := by
    by_cases hloc : loc = []
    · subst hloc
      simp
    · rw [get?_empty hloc] at he
      cases he
  above he := by
    rw [get?_empty (by simp)] at he
    cases he

/-- A file system is well formed if all that is listed in it is in directories, under names that files can
have. -/
theorem wellFormed_of_below
    (h : ∀ x ∈ fs.below [], (∀ n ∈ x.1, IsFileName n) ∧ fs.get? x.1.dropLast = some .dir) : fs.WellFormed where
  names {loc e} he := by
    by_cases hloc : loc = []
    · subst hloc
      exact fun n hn => absurd hn List.not_mem_nil
    · exact (h (loc, e) (mem_below.2 ⟨hloc, he⟩)).1
  above {loc n e} he := by
    have hdir := (h (loc ++ [n], e) (mem_below.2 ⟨by simp, he⟩)).2
    rwa [List.dropLast_concat] at hdir

/-- **One more entry in a directory.** -/
theorem WellFormed.put (h : fs.WellFormed) (hdir : fs.get? loc = some .dir)
    (hnone : fs.get? (loc ++ [n]) = none) (hn : IsFileName n) :
    (fs.put (loc ++ [n]) e).WellFormed where
  names {k e'} he m hm := by
    rw [get?_put_of_ne_nil (by simp)] at he
    split at he
    · rename_i hk
      subst hk
      rcases List.mem_append.1 hm with hm | hm
      · exact h.names hdir m hm
      · rw [List.mem_singleton.1 hm]
        exact hn
    · exact h.names he m hm
  above {k m e'} he := by
    have hext := extends_put (e := e) hnone
    rw [get?_put_of_ne_nil (by simp)] at he
    split at he
    · rename_i hk
      obtain ⟨rfl, -⟩ := List.append_inj' hk rfl
      exact hext k _ hdir
    · exact hext k _ (h.above he)

/-- **Other bytes in a file.** Nothing is below it. -/
theorem WellFormed.put_file {bytes bytes' : List UInt8} (h : fs.WellFormed)
    (hfile : fs.get? loc = some (.file bytes)) : (fs.put loc (.file bytes')).WellFormed := by
  have hne : loc ≠ [] := by
    rintro rfl
    cases hfile
  have hold : ∀ {k e}, (fs.put loc (.file bytes')).get? k = some e → ∃ e, fs.get? k = some e := by
    intro k e he
    rw [get?_put_of_ne_nil hne] at he
    split at he
    · rename_i hk
      exact ⟨_, hk ▸ hfile⟩
    · exact ⟨e, he⟩
  refine ⟨fun {k e} he => ?_, fun {k m e} he => ?_⟩
  · obtain ⟨e', he'⟩ := hold he
    exact h.names he'
  · obtain ⟨e', he'⟩ := hold he
    have hdir := h.above he'
    rw [get?_put_of_ne_nil hne, if_neg, hdir]
    rintro rfl
    rw [hfile] at hdir
    cases hdir

/-- What is planted at a vacant place keeps what stood there, and directories above it are made where
nothing stands. -/
theorem get?_plant_of_get? (hnone : fs.get? loc = none) {k : Location} {e' : Entry}
    (he : fs.get? k = some e') : (fs.plant loc e).get? k = some e' := by
  by_cases hk : k = []
  · rw [hk] at he ⊢
    exact he
  · have hne : k ≠ loc := by
      rintro rfl
      rw [hnone] at he
      cases he
    rw [get?_plant hk, if_neg hne, if_neg fun hnew => by simp [hnew.2] at he, he]

/-- **An entry that is planted** at a vacant place, with nothing but directories above it. -/
theorem WellFormed.plant (h : fs.WellFormed) (hn : ∀ n ∈ loc, IsFileName n)
    (habove : ∀ k ∈ loc.above, fs.get? k = none ∨ fs.get? k = some .dir)
    (hnone : fs.get? loc = none) : (fs.plant loc e).WellFormed := by
  have hway : ∀ {k}, k <+: loc → k ≠ loc → (fs.plant loc e).get? k = some .dir := by
    intro k hk hne
    rcases habove k (Location.mem_above.2 ⟨hk, hne⟩) with hvacant | hdir
    · rw [get?_plant (ne_nil_of_get?_eq_none hvacant), if_neg hne, if_pos ⟨hk, hvacant⟩]
    · exact get?_plant_of_get? hnone hdir
  have hcases : ∀ {k e'}, (fs.plant loc e).get? k = some e' → k <+: loc ∨ fs.get? k = some e' := by
    intro k e' he
    by_cases hk : k <+: loc
    · exact .inl hk
    · have hnil : k ≠ [] := by
        rintro rfl
        exact hk List.nil_prefix
      have hne : k ≠ loc := by
        rintro rfl
        exact hk (List.prefix_refl k)
      rw [get?_plant hnil, if_neg hne, if_neg fun hnew => hk hnew.1] at he
      exact .inr he
  refine ⟨fun {k e'} he m hm => ?_, fun {k m e'} he => ?_⟩
  · rcases hcases he with hk | hold
    · exact hn m (hk.subset hm)
    · exact h.names hold m hm
  · rcases hcases he with hk | hold
    · refine hway ((List.prefix_append k [m]).trans hk) fun heq => ?_
      have hlen := hk.length_le
      rw [heq, List.length_append, List.length_singleton] at hlen
      omega
    · exact get?_plant_of_get? hnone (h.above hold)

end FileSystem

end SolVendor
