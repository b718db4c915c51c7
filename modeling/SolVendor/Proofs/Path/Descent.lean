import SolVendor.Proofs.Path.NormalForm
import SolVendor.Proofs.Path.Parent
/-!
# Path — going down through names

A path that is joined with names goes down through them: they are its last
pieces (`pieces_join_ofNames`), and the paths above it go down through some
of them at most (`exists_parent?_join_ofNames`). Such a path is longer than
the one with fewer names (`prefix_bytes_join`).
-/

namespace SolVendor.Path

variable {p : Path} {names above : List OsString}

section

variable (h : ∀ n ∈ names, IsFileName n)

include h

theorem isAbsolute_ofNames : (ofNames names).isAbsolute = false :=
  isAbsolute_ofComponents (isWritten_of_mem_map_name h)

theorem endsInSlash_ofNames : (ofNames names).endsInSlash = false :=
  endsInSlash_ofComponents (isWritten_of_mem_map_name h)

theorem pieces_ofNames : (ofNames names).pieces = names.map .name :=
  pieces_ofComponents (isWritten_of_mem_map_name h)

/-- **The names are the last pieces.** -/
theorem pieces_join_ofNames : (p.join (ofNames names)).pieces = p.pieces ++ names.map .name := by
  rw [pieces_join (isAbsolute_ofNames h), pieces_ofNames h]

/-- Different names make different paths. -/
theorem eq_of_ofNames_eq {names' : List OsString} (h' : ∀ n ∈ names', IsFileName n)
    (heq : ofNames names = ofNames names') : names = names' := by
  have hpieces : names.map Component.name = names'.map .name := by
    rw [← pieces_ofNames h, ← pieces_ofNames h', heq]
  exact (List.map_inj_right fun a b hab => Component.name.inj hab).1 hpieces

theorem ofNames_ne (hne : names ≠ []) : ofNames names ≠ .empty := by
  intro hempty
  have hnil := pieces_empty hempty
  rw [pieces_ofNames h] at hnil
  exact hne (List.map_eq_nil_iff.1 hnil)

theorem join_ofNames_ne (hne : names ≠ []) : p.join (ofNames names) ≠ .empty := by
  intro hempty
  have hnil := pieces_empty hempty
  rw [pieces_join_ofNames h] at hnil
  exact hne (List.map_eq_nil_iff.1 (List.append_eq_nil_iff.1 hnil).2)

theorem endsInSlash_join_ofNames (hne : names ≠ []) :
    (p.join (ofNames names)).endsInSlash = false := by
  rw [endsInSlash_join (isAbsolute_ofNames h) (ofNames_ne h hne), endsInSlash_ofNames h]

theorem steps_join_ofNames (hne : names ≠ []) :
    (p.join (ofNames names)).steps = p.pieces ++ names.map .name := by
  unfold steps
  rw [endsInSlash_join_ofNames h hne, pieces_join_ofNames h]
  rfl

/-- **The paths above go down through fewer names.** -/
theorem exists_parent?_join_ofNames (hne : names ≠ []) :
    ∃ q, (p.join (ofNames names)).parent? = some q ∧
      ∀ a ∈ q.ancestors, a.pieces <+: p.pieces ++ names.dropLast.map .name := by
  have hpieces : (p.join (ofNames names)).pieces =
      (p.pieces ++ names.dropLast.map .name) ++ [.name (names.getLast hne)] := by
    rw [pieces_join_ofNames h, List.append_assoc]
    congr 1
    rw [← List.map_singleton, ← List.map_append, List.dropLast_concat_getLast]
  obtain ⟨q, k, hq, hcs⟩ := exists_parent?_of_concat hpieces
  refine ⟨q, hq, fun a ha => ?_⟩
  rw [hcs]
  exact (prefix_of_mem_ancestors ha).trans (List.prefix_append _ _)

end

/-- A path through one name is that name. -/
theorem ofNames_singleton (n : OsString) : ofNames [n] = ⟨n⟩ := by
  unfold ofNames ofComponents Component.bytes
  simp

/-- **The path with fewer names is the beginning of the path with more.** -/
theorem prefix_bytes_join (h : ∀ n ∈ names, IsFileName n) (hpre : above <+: names) :
    (p.join (ofNames above)).os.bytes <+: (p.join (ofNames names)).os.bytes := by
  have habove : ∀ n ∈ above, IsFileName n := fun n hn => h n (hpre.subset hn)
  have hroot : ∀ {ns : List OsString}, ns.map Component.name ≠ [.root] := by
    intro ns hns
    obtain ⟨n, -, hn⟩ := List.mem_map.1 (hns ▸ List.mem_singleton.2 rfl)
    cases hn
  have hbytes : (ofNames above).os.bytes <+: (ofNames names).os.bytes := by
    unfold ofNames
    rw [bytes_ofComponents hroot, bytes_ofComponents hroot]
    exact prefix_intercalate ((hpre.map _).map _)
  rw [bytes_join (isAbsolute_ofNames habove), bytes_join (isAbsolute_ofNames h)]
  split
  · exact (List.prefix_append_right_inj _).2 hbytes
  · exact (List.prefix_append_right_inj _).2 (List.cons_prefix_cons.2 ⟨rfl, hbytes⟩)

end SolVendor.Path
