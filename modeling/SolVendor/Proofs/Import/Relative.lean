import Mathlib.Data.List.Induction
import SolVendor.Import.Resolve
import SolVendor.Proofs.Path.Descent
import SolVendor.Proofs.Path.Unicode
/-!
# Import — requests that are relative

A file asks for another one by going up to the root of the tree and down
again (`relative`). Wherever the two files are, the request leads there
(`resolve_relative`): each step up takes back one name of the directory of
the file that asks, and a dot at the start moves nothing.
-/

namespace SolVendor

namespace Path

/-- Steps up take back names. -/
theorem foldl_move_ups (names : List OsString) (trail : List Component) :
    (List.replicate names.length Component.up).foldl move ((names.map .name).reverse ++ trail) =
      trail := by
  induction names using List.reverseRecOn with
  | nil => rfl
  | append_singleton names n ih =>
    rw [List.length_append, List.length_singleton, List.replicate_succ, List.foldl_cons,
      List.map_append, List.reverse_append]
    exact ih

end Path

namespace Import

open SolVendor.Path

variable {importer target : List OsString}

/-- The pieces of a request. -/
def relativePieces (dotted : Bool) (importer target : List OsString) : List Component :=
  (if dotted then [.here] else []) ++
    (List.replicate (importer.length - 1) .up ++ target.map .name)

/-- The request by which one file asks for another: perhaps a dot, two dots for each directory above the
file that asks, and the path of the file that it asks for. -/
def relative (dotted : Bool) (importer target : List OsString) : Path :=
  .ofComponents (relativePieces dotted importer target)

/-- Two files in different directories. -/
example : relative true ["src", "a", "X.sol"] ["lib", "Y.sol"] = ⟨"./../../lib/Y.sol"⟩ := by decide

theorem isWritten_of_mem_relativePieces (importer : List OsString) (h : ∀ n ∈ target, IsFileName n)
    (dotted : Bool) : ∀ c ∈ relativePieces dotted importer target, c.IsWritten := by
  intro c hc
  unfold relativePieces at hc
  rw [List.mem_append, List.mem_append] at hc
  rcases hc with hc | hc | hc
  · split at hc
    · obtain rfl := List.mem_singleton.1 hc
      exact Component.isWritten_here
    · cases hc
  · obtain rfl := List.eq_of_mem_replicate hc
    exact Component.isWritten_up
  · exact isWritten_of_mem_map_name h c hc

theorem relativePieces_ne_root (importer : List OsString) (h : ∀ n ∈ target, IsFileName n)
    (dotted : Bool) : relativePieces dotted importer target ≠ [.root] := fun heq =>
  Component.not_isWritten_root
    (isWritten_of_mem_relativePieces importer h dotted _ (heq ▸ List.mem_singleton_self _))

/-- What is written with slashes between holds nothing but them and what is written. -/
theorem mem_intercalate {b : UInt8} {segs : List (List UInt8)} (hb : b ∈ [slash].intercalate segs) :
    b = slash ∨ ∃ s ∈ segs, b ∈ s := by
  induction segs with
  | nil => simp at hb
  | cons s segs ih =>
    cases segs with
    | nil =>
      rw [List.intercalate_singleton] at hb
      exact .inr ⟨s, List.mem_cons_self, hb⟩
    | cons t segs =>
      rw [List.intercalate_cons_cons, List.mem_append, List.mem_append, List.mem_singleton] at hb
      rcases hb with (hb | hb) | hb
      · exact .inr ⟨s, List.mem_cons_self, hb⟩
      · exact .inl hb
      · exact (ih hb).imp_right fun ⟨s, hs, hb⟩ => ⟨s, List.mem_cons_of_mem _ hs, hb⟩

/-- The bytes of a request are slashes, dots, and those of the names. -/
theorem mem_bytes_relative {b : UInt8} (h : ∀ n ∈ target, IsFileName n) {dotted : Bool}
    (hb : b ∈ (relative dotted importer target).os.bytes) :
    b = slash ∨ b = dot ∨ ∃ n ∈ target, b ∈ n.bytes := by
  unfold relative at hb
  rw [bytes_ofComponents (relativePieces_ne_root importer h dotted)] at hb
  rcases mem_intercalate hb with hb | ⟨s, hs, hb⟩
  · exact .inl hb
  obtain ⟨d, hd, rfl⟩ := List.mem_map.1 hs
  unfold relativePieces at hd
  rw [List.mem_append, List.mem_append] at hd
  rcases hd with hd | hd | hd
  · split at hd
    · obtain rfl := List.mem_singleton.1 hd
      exact .inr (.inl (List.mem_singleton.1 hb))
    · cases hd
  · obtain rfl := List.eq_of_mem_replicate hd
    exact .inr (.inl (by simpa [Component.bytes] using hb))
  · obtain ⟨n, hn, rfl⟩ := List.mem_map.1 hd
    exact .inr (.inr ⟨n, hn, hb⟩)

/-- A request for a file whose names are texts is a text. -/
theorem isUnicode_relative (dotted : Bool) (importer : List OsString)
    (h : ∀ n ∈ target, n.IsUnicode) : (relative dotted importer target).IsUnicode := by
  refine isUnicode_ofComponents fun c hc => ?_
  unfold relativePieces at hc
  rw [List.mem_append, List.mem_append] at hc
  rcases hc with hc | hc | hc
  · split at hc
    · obtain rfl := List.mem_singleton.1 hc
      exact OsString.isUnicode_ofString "."
    · cases hc
  · obtain rfl := List.eq_of_mem_replicate hc
    exact OsString.isUnicode_ofString ".."
  · obtain ⟨n, hn, rfl⟩ := List.mem_map.1 hc
    exact h n hn

/-- A request that begins with no slash is read as it is. -/
theorem dropSlashes_of_head?_ne {request : String} (h : request.toList.head? ≠ some '/') :
    dropSlashes request = ⟨request⟩ := by
  unfold dropSlashes
  rcases hcs : request.toList with _ | ⟨c, cs⟩
  · rw [List.dropWhile_nil, ← hcs, String.ofList_toList]
  · rw [hcs, List.head?_cons, ne_eq, Option.some_inj] at h
    rw [List.dropWhile_cons_of_neg (by simpa using h), ← hcs, String.ofList_toList]

/-- The directory of a file is reached through the names before the last. -/
theorem exists_parent?_ofNames (h : ∀ n ∈ importer, IsFileName n) (hne : importer ≠ []) :
    ∃ q, (ofNames importer).parent? = some q ∧ q.pieces = importer.dropLast.map .name := by
  have hpieces : (ofNames importer).pieces =
      importer.dropLast.map .name ++ [.name (importer.getLast hne)] := by
    rw [pieces_ofNames h, ← List.map_singleton, ← List.map_append, List.dropLast_concat_getLast]
  obtain ⟨q, k, hq, hcs⟩ := exists_parent?_of_concat hpieces
  refine ⟨q, hq, ?_⟩
  cases k with
  | zero => rw [hcs, List.replicate_zero, List.append_nil]
  | succ k =>
    have hhere : Component.here ∈ importer.dropLast.map Component.name := by
      rw [hcs]
      simp
    exact absurd hhere (here_notMem_map_name _)

/-- **A relative request leads to the file that it is for.** -/
theorem resolve_relative (hi : ∀ n ∈ importer, IsFileName n) (hne : importer ≠ [])
    (ht : ∀ n ∈ target, IsFileName n) (hne' : target ≠ []) (hu : ∀ n ∈ target, n.IsUnicode)
    (dotted : Bool) :
    resolve (ofNames importer) (relative dotted importer target).text = ofNames target := by
  have hwritten := isWritten_of_mem_relativePieces importer ht dotted
  have habs : (relative dotted importer target).isAbsolute = false := isAbsolute_ofComponents hwritten
  have htext := mk_text (isUnicode_relative dotted importer hu)
  have hslashes : dropSlashes (relative dotted importer target).text =
      relative dotted importer target := by
    rw [dropSlashes_of_head?_ne, htext]
    rw [ne_eq, ← isAbsolute_mk, htext, habs]
    exact Bool.false_ne_true
  obtain ⟨q, hq, hpieces⟩ := exists_parent?_ofNames hi hne
  have hfold : fold (q.join (relative dotted importer target)).components = target.map .name := by
    rw [fold_components, pieces_join habs, hpieces, relative, pieces_ofComponents hwritten]
    have hup : importer.length - 1 = importer.dropLast.length := by rw [List.length_dropLast]
    have hdot : ∀ trail : List Component,
        (if dotted then [Component.here] else []).foldl move trail = trail := by
      intro trail
      cases dotted <;> rfl
    unfold fold relativePieces
    rw [List.foldl_append, List.foldl_append, List.foldl_append, hdot, hup,
      foldl_move_names importer.dropLast, foldl_move_ups, foldl_move_names, List.append_nil,
      List.reverse_reverse]
  unfold resolve
  rw [hq, hslashes, Option.getD_some, normalize_eq, hfold, if_neg (by simpa using hne')]
  rfl

end Import

end SolVendor
