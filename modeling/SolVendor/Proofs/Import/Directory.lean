import SolVendor.Import.Resolve
import SolVendor.Proofs.Path.Parent
import SolVendor.Proofs.Path.Point
import SolVendor.Proofs.Path.Unicode
/-!
# Import — requests and the directory they are made in

A path that ends in a name leads to the point of its parent, and one name
further down (`exists_parent?_of_fileName?`). So a request is walked from
the directory of the file that makes it (`resolve_eq_toPath`), and of that
file nothing counts but where it is: it may be spelled in any way that has
the same normal form (`resolve_at_directory`).
-/

namespace SolVendor

namespace Path

variable {p : Path} {n : OsString}

/-- A path that ends in a name has that name after all but dots. -/
theorem getLast?_pieces_of_fileName? (h : p.fileName? = some n) :
    (p.pieces.filter (· ≠ .here)).getLast? = some (.name n) := by
  have hlast : p.components.getLast? = some (.name n) := by
    unfold fileName? at h
    split at h
    · rename_i s hs
      rw [hs, Option.some.inj h]
    · cases h
  have hsteps : (p.steps.filter (· ≠ .here)).getLast? = some (.name n) := by
    unfold components at hlast
    split at hlast
    · rename_i cs hcs
      rw [hcs, List.filter_cons_of_neg (by simp)]
      -- The name is not the dot at the start.
      rcases List.eq_nil_or_concat (cs.filter (· ≠ .here)) with hnil | ⟨above, c, hc⟩
      · rw [hnil] at hlast
        cases hlast
      · rw [hc, List.concat_eq_append] at hlast ⊢
        rw [← List.cons_append, List.getLast?_concat] at hlast
        rw [List.getLast?_concat, hlast]
    · exact hlast
  unfold steps at hsteps
  split at hsteps
  · simpa using hsteps
  · exact hsteps

/-- **A path that ends in a name leads one name below its parent.** -/
theorem exists_parent?_of_fileName? (h : p.fileName? = some n) :
    ∃ q, p.parent? = some q ∧ p.point = q.point.down [n] := by
  have hlast := getLast?_pieces_of_fileName? h
  have hmem : .name n ∈ p.pieces := (List.mem_filter.1 (List.mem_of_getLast? hlast)).1
  obtain ⟨q, hq⟩ := exists_parent?_of_mem
    (Component.isWritten_name.2 (isFileName_of_mem_pieces hmem)) (by simp) hmem
  refine ⟨q, hq, ?_⟩
  rcases pieces_of_parent? hq with ⟨k, c, j, hc, -, hp⟩ | ⟨-, k, hp⟩
  · -- The last piece that is no dot is the name.
    obtain rfl : c = .name n := by
      rw [hp] at hlast
      simpa [hc] using hlast
    have hwalk : p.point = Point.start.walk (p.pieces.filter (· ≠ .here)) := by
      rw [point_eq_walk_pieces]
      exact (foldl_filter_here (fun _ => rfl) p.pieces _).symm
    have hfilter : p.pieces.filter (· ≠ .here) = q.pieces.filter (· ≠ .here) ++ [.name n] := by
      rw [hp]
      simp
    rw [hwalk, hfilter, Point.walk_append, point_eq_walk_pieces]
    exact congrArg (Point.down · [n]) (foldl_filter_here (fun _ => rfl) q.pieces _)
  · rw [hp] at hmem
    cases List.eq_of_mem_replicate hmem

end Path

namespace Import

open SolVendor.Path

variable {f q : Path} {n : OsString}

/-- A request without its first slashes is relative. -/
theorem isAbsolute_dropSlashes (request : String) : (dropSlashes request).isAbsolute = false := by
  unfold dropSlashes
  rw [Bool.eq_false_iff, ne_eq, isAbsolute_mk, String.toList_ofList]
  intro hhead
  have hnot := List.head?_dropWhile_not (fun c : Char => decide (c = '/')) request.toList
  rw [hhead] at hnot
  simp at hnot

/-- More slashes at the start of a request are not read. -/
theorem resolve_slashes (f : Path) (k : Nat) (request : String) :
    resolve f (String.ofList (List.replicate k '/' ++ request.toList)) = resolve f request := by
  have hdrop : dropSlashes (String.ofList (List.replicate k '/' ++ request.toList)) =
      dropSlashes request := by
    unfold dropSlashes
    rw [String.toList_ofList, List.dropWhile_append_of_pos]
    intro c hc
    simpa using List.eq_of_mem_replicate hc
  unfold resolve
  rw [hdrop]

/-- **A request is walked from the directory of its file.** -/
theorem resolve_eq_toPath (hq : f.parent? = some q) (request : String) :
    resolve f request = (q.point.walk (dropSlashes request).components).toPath := by
  unfold resolve
  rw [hq, Option.getD_some, normalize_eq_toPath, point_join (isAbsolute_dropSlashes request)]

/-- The directory of a file is what comes before its name in the normal form. -/
theorem exists_directory (h : f.fileName? = some n) :
    ∃ dirs, f.normalize.components = dirs ++ [.name n] ∧ ∀ request, resolve f request =
      ((Point.start.walk dirs).walk (dropSlashes request).components).toPath := by
  obtain ⟨q, hq, hpoint⟩ := exists_parent?_of_fileName? h
  have hfold : fold f.components = q.point.components ++ [.name n] := by
    rw [fold_eq_components_walk (isRead_components f), ← point, hpoint, Point.components_down]
    rfl
  refine ⟨q.point.components, ?_, fun request => ?_⟩
  · rw [components_normalize, hfold, if_neg (by simp)]
  · rw [resolve_eq_toPath hq, Point.walk_components]

/-- A file and its directory are absolute together. -/
theorem isAbsolute_resolve (h : f.fileName? = some n) (request : String) :
    (resolve f request).isAbsolute = f.isAbsolute := by
  obtain ⟨q, hq, hpoint⟩ := exists_parent?_of_fileName? h
  have hparent : q.isAbsolute = f.isAbsolute := by
    rw [← isAbsolute_point, ← isAbsolute_point, hpoint]
    exact (Point.isAbsolute_step (c := .name n) (by simp)).symm
  unfold resolve
  rw [hq, Option.getD_some, isAbsolute_normalize, isAbsolute_join (isAbsolute_dropSlashes request),
    hparent]

/-- **What counts of a file is where it is.** A request of a file means the same as that of the file at the
normal form of its path, whatever slashes it begins with. It means a path in normal form, absolute as the
path of the file is: the point that is reached from the directory of that normal form over the components
of the request, one by one. -/
theorem resolve_at_directory (h : f.fileName? = some n) (request : String) :
    resolve f request = resolve f.normalize request ∧
      (∀ k, resolve f (String.ofList (List.replicate k '/' ++ request.toList)) = resolve f request) ∧
      (resolve f request).normalize = resolve f request ∧
      (resolve f request).isAbsolute = f.isAbsolute ∧
      ∃ dirs, f.normalize.components = dirs ++ [.name n] ∧
        resolve f request =
          ((Point.start.walk dirs).walk (dropSlashes request).components).toPath := by
  obtain ⟨dirs, hdirs, hwalk⟩ := exists_directory h
  have hname : f.normalize.fileName? = some n := by
    unfold fileName?
    rw [hdirs, List.getLast?_concat]
  -- The normal form has the same directory.
  obtain ⟨dirs', hdirs', hwalk'⟩ := exists_directory hname
  rw [normalize_normalize, hdirs] at hdirs'
  obtain rfl := List.append_cancel_right hdirs'
  refine ⟨?_, fun k => resolve_slashes f k request, normalize_normalize _, isAbsolute_resolve h request,
    dirs, hdirs, hwalk request⟩
  rw [hwalk, hwalk']

/-- A file that is spelled with dots asks for another one, with slashes in front. -/
theorem resolve_at_directory_sample :
    (⟨"./a/../src//X.sol/."⟩ : Path).fileName? = some "X.sol" ∧
      resolve ⟨"./a/../src//X.sol/."⟩ "//../lib/./Y.sol" =
        resolve ⟨"src/X.sol"⟩ "//../lib/./Y.sol" ∧
      resolve ⟨"./a/../src//X.sol/."⟩ "//../lib/./Y.sol" = ⟨"lib/Y.sol"⟩ := by
  have hname : (⟨"./a/../src//X.sol/."⟩ : Path).fileName? = some "X.sol" := by decide
  have hnormal : (⟨"./a/../src//X.sol/."⟩ : Path).normalize = ⟨"src/X.sol"⟩ := by decide
  obtain ⟨hsame, -, -, -, dirs, hdirs, hwalk⟩ := resolve_at_directory hname "//../lib/./Y.sol"
  rw [hnormal] at hsame hdirs
  have hparts : (⟨"src/X.sol"⟩ : Path).components = [.name "src"] ++ [.name "X.sol"] := by decide
  rw [hparts] at hdirs
  obtain rfl := List.append_cancel_right hdirs
  refine ⟨hname, hsame, hwalk.trans ?_⟩
  decide

end Import

end SolVendor
