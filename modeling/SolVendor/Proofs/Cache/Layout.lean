import SolVendor.Cache.Storage
import SolVendor.Install.Export
import SolVendor.Proofs.Dependency.Key
import SolVendor.Proofs.Path.Parent
/-!
# Cache — where trees are kept

The tree of a dependency has the pieces of the directory it is kept in,
then its owner and its tree name (`pieces_join_cacheKey`). Its staging tree
has the staging name in place of the tree name (`pieces_stagingPath`).
Both are in the directory of the owner, up to the dots that its path may
end in.
-/

namespace SolVendor

namespace Dependency

variable {d : Dependency}

/-- What is kept under the key of a dependency, in whatever directory. -/
theorem IsAccepted.pieces_join_cacheKey (h : d.IsAccepted) (base : Path) :
    (base.join d.cacheKey).pieces = base.pieces ++ [.ofPiece d.owner.bytes, .name d.treeName] := by
  rw [Path.pieces_join h.isAbsolute_cacheKey, h.pieces_cacheKey]

theorem IsAccepted.endsInSlash_join_cacheKey (h : d.IsAccepted) (base : Path) :
    (base.join d.cacheKey).endsInSlash = false := by
  rw [Path.endsInSlash_join h.isAbsolute_cacheKey h.cacheKey_ne, h.endsInSlash_cacheKey]

end Dependency

namespace Storage

variable {s : Storage} {d : Dependency}

theorem pieces_treePath (h : d.IsAccepted) :
    (s.treePath d).pieces = s.root.pieces ++ [.ofPiece d.owner.bytes, .name d.treeName] :=
  h.pieces_join_cacheKey s.root

theorem endsInSlash_treePath (h : d.IsAccepted) : (s.treePath d).endsInSlash = false :=
  h.endsInSlash_join_cacheKey s.root

/-- **The staging tree is beside the tree.** Their common parent is the directory of the owner; the
dots that it may end in are not written again. -/
theorem pieces_stagingPath (h : d.IsAccepted) :
    ∃ q k, (s.treePath d).parent? = some q ∧
      s.root.pieces ++ [.ofPiece d.owner.bytes] = q.pieces ++ List.replicate k .here ∧
      (s.stagingPath d).pieces = q.pieces ++ [.name d.stagingName] ∧
      (s.stagingPath d).endsInSlash = false := by
  have hp : (s.treePath d).pieces =
      (s.root.pieces ++ [.ofPiece d.owner.bytes]) ++ [.name d.treeName] := by
    rw [pieces_treePath h, List.append_assoc]
    rfl
  have hname := Path.fileName?_of_concat hp (endsInSlash_treePath h)
  have hstaging : s.stagingPath d = (s.treePath d).withFileName d.stagingName := by
    simp only [stagingPath, hname, Option.map_some, Option.getD_some, Dependency.treeName,
      OsString.display_ofString]
    rfl
  rw [hstaging]
  exact Path.pieces_withFileName hp (endsInSlash_treePath h) h.isFileName_stagingName

end Storage

end SolVendor
