import SolVendor.Path.Normal
/-!
# Import — where a request leads

A request is taken from the directory of the file that makes it, and the
result is in normal form. Slashes at the start of a request are not read,
so a request cannot name a place by an absolute path.
-/

namespace SolVendor.Import

/-- The request without the slashes at its start. -/
def dropSlashes (request : String) : Path :=
  ⟨String.ofList (request.toList.dropWhile (· = '/'))⟩

/-- The place that the file `importer` asks for by `request`. -/
def resolve (importer : Path) (request : String) : Path :=
  ((importer.parent?.getD .empty).join (dropSlashes request)).normalize

end SolVendor.Import
