import SolVendor.Install.Listing
import SolVendor.Report.Json
import SolVendor.Report.Styled
/-!
# Report — the result of the list command

As text: a heading with the numbers of files and edges, then every file
with a mark if it is selected, and below it, one to a line, the files that
it imports. As JSON: all fields of the result.
-/

namespace SolVendor

/-- A dependency as JSON. -/
def Dependency.toJson (d : Dependency) : Json :=
  .obj [("name", .str d.name), ("version", .str d.version), ("path", .str d.path)]

namespace ListedFile

/-- The lines of the imports, of which the last has a branch of its own. -/
def depSpans : List String → List Span
  | [] => []
  | dep :: deps =>
    [plain "    ", ⟨[.dimmed], if deps.isEmpty then "└──" else "├──"⟩, plain ("  " ++ dep ++ "\n")]
      ++ depSpans deps

/-- A file with its imports, as text. -/
def spans (f : ListedFile) : List Span :=
  [plain "[", if f.selected then ⟨[.bold, .green], "X"⟩ else plain " ", plain "] ",
    ⟨[.brightWhite], f.name⟩, plain " (", ⟨[.dimmed], f.path⟩, plain ")\n"]
    ++ depSpans f.deps

/-- A file as JSON. -/
def toJson (f : ListedFile) : Json :=
  .obj [("name", .str f.name), ("path", .str f.path), ("selected", .bool f.selected),
    ("deps", .arr (f.deps.map .str))]

end ListedFile

namespace Listing

/-- The listing as text. -/
def spans (l : Listing) : List Span :=
  [⟨[.brightBlue], "●"⟩, plain " ", ⟨[.bold], l.dependency.toString⟩, plain " (",
    ⟨[.cyan], toString l.files.length⟩, plain " files, ", ⟨[.cyan], toString l.edges⟩,
    plain " imports)\n\n"]
    ++ l.files.flatMap ListedFile.spans

/-- The listing as JSON. -/
def toJson (l : Listing) : Json :=
  .obj [("dependency", l.dependency.toJson), ("tree", .str l.tree.text),
    ("files", .arr (l.files.map ListedFile.toJson)), ("edges", .num l.edges)]

end Listing

end SolVendor
