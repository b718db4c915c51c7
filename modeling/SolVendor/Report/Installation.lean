import SolVendor.Install.Installation
import SolVendor.Path.Relative
import SolVendor.Report.Listing
/-!
# Report — the result of the install command

As text: one line on what was copied and where, then every copied file,
with the selected ones marked. The destination is shown as seen from the
working directory, if it can be. As JSON: all fields of the result.
-/

namespace SolVendor.Installation

/-- A path as seen from the working directory, or as it is if there is no telling. -/
def shownFrom (currentDir : Except FileError Path) (p : Path) : String :=
  match currentDir with
  | .ok cwd => ((p.relativeTo cwd).getD p).text
  | .error _ => p.text

/-- A copied file, as text. -/
def fileSpans (selected : List String) (file : Path) : List Span :=
  if selected.contains file.text then
    [plain "  ", ⟨[.green], "●"⟩, plain (" " ++ file.text ++ "\n")]
  else
    [plain "  ", ⟨[.dimmed], "○"⟩, plain " ", ⟨[.dimmed], file.text⟩, plain "\n"]

/-- The installation as text. -/
def spans (currentDir : Except FileError Path) (i : Installation) : List Span :=
  [⟨[.bold, .green], "✓"⟩, plain (if i.dryRun then " Would copy " else " Copied "),
    ⟨[.cyan], toString i.files.length⟩, plain " files from ",
    ⟨[.bold], i.dependency.toString⟩, plain " into ",
    ⟨[.blue], shownFrom currentDir i.destination⟩, plain "\n"]
    ++ i.files.flatMap (fileSpans i.selected)

/-- The installation as JSON. -/
def toJson (i : Installation) : Json :=
  .obj [("dependency", i.dependency.toJson), ("destination", .str i.destination.text),
    ("selected", .arr (i.selected.map .str)),
    ("files", .arr (i.files.map fun p => .str p.text)), ("dry_run", .bool i.dryRun)]

end SolVendor.Installation
