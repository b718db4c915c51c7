import SolVendor.Import.Statement
import SolVendor.Text.Line
import SolVendor.Text.Utf8
/-!
# Import — the statements of a source file

A file is read as lines of bytes; each line is decoded by itself, so bytes
that are not UTF-8 spoil no other line, and gives at most one specifier:
the first statement on it.
-/

namespace SolVendor.Import

/-- A request, and the line it stands on, counted from one. -/
structure Specifier where
  request : String
  line : Nat
deriving DecidableEq, Repr

/-- The request of the first statement on a line of bytes. -/
def scanBytes (line : List UInt8) : Option String :=
  (scan (Text.Utf8.decode line)).map String.ofList

/-- The specifiers of a file, in the order of its lines. -/
def specifiers (bytes : List UInt8) : List Specifier :=
  ((Text.lines bytes).zipIdx 1).filterMap fun (line, number) =>
    (scanBytes line).map fun request => ⟨request, number⟩

end SolVendor.Import
