import Std.Data.ExtTreeMap
import SolVendor.Text.Utf8
/-!
# Text — strings of the operating system

The operating system takes and gives strings of bytes, whatever they
stand for. Names in directories, paths and the texts of links are such
strings. A text is one of them by its UTF-8 encoding, but there are others:
they are shown as texts all the same, with replacements for what is not
UTF-8, so that different strings may be shown alike.
-/

namespace SolVendor

/-- A string of the operating system. -/
@[ext] structure OsString where
  bytes : List UInt8
deriving DecidableEq, Repr, Inhabited

namespace OsString

/-- The order of strings is that of their bytes. -/
instance : Ord OsString := ⟨compareOn bytes⟩

instance : Std.TransOrd OsString := inferInstanceAs (Std.TransCmp (compareOn bytes))

/-- Only equal strings are in the same place of the order. -/
instance : Std.LawfulEqOrd OsString where
  eq_of_compare {s t} h := by
    have h : compare s.bytes t.bytes = .eq := h
    cases s
    cases t
    simpa using h

/-- A text as a string. -/
def ofString (text : String) : OsString :=
  ⟨text.toUTF8.data.toList⟩

instance : Coe String OsString := ⟨ofString⟩

instance : Coe (List String) (List OsString) := ⟨List.map ofString⟩

/-- One string after the other. -/
instance : Append OsString := ⟨fun s t => ⟨s.bytes ++ t.bytes⟩⟩

/-- The text that a string is shown as. -/
def display (s : OsString) : String :=
  String.ofList (Text.Utf8.decode s.bytes)

/-- Strings are shown one by one. -/
instance : CoeOut (List OsString) (List String) := ⟨List.map display⟩

/-- The string is Unicode text: it is what it is shown as. -/
def IsUnicode (s : OsString) : Prop :=
  ofString s.display = s

instance (s : OsString) : Decidable s.IsUnicode :=
  inferInstanceAs (Decidable (_ = _))

end OsString

end SolVendor
