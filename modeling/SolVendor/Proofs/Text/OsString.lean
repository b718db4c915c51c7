import SolVendor.Proofs.Text.Encoding
import SolVendor.Path.Basic
/-!
# Text — texts among the strings of the operating system

A text is a string by its encoding, and since decoding undoes that, it is
shown as itself (`display_ofString`): no two texts are one string
(`ofString_inj`). A string is shown as a text that it is not, unless it is
a text (`IsUnicode`, `isUnicode_iff`). What can be told from the characters of a
text below 128 can be told from its bytes.
-/

namespace SolVendor.OsString

variable {s : OsString} {text text' : String}

theorem bytes_ofString (text : String) : (ofString text).bytes = Text.Utf8.encode text.toList := by
  rw [← Text.Utf8.toList_toUTF8_ofList, String.ofList_toList]
  rfl

/-- **A text is shown as itself.** -/
@[simp] theorem display_ofString (text : String) : (ofString text).display = text := by
  rw [display, bytes_ofString, Text.Utf8.decode_encode, String.ofList_toList]

/-- **No two texts are one string.** -/
@[simp] theorem ofString_inj : ofString text = ofString text' ↔ text = text' := by
  refine ⟨fun h => ?_, fun h => h ▸ rfl⟩
  rw [← display_ofString text, h, display_ofString]

theorem isUnicode_ofString (text : String) : (ofString text).IsUnicode := by
  rw [IsUnicode, display_ofString]

theorem isUnicode_iff : s.IsUnicode ↔ ∃ text, ofString text = s :=
  ⟨fun h => ⟨_, h⟩, fun ⟨text, h⟩ => h ▸ isUnicode_ofString text⟩

@[simp] theorem bytes_append (s t : OsString) : (s ++ t).bytes = s.bytes ++ t.bytes := rfl

/-- What stands in a text stands in the bytes, one after the other. -/
theorem bytes_ofString_append (text text' : String) :
    (ofString (text ++ text')).bytes = (ofString text).bytes ++ (ofString text').bytes := by
  simp only [bytes_ofString, String.toList_append, Text.Utf8.encode_append]

/-- A text holds a slash if its bytes do. -/
theorem slash_mem_bytes_ofString : Path.slash ∈ (ofString text).bytes ↔ '/' ∈ text.toList := by
  rw [bytes_ofString]
  exact Text.Utf8.mem_encode_iff (c := '/') (by decide)

theorem at_mem_bytes_ofString : 0x40 ∈ (ofString text).bytes ↔ '@' ∈ text.toList := by
  rw [bytes_ofString]
  exact Text.Utf8.mem_encode_iff (c := '@') (by decide)

end SolVendor.OsString
