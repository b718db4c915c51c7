import SolVendor.Proofs.Path.NormalForm
/-!
# Path — paths that are texts

A path that is a text is written as it is shown (`mk_text`), and what it
begins with is told from its characters (`isAbsolute_mk`). Components that
are texts are written down as a text (`isUnicode_ofComponents`).
-/

namespace SolVendor

namespace Text.Utf8

/-- Texts with slashes between them are written with slashes between them. -/
theorem encode_intercalate (texts : List (List Char)) :
    encode (['/'].intercalate texts) = [Path.slash].intercalate (texts.map encode) := by
  have hslash : encode ['/'] = [Path.slash] := by decide
  induction texts with
  | nil => rfl
  | cons cs texts ih =>
    cases texts with
    | nil => simp
    | cons ds texts =>
      rw [List.intercalate_cons_cons, encode_append, encode_append, hslash, ih]
      exact (List.intercalate_cons_cons ..).symm

end Text.Utf8

namespace OsString

/-- Texts are the strings that an encoding has. -/
theorem isUnicode_iff_encode {s : OsString} :
    s.IsUnicode ↔ ∃ cs, Text.Utf8.encode cs = s.bytes := by
  rw [isUnicode_iff]
  constructor
  · rintro ⟨text, rfl⟩
    exact ⟨text.toList, (bytes_ofString text).symm⟩
  · rintro ⟨cs, h⟩
    refine ⟨String.ofList cs, OsString.ext ?_⟩
    rw [bytes_ofString, String.toList_ofList, h]

end OsString

namespace Path

variable {p : Path} {text : String} {cs : List Component}

/-- **A path that is a text is written as it is shown.** -/
theorem mk_text (h : p.IsUnicode) : (⟨p.text⟩ : Path) = p :=
  congrArg ofOs h

theorem isUnicode_mk (text : String) : (⟨text⟩ : Path).IsUnicode :=
  OsString.isUnicode_ofString text

@[simp] theorem text_mk (text : String) : (⟨text⟩ : Path).text = text :=
  OsString.display_ofString text

/-- Different paths that are texts are shown as different texts. -/
theorem eq_of_text_eq {q : Path} (hp : p.IsUnicode) (hq : q.IsUnicode) (h : p.text = q.text) :
    p = q := by
  rw [← mk_text hp, h, mk_text hq]

theorem isAbsolute_mk : (⟨text⟩ : Path).isAbsolute = true ↔ text.toList.head? = some '/' := by
  unfold isAbsolute
  rw [decide_eq_true_eq, OsString.bytes_ofString]
  exact Text.Utf8.head?_encode_iff (c := '/') (by decide)

/-- **Components that are texts are written down as a text.** -/
theorem isUnicode_ofComponents (h : ∀ c ∈ cs, (OsString.mk c.bytes).IsUnicode) :
    (ofComponents cs).IsUnicode := by
  rw [IsUnicode, OsString.isUnicode_iff_encode]
  unfold ofComponents
  split
  · exact ⟨['/'], by decide⟩
  · refine ⟨['/'].intercalate (cs.map fun c => (OsString.mk c.bytes).display.toList), ?_⟩
    rw [Text.Utf8.encode_intercalate, List.map_map]
    congr 1
    refine List.map_congr_left fun c hc => ?_
    have hbytes := congrArg OsString.bytes (h c hc)
    rwa [OsString.bytes_ofString] at hbytes

end Path

end SolVendor
