import SolVendor.Graph.Build
import SolVendor.Proofs.Import.Grammar
import SolVendor.Proofs.Text.Replacement
/-!
# Import — the lines of a file

A file is cut at its line feeds, and each line is decoded by itself. The
specifiers are the same as if the file were decoded first and the text cut
(`specifiers_decode`): decoding can be cut at a line feed, whatever bytes
stand before it; a carriage return at the end of a line changes nothing,
since a statement ends in a quote (`scan_concat`); and an empty line states
nothing.
-/

namespace SolVendor

namespace Import

open Text

variable {α β : Type} {text request : List Char} {c : Char} {bs line : List UInt8}

/-! ## One character more -/

/-- **A statement ends in a quote**, so no other character at the end of a text makes one. -/
theorem states_concat_iff (hc : isQuote c = false) :
    States (text ++ [c]) request ↔ States text request := by
  constructor
  · rintro ⟨t, rest, htext, ht, q, after, rfl, hq, hnot, hfeed⟩
    rcases List.eq_nil_or_concat after with rfl | ⟨before, d, rfl⟩
    · have hlast : text ++ [c] = (keyword ++ (t ++ q :: request)) ++ [q] := by
        rw [htext]
        simp
      obtain rfl := List.singleton_injective (List.append_inj_right' hlast rfl)
      rw [hc] at hq
      cases hq
    · have hlast : text ++ [c] = (keyword ++ (t ++ q :: (request ++ q :: before))) ++ [d] := by
        rw [htext]
        simp
      exact ⟨t, _, List.append_inj_left' hlast rfl, ht, q, before, rfl, hq, hnot, hfeed⟩
  · rintro ⟨t, rest, rfl, ht, q, after, rfl, hq, hnot, hfeed⟩
    exact ⟨t, q :: (request ++ q :: (after ++ [c])), by simp, ht, q, after ++ [c], rfl, hq, hnot, hfeed⟩

/-- The same from any start. -/
theorem states_drop_concat_iff (hc : isQuote c = false) (i : Nat) :
    States ((text ++ [c]).drop i) request ↔ States (text.drop i) request := by
  by_cases hi : i ≤ text.length
  · rw [List.drop_append_of_le_length hi]
    exact states_concat_iff hc
  · rw [List.drop_eq_nil_of_le (by rw [List.length_append, List.length_singleton]; omega),
      List.drop_eq_nil_of_le (by omega)]

/-- **Scanning finds the same with one more character** that is no quote. -/
theorem scan_concat (hc : isQuote c = false) (text : List Char) : scan (text ++ [c]) = scan text := by
  refine Option.ext fun request => ?_
  rw [scan_eq_some_iff, scan_eq_some_iff]
  simp only [states_drop_concat_iff hc]

/-! ## Lines with numbers -/

/-- The requests of some lines, each with the number of its line. -/
def numbered (scan : α → Option String) (lines : List α) : List Specifier :=
  (lines.zipIdx 1).filterMap fun (line, number) =>
    (scan line).map fun request => ⟨request, number⟩

/-- It does not matter what the lines are, but what is found on them. -/
theorem numbered_eq_map (scan : α → Option String) (lines : List α) :
    numbered scan lines = numbered id (lines.map scan) := by
  unfold numbered
  rw [List.zipIdx_map, List.filterMap_map]
  rfl

theorem numbered_congr {scan : α → Option String} {scan' : β → Option String} {lines : List α}
    {lines' : List β} (h : lines.map scan = lines'.map scan') :
    numbered scan lines = numbered scan' lines' := by
  rw [numbered_eq_map, h, ← numbered_eq_map]

/-- A last line with nothing on it makes no difference. -/
theorem numbered_concat {scan : α → Option String} {last : α} (h : scan last = none) (lines : List α) :
    numbered scan (lines ++ [last]) = numbered scan lines := by
  unfold numbered
  rw [List.zipIdx_append, List.filterMap_append]
  simp [h]

/-! ## Lines of bytes -/

/-- Cutting at line feeds, but that nothing behind the last one is no line. -/
theorem splitOn_lineFeed_cases (bs : List UInt8) :
    bs.splitOn lineFeed = cutLines bs ∨ bs.splitOn lineFeed = cutLines bs ++ [[]] := by
  induction bs with
  | nil => exact .inr rfl
  | cons b bs ih =>
    rw [List.splitOn_cons_eq_if_modifyHead, cutLines]
    by_cases hb : b = lineFeed
    · rw [if_pos (beq_iff_eq.2 hb), if_pos hb]
      exact ih.imp (congrArg _) (congrArg _)
    · rw [if_neg (mt beq_iff_eq.1 hb), if_neg hb]
      rcases ih with ih | ih
      · -- There is always a first piece.
        obtain ⟨first, more, hcut⟩ := List.exists_cons_of_ne_nil (ih ▸ List.splitOn_ne_nil lineFeed bs)
        rw [ih, hcut]
        exact .inl rfl
      · cases hcut : cutLines bs with
        | nil =>
          rw [ih, hcut]
          exact .inl rfl
        | cons first more =>
          rw [ih, hcut]
          exact .inr rfl

theorem decode_concat_return (line : List UInt8) :
    Utf8.decode (line ++ [carriageReturn]) = Utf8.decode line ++ ['\r'] :=
  Utf8.decode_append_cons line [] (by decide)

/-- A carriage return at the end of a line hides nothing, and nothing is found for it. -/
theorem scanBytes_concat_return (line : List UInt8) :
    scanBytes (line ++ [carriageReturn]) = scanBytes line := by
  unfold scanBytes
  rw [decode_concat_return, scan_concat (by decide)]

theorem scanBytes_dropReturn (line : List UInt8) : scanBytes (dropReturn line) = scanBytes line := by
  unfold dropReturn
  split
  · rename_i hlast
    obtain ⟨front, rfl⟩ := List.getLast?_eq_some_iff.1 hlast
    rw [List.dropLast_concat, scanBytes_concat_return]
  · rfl

theorem scanBytes_nil : scanBytes [] = none := rfl

/-- **The specifiers of a file are those of the pieces between its line feeds.** -/
theorem specifiers_eq_numbered (bytes : List UInt8) :
    specifiers bytes = numbered scanBytes (bytes.splitOn lineFeed) := by
  have hcut : specifiers bytes = numbered scanBytes (cutLines bytes) := by
    show numbered scanBytes (Text.lines bytes) = _
    refine numbered_congr ?_
    unfold Text.lines
    rw [List.map_map]
    exact List.map_congr_left fun line _ => scanBytes_dropReturn line
  rw [hcut]
  rcases splitOn_lineFeed_cases bytes with hsplit | hsplit
  · rw [hsplit]
  · rw [hsplit, numbered_concat scanBytes_nil]

/-! ## Lines of text -/

/-- The request of the first statement on a line of text. -/
def scanText (line : List Char) : Option String :=
  scanLine (String.ofList line)

/-- A line of text without a carriage return at its end. -/
def trimReturn (line : List Char) : List Char :=
  if line.getLast? = some '\r' then line.dropLast else line

theorem scanText_eq (line : List Char) : scanText line = (scan line).map String.ofList := by
  unfold scanText scanLine
  rw [String.toList_ofList]

theorem scanText_trimReturn (line : List Char) : scanText (trimReturn line) = scanText line := by
  unfold trimReturn
  split
  · rename_i hlast
    obtain ⟨front, rfl⟩ := List.getLast?_eq_some_iff.1 hlast
    rw [List.dropLast_concat, scanText_eq, scanText_eq, scan_concat (by decide)]
  · rfl

/-- **Cutting and decoding can be exchanged.** Bytes are read as one text only, with one replacement character
for each longest piece that is no character, and the specifiers of the bytes are those of the lines of that
text, with the same numbers, whether or not the lines lose a carriage return. They are found as soon as the
bytes have been read. -/
theorem specifiers_decode (bytes : List UInt8) :
    (∀ text, Utf8.Decodes bytes text ↔ text = Utf8.decode bytes) ∧
      specifiers bytes = numbered scanText ((Utf8.decode bytes).splitOn '\n') ∧
      specifiers bytes = numbered scanText (((Utf8.decode bytes).splitOn '\n').map trimReturn) ∧
      ∀ file, Reader.specifiers ⟨bytes, none⟩ file =
        .ok (numbered scanText ((Utf8.decode bytes).splitOn '\n')) := by
  have hlines : specifiers bytes = numbered scanText ((Utf8.decode bytes).splitOn '\n') := by
    rw [specifiers_eq_numbered, Utf8.splitOn_decode]
    refine numbered_congr ?_
    rw [List.map_map]
    exact List.map_congr_left fun line _ => (scanText_eq _).symm
  refine ⟨fun text => Utf8.decodes_iff, hlines, ?_, fun file => congrArg Except.ok hlines⟩
  rw [hlines]
  refine numbered_congr ?_
  rw [List.map_map]
  exact List.map_congr_left fun line _ => (scanText_trimReturn line).symm

-- A character that the end of its line cuts off, and a statement on the next line.
example : specifiers ([0xE2, 0x82, lineFeed] ++ Utf8.encode "import 'é'\r\n".toList) = [⟨"é", 2⟩] := by
  decide +kernel

end Import

end SolVendor
