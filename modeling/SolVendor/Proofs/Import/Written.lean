import Mathlib.Data.List.Basic
import Mathlib.Data.List.TakeDrop
import SolVendor.Import.Source
import SolVendor.Proofs.Import.Grammar
import SolVendor.Proofs.Text.Encoding
/-!
# Import — statements that are written

The writing of import statements stands beside their reading. A statement
is written in a style (`Style.statement`): with bindings or without, with
either quote, with a semicolon or without, on a line that ends in either
way. Whatever the style, reading finds the request that was written
(`scan_statement`), even if a keyword stands in the bindings or in the
request; and the lines of a file give their requests in order
(`map_request_specifiers_written`).
-/

namespace SolVendor.Import

open Text

/-- A character of a list of bindings: of an identifier or the punctuation around it, a tab or a space. -/
def isBindingMark (c : Char) : Bool :=
  c.isAlphanum || c ∈ ['_', '*', '\x7b', '\x7d', ',', '\t', ' ']

/-- A mark of bindings is read as part of a clause. -/
theorem isBinding_of_isBindingMark {c : Char} (h : isBindingMark c = true) : isBinding c = true := by
  unfold isBindingMark at h
  unfold isBinding isSpace
  simp only [List.mem_cons, List.not_mem_nil, or_false, Bool.or_eq_true, decide_eq_true_eq] at h ⊢
  grind

theorem not_isBindingMark_lineFeed : isBindingMark '\n' = false := by decide

/-- How an import statement is written. -/
structure Style where
  /-- The bindings before the word `from`, unless the request follows the keyword. -/
  bindings : Option (List Char)
  /-- The quote on both sides of the request. -/
  quote : Char
  /-- Whether a semicolon follows. -/
  semicolon : Bool
  /-- Whether the request begins with a dot. -/
  dotted : Bool
  /-- Whether the line ends in a carriage return and a line feed. -/
  returns : Bool
  isQuote_quote : isQuote quote = true := by decide
  all_isBindingMark : (bindings.getD []).all isBindingMark = true := by decide

namespace Style

variable {s : Style} {request : List Char}

/-- What stands between the keyword and the quote. -/
def clause (s : Style) : List Char :=
  match s.bindings with
  | none => [' ']
  | some marks => ' ' :: marks ++ [' ', 'f', 'r', 'o', 'm', ' ']

/-- The statement for a request. -/
def statement (s : Style) (request : List Char) : List Char :=
  keyword ++ (s.clause ++ s.quote :: (request ++ s.quote :: if s.semicolon then [';'] else []))

/-- A request that can be written between any quotes, on one line. -/
structure IsQuotable (request : List Char) : Prop where
  double : '\x22' ∉ request
  single : '\x27' ∉ request
  lineFeed : '\n' ∉ request

instance (request : List Char) : Decidable (IsQuotable request) :=
  decidable_of_iff ('\x22' ∉ request ∧ '\x27' ∉ request ∧ '\n' ∉ request)
    ⟨fun h => ⟨h.1, h.2.1, h.2.2⟩, fun h => ⟨h.double, h.single, h.lineFeed⟩⟩

theorem IsQuotable.quote_notMem (h : IsQuotable request) (s : Style) : s.quote ∉ request := by
  have hq := s.isQuote_quote
  unfold isQuote at hq
  rw [Bool.or_eq_true, decide_eq_true_eq, decide_eq_true_eq] at hq
  rcases hq with hq | hq <;> rw [hq]
  · exact h.double
  · exact h.single

theorem isBindingMark_of_mem (s : Style) : ∀ marks ∈ s.bindings, ∀ c ∈ marks, isBindingMark c = true := by
  intro marks hb c hc
  have hall := s.all_isBindingMark
  rw [Option.mem_def.1 hb, Option.getD_some] at hall
  exact List.all_eq_true.1 hall c hc

/-- What stands between the keyword and the quote is a clause. -/
theorem isClauseText_clause (s : Style) : IsClauseText s.clause := by
  have hmarks := s.isBindingMark_of_mem
  unfold clause
  split
  · exact .blanks (List.cons_ne_nil _ _) (List.all_eq_true.1 (by decide))
  · rename_i marks hb
    exact .bindings (by decide) (fun c hc => isBinding_of_isBindingMark (hmarks marks hb c hc)) (by decide)
      (List.cons_ne_nil _ _) (List.all_eq_true.1 (by decide))

/-- **Reading finds the request that was written.** -/
theorem scan_statement (h : IsQuotable request) (s : Style) : scan (s.statement request) = some request := by
  have hstates : States (s.statement request) request :=
    ⟨s.clause, _, rfl, s.isClauseText_clause, s.quote, _, rfl, s.isQuote_quote, h.quote_notMem s,
      h.lineFeed⟩
  exact scan_eq_some_iff.2 ⟨0, hstates, fun j hj => absurd hj (Nat.not_lt_zero j)⟩

/-- A statement is a line. -/
theorem isLine_statement (h : IsQuotable request) (s : Style) : IsLine (s.statement request) := by
  have hquote : s.quote ≠ '\n' ∧ s.quote ≠ '\r' := by
    have hq := s.isQuote_quote
    unfold isQuote at hq
    rw [Bool.or_eq_true, decide_eq_true_eq, decide_eq_true_eq] at hq
    rcases hq with hq | hq <;> rw [hq] <;> decide
  have hclause : '\n' ∉ s.clause := by
    have hmarks := s.isBindingMark_of_mem
    unfold clause
    split
    · decide
    · rename_i marks hb
      have hfeed : '\n' ∉ marks := fun hmem => by
        have := hmarks marks hb _ hmem
        rw [not_isBindingMark_lineFeed] at this
        cases this
      simp [hfeed]
  have hkeyword : '\n' ∉ keyword := by decide
  unfold statement
  cases s.semicolon with
  | false =>
    refine ⟨?_, ?_⟩
    · simp [hclause, hkeyword, h.lineFeed, Ne.symm hquote.1]
    · simp [List.getLast?_cons, List.getLast?_append, hquote.2]
  | true =>
    refine ⟨?_, ?_⟩
    · simp [hclause, hkeyword, h.lineFeed, Ne.symm hquote.1]
    · simp [List.getLast?_cons, List.getLast?_append]

end Style

/-! ## Files of statements -/

/-- The text of a file with a statement for each request, one on a line. -/
def written (lines : List (Style × List Char)) : List Char :=
  lines.flatMap fun (s, request) => s.statement request ++ ending s.returns

/-- The requests of a file are those of its lines. -/
theorem map_request_specifiers (bytes : List UInt8) :
    (specifiers bytes).map Specifier.request = (Text.lines bytes).filterMap scanBytes := by
  unfold specifiers
  rw [List.map_filterMap]
  conv_rhs => rw [← List.zipIdx_map_fst 1 (Text.lines bytes), List.filterMap_map]
  refine List.filterMap_congr fun line _ => ?_
  rw [Option.map_map]
  exact Option.map_id'

/-- **The requests of a file are those that were written**, in their order. -/
theorem map_request_specifiers_written {lines : List (Style × List Char)}
    (h : ∀ line ∈ lines, Style.IsQuotable line.2) :
    (specifiers (Utf8.encode (written lines))).map Specifier.request =
      lines.map fun line => String.ofList line.2 := by
  have hlines : Text.lines (Utf8.encode (written lines)) =
      lines.map fun line => Utf8.encode (line.1.statement line.2) := by
    have hall := lines_encode
      (lines.map fun line => (line.1.statement line.2, line.1.returns)) (by
        intro t ht
        obtain ⟨line, hline, rfl⟩ := List.mem_map.1 ht
        exact line.1.isLine_statement (h line hline))
    rw [List.flatMap_map, List.map_map] at hall
    exact hall
  rw [map_request_specifiers, hlines, List.filterMap_map, ← List.filterMap_eq_map]
  refine List.filterMap_congr fun line hline => ?_
  rw [Function.comp_apply, scanBytes, Utf8.decode_encode, line.1.scan_statement (h line hline)]
  rfl

end SolVendor.Import
