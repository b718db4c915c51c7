import SolVendor.Import.Statement
import SolVendor.Text.Pattern
/-!
# Import — the pattern of a statement

The statement as a pattern: the keyword, blanks, an optional list of
bindings with `from`, a request between double or single quotes, and blanks
with a semicolon or the end of the text. A pattern has to say which of
several ways it prefers; `Preference` holds all that can be said, and
`standard` what is said.
-/

namespace SolVendor.Import

open Text

/-- How the request between two quotes is kept from running past the closing one. -/
inductive Inside
  /-- As few characters as there can be, whichever they are. -/
  | fewest
  /-- Characters that are no such quote, as many or as few as there can be. -/
  | unquoted (greedy : Bool)
deriving DecidableEq, Repr

/-- What a pattern prefers where a statement leaves a choice. -/
structure Preference where
  /-- Many blanks after the keyword. -/
  blanks : Bool
  /-- A list of bindings to none. -/
  clause : Bool
  /-- Many characters in the list of bindings. -/
  bindings : Bool
  /-- Many blanks before `from`. -/
  beforeFrom : Bool
  /-- Many blanks after `from`. -/
  afterFrom : Bool
  /-- Double quotes to single ones. -/
  double : Bool
  /-- How the request ends. -/
  inside : Inside
  /-- Many blanks after the request. -/
  trailing : Bool
  /-- A terminator to none. -/
  terminator : Bool
  /-- A semicolon to the end of the text. -/
  semicolon : Bool
  /-- What the first group has kept to what the second has. -/
  firstGroup : Bool
deriving DecidableEq, Repr

namespace Preference

/-- What the pattern of a statement prefers. -/
def standard : Preference where
  blanks := false
  clause := true
  bindings := true
  beforeFrom := true
  afterFrom := false
  double := true
  inside := .fewest
  trailing := false
  terminator := true
  semicolon := true
  firstGroup := true

variable (prefer : Preference)

/-- Bindings, and the word before the request. -/
def bindingsPattern : Pattern :=
  .seq (.many prefer.bindings isBinding)
    (.seq (.repeated prefer.beforeFrom isSpace)
      (.seq (.word ['f', 'r', 'o', 'm']) (.repeated prefer.afterFrom isSpace)))

/-- What stands before the quote. -/
def openingPattern : Pattern :=
  .seq (.word keyword)
    (.seq (.repeated prefer.blanks isSpace) (.optional prefer.clause prefer.bindingsPattern))

/-- The characters of a request, up to the given quote. -/
def insidePattern (quote : Char) : Pattern :=
  match prefer.inside with
  | .fewest => .many false fun c => c ≠ '\n'
  | .unquoted greedy => .many greedy fun c => c ≠ quote && c ≠ '\n'

/-- A request between two quotes, kept in a group. -/
def quotedPattern (quote : Char) (number : Nat) : Pattern :=
  .seq (.char fun c => c = quote)
    (.seq (.group number (prefer.insidePattern quote)) (.char fun c => c = quote))

/-- What may stand after the closing quote. -/
def closingPattern : Pattern :=
  .seq (.many prefer.trailing isSpace)
    (.optional prefer.terminator (.alternatives prefer.semicolon (.char fun c => c = ';') .ends))

/-- The whole statement. -/
def pattern : Pattern :=
  .seq prefer.openingPattern
    (.seq (.alternatives prefer.double (prefer.quotedPattern '\x22' 1) (prefer.quotedPattern '\x27' 2))
      prefer.closingPattern)

/-- The first text, or the other one if it is empty. -/
def orOther (text other : List Char) : List Char :=
  if text.isEmpty then other else text

/-- The request that a way has kept: what one group holds, or if that is empty, what the other one does. -/
def requestOf (w : Way) : List Char :=
  if prefer.firstGroup then orOther (w.group 1) (w.group 2) else orOther (w.group 2) (w.group 1)

/-- The request of the first statement on a line, as the pattern finds it. -/
def searchLine (line : String) : Option String :=
  (prefer.pattern.search line.toList).map fun w => String.ofList (prefer.requestOf w)

end Preference

end SolVendor.Import
