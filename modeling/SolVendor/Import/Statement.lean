/-!
# Import — statements in a text

An import statement is the word `import`, a clause, and a quoted request.
The clause is either blanks alone or a blank, any binding characters, a
blank, `from` and blanks; both forms end at the quote, which is no binding
character, so a statement has only one reading. `request?` reads the
statement that starts a text and `scan` finds the first one in it: the
statement with the least start, wherever it stands.
-/

namespace SolVendor.Import

/-- The blanks of a statement: tab, line feed, form feed, carriage return and space. -/
def isSpace (c : Char) : Bool :=
  c = '\t' || c = '\n' || c = '\x0c' || c = '\r' || c = ' '

/-- The characters of a clause: those of ASCII identifiers, the punctuation of bindings, and
blanks. -/
def isBinding (c : Char) : Bool :=
  c.isAlphanum || c = '_' || c = '*' || c = '\x7b' || c = '\x7d' || c = ',' || isSpace c

/-- A request stands between two double or two single quotes. -/
def isQuote (c : Char) : Bool :=
  c = '\x22' || c = '\x27'

/-- The word that a statement starts with. -/
def keyword : List Char := ['i', 'm', 'p', 'o', 'r', 't']

/-- Whether a text ends in a blank, `from` and blanks. -/
def endsInFrom (cs : List Char) : Bool :=
  match cs.reverse.span isSpace with
  | (_ :: _, 'm' :: 'o' :: 'r' :: 'f' :: c :: _) => isSpace c
  | _ => false

/-- What may stand between the keyword and the quote, given that it is made of binding
characters. -/
def isClause : List Char → Bool
  | [] => false
  | c :: cs => isSpace c && (cs.all isSpace || endsInFrom cs)

/-- The text between a quote at the start and the next such quote on the same line. -/
def quoted? : List Char → Option (List Char)
  | [] => none
  | q :: cs =>
    if isQuote q then
      match cs.span fun c => c ≠ q && c ≠ '\n' with
      | (body, c :: _) => if c = q then some body else none
      | (_, []) => none
    else none

/-- The request of the statement that starts the text. -/
def request? (cs : List Char) : Option (List Char) := do
  let rest ← keyword.isPrefixOf? cs
  let body ← quoted? (rest.dropWhile isBinding)
  if isClause (rest.takeWhile isBinding) then some body else none

/-- The request of the first statement in the text. -/
def scan : List Char → Option (List Char)
  | [] => none
  | c :: cs =>
    match request? (c :: cs) with
    | some body => some body
    | none => scan cs

/-- The request of the first import on a line. -/
def scanLine (line : String) : Option String :=
  (scan line.toList).map String.ofList

end SolVendor.Import
