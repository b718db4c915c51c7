import SolVendor.Dependency.Basic
import SolVendor.Text.Pattern
/-!
# Dependency — the pattern of a dependency

The text of a dependency as a pattern that has to take the whole of it, and
keeps the name in its first group and the version in its second one. A list
of identifiers may be of any length; `bound` says how many there may be
after the first. A text has no room for more of them than it has
characters.
-/

namespace SolVendor.Dependency

open Text Version

/-- A character of an owner or a repository. -/
def isNameChar (c : Char) : Bool :=
  !isBlank c && c ≠ '@' && c ≠ '/'

/-- Owner and repository. -/
def namePattern : Pattern :=
  .seq (.repeated true isNameChar) (.seq (.word ['/']) (.repeated true isNameChar))

/-- A number, without a zero in front of it. -/
def numberPattern : Pattern :=
  .either (.word ['0'])
    (.seq (.char fun c => '1' ≤ c && c ≤ '9') (.many true isDecimalDigit))

/-- An identifier of a pre-release. -/
def preReleasePattern : Pattern :=
  .either numberPattern
    (.seq (.many true isDecimalDigit) (.seq (.char isWordStart) (.many true isWordChar)))

/-- An identifier of a build. -/
def buildPattern : Pattern :=
  .repeated true isWordChar

/-- Identifiers with dots between, after the character that announces them. -/
def identifiersPattern (bound : Nat) (sign : Char) (identifier : Pattern) : Pattern :=
  .optional true
    (.seq (.word [sign]) (.seq identifier (.upTo (.seq (.word ['.']) identifier) bound)))

/-- The three numbers of a version. -/
def numbersPattern : Pattern :=
  .seq numberPattern (.seq (.word ['.']) (.seq numberPattern (.seq (.word ['.']) numberPattern)))

/-- A version. -/
def versionPattern (bound : Nat) : Pattern :=
  .seq (.optional true (.word ['v']))
    (.seq numbersPattern
      (.seq (identifiersPattern bound '-' preReleasePattern) (identifiersPattern bound '+' buildPattern)))

/-- The whole text. -/
def pattern (bound : Nat) : Pattern :=
  .seq (.group 1 namePattern)
    (.seq (.word ['@']) (.seq (.group 2 (versionPattern bound)) .ends))

/-- What the pattern keeps as name and version, if it can take the text. -/
def groups? (bound : Nat) (text : String) : Option (String × String) :=
  ((pattern bound).ways text.toList).head?.map fun w =>
    (String.ofList (w.group 1), String.ofList (w.group 2))

end SolVendor.Dependency
