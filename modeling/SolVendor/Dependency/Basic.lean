import SolVendor.Dependency.Version
import SolVendor.Path.Basic
import SolVendor.Text.Blank
/-!
# Dependency — a repository at a version

A dependency is written `owner/repo@version`. Owner and repository are any
texts without blanks, slashes and `@`; the version is read by
`Version.ofChars?`. The written form is the key under which a tree is
cached and vendored.
-/

namespace SolVendor

/-- A repository pinned to a tag. -/
structure Dependency where
  /-- The repository, as `owner/repo`. -/
  name : String
  /-- The tag, as written. -/
  version : String
  /-- The whole text, `owner/repo@version`. -/
  path : String
deriving DecidableEq, Repr, Inhabited

namespace Dependency

/-- An owner or a repository: not empty, without blanks and `@`. -/
def isNamePart (s : List Char) : Bool :=
  s ≠ [] && s.all fun c => !Text.isBlank c && c ≠ '@'

/-- An owner and a repository with one slash between them. -/
def isName (s : List Char) : Bool :=
  match s.splitOn '/' with
  | [owner, repo] => isNamePart owner && isNamePart repo
  | _ => false

/-- Read `owner/repo@version`. -/
def ofString? (text : String) : Option Dependency :=
  match text.toList.span (· ≠ '@') with
  | (name, _ :: version) =>
    if isName name && (Version.ofChars? version).isSome then
      some ⟨String.ofList name, String.ofList version, text⟩
    else none
  | (_, []) => none

/-- The dependency written down. -/
def toString (d : Dependency) : String :=
  d.name ++ "@" ++ d.version

instance : ToString Dependency := ⟨toString⟩

/-- Where the tree lies below a directory of trees. -/
def cacheKey (d : Dependency) : Path :=
  ⟨d.path⟩

/-- The address that the repository is cloned from. -/
def cloneUrl (d : Dependency) : String :=
  "https://github.com/" ++ d.name ++ ".git"

end Dependency

end SolVendor
