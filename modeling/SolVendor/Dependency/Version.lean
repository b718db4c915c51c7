import SolVendor.Text.Decimal
/-!
# Dependency — versions

A version is a tag such as `v1.20.3-rc.1+build.5`: three numbers, then
the identifiers of a pre-release, then those of a build, the last two
optional. A number has no leading zero. `ofChars?` reads a version,
`chars` writes it, and `Valid` says which fields a version can have.
Digits are decimal digits of any script, except where a number starts.
-/

namespace SolVendor

/-- A version by its parts. An empty list of identifiers is one that is not written. -/
structure Version where
  /-- Whether a `v` is written in front. -/
  marked : Bool
  major : List Char
  minor : List Char
  patch : List Char
  preRelease : List (List Char)
  build : List (List Char)
deriving DecidableEq, Repr

namespace Version

open Text (isDecimalDigit)

/-- A zero alone, or decimal digits of which the first is one of `1` to `9`. -/
def isNumber : List Char → Bool
  | ['0'] => true
  | c :: cs => '1' ≤ c && c ≤ '9' && cs.all isDecimalDigit
  | [] => false

/-- An ASCII letter or a hyphen. -/
def isWordStart (c : Char) : Bool :=
  c.isAlpha || c = '-'

/-- An ASCII letter or digit, or a hyphen. -/
def isWordChar (c : Char) : Bool :=
  c.isAlphanum || c = '-'

/-- A number, or decimal digits followed by a word that starts with no digit. -/
def isPreReleaseIdentifier (s : List Char) : Bool :=
  isNumber s ||
    match s.dropWhile isDecimalDigit with
    | c :: cs => isWordStart c && cs.all isWordChar
    | [] => false

/-- A word that is not empty. -/
def isBuildIdentifier (s : List Char) : Bool :=
  s ≠ [] && s.all isWordChar

/-- The fields that a version can have. -/
def Valid (v : Version) : Prop :=
  isNumber v.major ∧ isNumber v.minor ∧ isNumber v.patch ∧
    (∀ s ∈ v.preRelease, isPreReleaseIdentifier s) ∧ ∀ s ∈ v.build, isBuildIdentifier s

/-- Identifiers written after the character that announces them, with dots between. -/
def identifierChars (sign : Char) : List (List Char) → List Char
  | [] => []
  | ids => sign :: ['.'].intercalate ids

/-- The version written down. -/
def chars (v : Version) : List Char :=
  (if v.marked then ['v'] else [])
    ++ ['.'].intercalate [v.major, v.minor, v.patch]
    ++ identifierChars '-' v.preRelease
    ++ identifierChars '+' v.build

/-- Split off the text of the identifiers that `sign` announces; they end where `stop` holds. -/
def splitIdentifiers (sign : Char) (stop : Char → Bool) :
    List Char → List (List Char) × List Char
  | [] => ([], [])
  | c :: cs =>
    if c = sign then
      let (ids, rest) := cs.span fun d => !stop d
      (ids.splitOn '.', rest)
    else ([], c :: cs)

/-- Read a version. -/
def ofChars? (cs : List Char) : Option Version :=
  let (marked, cs) : Bool × List Char :=
    match cs with
    | 'v' :: rest => (true, rest)
    | _ => (false, cs)
  let (numbers, rest) := cs.span fun c => c ≠ '-' && c ≠ '+'
  let (preRelease, rest) := splitIdentifiers '-' (· = '+') rest
  let (build, rest) := splitIdentifiers '+' (fun _ => false) rest
  match numbers.splitOn '.' with
  | [major, minor, patch] =>
    if isNumber major && isNumber minor && isNumber patch
        && preRelease.all isPreReleaseIdentifier && build.all isBuildIdentifier && rest = [] then
      some ⟨marked, major, minor, patch, preRelease, build⟩
    else none
  | _ => none

end Version

end SolVendor
