import SolVendor.Text.OsString
/-!
# Path — strings that name places

A path is a string of the operating system, and it is shown as that string
is. Several readings of its bytes are used. Its `pieces` are what stands
between the slashes. Its `steps` are the pieces, in the order in which a
file system walks over them; a slash at the end is a last step that stays
in place. Its `components` are the steps without those that stay in place,
except one at the very start: they are what a path consists of when paths
are compared, extended and shortened.

`ofComponents` writes components down again. `join`, `parent?`,
`fileName?` and `withFileName` work on components and keep the bytes of
what they do not touch.
-/

namespace SolVendor

/-- A path, as a string of the operating system. -/
structure Path where
  ofOs ::
  os : OsString
deriving DecidableEq, Repr, Inhabited

namespace Path

/-- The path that is written as a text. -/
abbrev mk (text : String) : Path := ⟨text⟩

/-- The text that a path is shown as. -/
def text (p : Path) : String := p.os.display

/-- The path is Unicode text: it is what it is shown as. -/
abbrev IsUnicode (p : Path) : Prop := p.os.IsUnicode

/-- Paths are ordered by their bytes. -/
instance : Ord Path := ⟨compareOn os⟩

instance : Std.TransOrd Path := inferInstanceAs (Std.TransCmp (compareOn os))

/-- Only equal paths are in the same place of the order. -/
instance : Std.LawfulEqOrd Path where
  eq_of_compare {p q} h := by
    have h : compare p.os q.os = .eq := h
    cases p
    cases q
    simpa using h

/-- The byte that stands between the pieces of a path. -/
abbrev slash : UInt8 := 0x2F

/-- The byte that the pieces that are no names are made of. -/
abbrev dot : UInt8 := 0x2E

end Path

/-- One piece of a path: the root, a dot, two dots, or a name. -/
inductive Component where
  | root
  | here
  | up
  | name (name : OsString)
deriving DecidableEq, Repr

namespace Component

open SolVendor.Path

/-- The component written down; the root is written by the slash that follows it. -/
def bytes : Component → List UInt8
  | root => []
  | here => [dot]
  | up => [dot, dot]
  | name s => s.bytes

/-- Read what stands between two slashes. -/
def ofPiece (piece : List UInt8) : Component :=
  if piece = [dot] then here
  else if piece = [dot, dot] then up
  else name ⟨piece⟩

end Component

namespace Path

/-- The path of no bytes, which names no place. -/
def empty : Path := ⟨⟨[]⟩⟩

/-- An absolute path begins with a slash. -/
def isAbsolute (p : Path) : Bool :=
  p.os.bytes.head? = some slash

/-- The path ends with a slash. -/
def endsInSlash (p : Path) : Bool :=
  p.os.bytes.getLast? = some slash

/-- What stands between the slashes, after the root if the path is absolute. -/
def pieces (p : Path) : List Component :=
  (if p.isAbsolute then [.root] else [])
    ++ ((p.os.bytes.splitOn slash).filter (· ≠ [])).map Component.ofPiece

/-- The way to what the path names. What is named with a slash behind it has to be a directory. -/
def steps (p : Path) : List Component :=
  if p.endsInSlash then p.pieces ++ [.here] else p.pieces

/-- The way to the file that is written at the path. No file is called by a name with a slash behind
it: the way ends in the directory above, which cannot be written. -/
def writeSteps (p : Path) : List Component :=
  if p.endsInSlash then p.pieces.dropLast ++ [.here] else p.pieces

/-- The steps that lead somewhere, and a dot at the very start. -/
def components (p : Path) : List Component :=
  match p.steps with
  | .here :: cs => .here :: cs.filter (· ≠ .here)
  | cs => cs.filter (· ≠ .here)

/-- Write components down, with one slash between two of them. -/
def ofComponents (cs : List Component) : Path :=
  let body := [slash].intercalate (cs.map Component.bytes)
  ⟨⟨if cs = [.root] then [slash] else body⟩⟩

/-- The relative path that goes down through the given names. -/
def ofNames (names : List OsString) : Path :=
  ofComponents (names.map .name)

/-- The path `q`, taken from `p` unless it is absolute. -/
def join (p q : Path) : Path :=
  if q.isAbsolute then q
  else if p = .empty || p.endsInSlash then ⟨⟨p.os.bytes ++ q.os.bytes⟩⟩
  else ⟨⟨p.os.bytes ++ slash :: q.os.bytes⟩⟩

/-- Split off the slash or the dot that a path begins with. A dot counts when nothing or a slash
follows it. -/
def splitLead : List UInt8 → List UInt8 × List UInt8
  | 0x2F :: bs => ([slash], bs)
  | [0x2E] => ([dot], [])
  | 0x2E :: 0x2F :: bs => ([dot], slash :: bs)
  | bs => ([], bs)

/-- A piece that is no component unless it comes first. -/
def isSilent (piece : List UInt8) : Bool :=
  piece = [] || piece = [dot]

/-- The path without its last component, and without the slashes and dots before that one; the root
and the path with no component have no parent. -/
def parent? (p : Path) : Option Path :=
  let (lead, body) := splitLead p.os.bytes
  match (body.splitOn slash).reverse.dropWhile isSilent with
  | [] => if lead = [dot] then some empty else none
  | _ :: above =>
    let kept := (above.dropWhile isSilent).reverse
    some ⟨⟨lead ++ [slash].intercalate kept⟩⟩

/-- The last component, if it is a name. -/
def fileName? (p : Path) : Option OsString :=
  match p.components.getLast? with
  | some (.name s) => some s
  | _ => none

/-- The path with its last name replaced, or extended if it does not end in a name. -/
def withFileName (p : Path) (name : OsString) : Path :=
  let base := if p.fileName?.isSome then p.parent?.getD p else p
  base.join ⟨name⟩

/-- The path and all paths above it, nearest first. -/
def ancestors (p : Path) : List Path :=
  go (p.steps.length + 1) p
where
  /-- At most `fuel` paths above `p`; there are no more of them than steps. -/
  go : Nat → Path → List Path
    | 0, p => [p]
    | fuel + 1, p =>
      match p.parent? with
      | none => [p]
      | some q => p :: go fuel q

end Path

end SolVendor
