import SolVendor.FileSystem.Position
/-!
# FileSystem — from a path to a place

A path is walked step by step, from the root if it is absolute and from
the working directory otherwise. A link on the way is replaced by the
steps of its path; at most `maxLinks` links are followed in one walk. The
walk ends at a position where something is found, or at a vacant name in a
directory that stands, which is where something new can be made. Names in a
removed directory lead nowhere.

Every step but the first to the root is taken from a directory. A walk has
a purpose, on which it depends how a path is read as steps, and a link at
the end of the path is read as the path is.
-/

namespace SolVendor.FileSystem

/-- Where a walk ends. -/
inductive Place where
  /-- Something is found here. -/
  | found (pos : Position)
  /-- Nothing is called `name` in the directory at `dir`. -/
  | vacant (dir : Location) (name : OsString)
deriving DecidableEq, Repr

/-- What a walk is for. -/
inductive Purpose where
  /-- To find what is there. -/
  | find
  /-- To find the file to write. -/
  | write
  /-- To find the canonical path. Every place is looked up by its own canonical path. -/
  | name
deriving DecidableEq, Repr

/-- The number of links that one walk may follow. -/
def maxLinks : Nat := 40

/-- The number of bytes that a name may have. -/
def maxName : Nat := 255

/-- The number of bytes that a path may have. -/
def maxPath : Nat := 4095

/-- Whether a name is longer than names may be. -/
def isTooLong (name : OsString) : Bool :=
  maxName < name.bytes.length

/-- Refuse a path that names nothing: it is empty or holds a NUL. -/
def checkText (p : Path) : Except FileError Unit :=
  if p.os.bytes.contains 0 then .error .nulInPath
  else if p = .empty then .error .notFound
  else .ok ()

/-- Refuse a path that no walk is started for: it names nothing, or is too long. -/
def checkPath (p : Path) : Except FileError Unit := do
  checkText p
  if maxPath < p.os.bytes.length then throw .nameTooLong

/-- The steps that a path is read as. -/
def Purpose.steps : Purpose → Path → List Component
  | .write, p => p.writeSteps
  | .find, p | .name, p => p.steps

/-- The place cannot be looked up, since its path is too long. -/
def Purpose.isBeyond (purpose : Purpose) (loc : Location) : Bool :=
  purpose = .name && maxPath < loc.toPath.os.bytes.length

/-- Walk on from `cur`, and leave the rest of the walk to `jump` at the first link. -/
def descend (fs : FileSystem) (purpose : Purpose)
    (jump : Position → List Component → Except FileError Place) :
    Position → List Component → Except FileError Place
  | cur, [] => .ok (.found cur)
  | _, .root :: cs => fs.descend purpose jump (.ofPlace []) cs
  | cur, c :: cs =>
    match fs.standing cur with
    | none => .error .notFound
    | some (.file _) | some (.link _) => .error .notDirectory
    | some .dir =>
      match c with
      | .root => fs.descend purpose jump (.ofPlace []) cs
      | .here => fs.descend purpose jump cur cs
      | .up => fs.descend purpose jump cur.up cs
      | .name n =>
        if 0 < cur.lost then .error .notFound
        else if isTooLong n || purpose.isBeyond (cur.place ++ [n]) then .error .nameTooLong
        else
          match fs.get? (cur.place ++ [n]) with
          | none => if cs = [] then .ok (.vacant cur.place n) else .error .notFound
          | some (.link target) =>
            jump cur (if cs = [] then purpose.steps target else target.steps ++ cs)
          | some _ => fs.descend purpose jump (.ofPlace (cur.place ++ [n])) cs

/-- Walk on from a position, following at most so many links. -/
def walk (fs : FileSystem) (purpose : Purpose) :
    Nat → Position → List Component → Except FileError Place
  | 0 => fs.descend purpose fun _ _ => .error .tooManyLinks
  | links + 1 => fs.descend purpose (fs.walk purpose links)

/-- Where a path leads, links followed to the end. -/
def resolve (fs : FileSystem) (purpose : Purpose) (cwd : Position) (p : Path) :
    Except FileError Place :=
  fs.walk purpose maxLinks cwd (purpose.steps p)

/-- The position that a path leads to. -/
def locate (fs : FileSystem) (cwd : Position) (p : Path) : Except FileError Position := do
  checkPath p
  match ← fs.resolve .find cwd p with
  | .found pos => return pos
  | .vacant _ _ => throw .notFound

/-- What is found where a path leads. -/
def entryAt (fs : FileSystem) (cwd : Position) (p : Path) : Except FileError Entry := do
  match fs.standing (← fs.locate cwd p) with
  | some e => return e
  | none => throw .notFound

/-- Something is found where the path leads. -/
def pathExists (fs : FileSystem) (cwd : Position) (p : Path) : Bool :=
  match fs.entryAt cwd p with
  | .ok _ => true
  | .error _ => false

/-- The path leads to a directory. -/
def isDir (fs : FileSystem) (cwd : Position) (p : Path) : Bool :=
  match fs.entryAt cwd p with
  | .ok .dir => true
  | _ => false

/-- The path leads to a regular file. -/
def isFile (fs : FileSystem) (cwd : Position) (p : Path) : Bool :=
  match fs.entryAt cwd p with
  | .ok (.file _) => true
  | _ => false

/-- The path of the place that a path leads to, without links, dots and doubled slashes. It is found
name by name, so the path itself may be of any length. A relative path has none when the working
directory has been removed. -/
def canonical (fs : FileSystem) (cwd : Position) (p : Path) : Except FileError Path := do
  checkText p
  if !p.isAbsolute && 0 < cwd.lost then throw .notFound
  match ← fs.resolve .name cwd p with
  | .found pos => return pos.place.toPath
  | .vacant _ _ => throw .notFound

/-- The bytes of the file at a position. -/
def read (fs : FileSystem) (pos : Position) : Except FileError (List UInt8) :=
  match fs.standing pos with
  | some (.file bytes) => .ok bytes
  | some .dir => .error .isDirectory
  | some (.link _) | none => .error .notFound

/-- The place that the last of some steps stands for, whether or not it is a link: the directory
that the steps before it lead to, and the name. The result is `none` when the last step is no name;
the steps before it have to lead to a directory all the same. -/
def lastName (fs : FileSystem) (cwd : Position) (steps : List Component) :
    Except FileError (Option (Location × OsString)) := do
  match ← fs.walk .find maxLinks cwd steps.dropLast with
  | .vacant _ _ => throw .notFound
  | .found pos =>
    match fs.standing pos with
    | none => throw .notFound
    | some (.file _) | some (.link _) => throw .notDirectory
    | some .dir =>
      match steps.getLast? with
      | some (.name n) =>
        if 0 < pos.lost then throw .notFound
        else if isTooLong n then throw .nameTooLong
        else return some (pos.place, n)
      | _ => return none

end SolVendor.FileSystem
