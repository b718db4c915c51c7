import SolVendor.FileSystem.Walk
/-!
# FileSystem — changes

The operations that change a file system, named by paths. Each of them
either gives the new file system or the error that it ended with;
`makeDirs`, which makes several directories, gives both, since those made
before an error remain.
-/

namespace SolVendor.FileSystem

/-- Make one directory. A slash at the end of the path is not counted. -/
def makeDir (fs : FileSystem) (cwd : Position) (p : Path) : Except FileError FileSystem := do
  checkPath p
  match ← fs.lastName cwd p.pieces with
  | none => throw .alreadyExists
  | some (dir, n) =>
    if (fs.get? (dir ++ [n])).isSome then throw .alreadyExists
    return fs.put (dir ++ [n]) .dir

/-- Make the first of the paths, where each next one is the parent of the one before: if a
directory on the way is missing, make the parent and try once more. It is no error if the
directory is there already. -/
def makeFirst (cwd : Position) :
    List Path → FileSystem → Except FileError Unit × FileSystem
  | [], fs => (.error .notFound, fs)
  | p :: above, fs =>
    if p = .empty then (.ok (), fs)
    else
      match fs.makeDir cwd p with
      | .ok fs' => (.ok (), fs')
      | .error .notFound =>
        match makeFirst cwd above fs with
        | (.error e, fs') => (.error e, fs')
        | (.ok (), fs') =>
          match fs'.makeDir cwd p with
          | .ok fs'' => (.ok (), fs'')
          | .error e => (if fs'.isDir cwd p then .ok () else .error e, fs')
      | .error e => (if fs.isDir cwd p then .ok () else .error e, fs)

/-- Make a directory and those above it that are missing. -/
def makeDirs (fs : FileSystem) (cwd : Position) (p : Path) : Except FileError Unit × FileSystem :=
  makeFirst cwd p.ancestors fs

/-- Remove a directory with all below it, or a link; a regular file is refused. -/
def removeTree (fs : FileSystem) (cwd : Position) (p : Path) : Except FileError FileSystem := do
  checkPath p
  match ← fs.lastName cwd p.steps with
  | none => throw .invalidArgument
  | some (dir, n) =>
    match fs.get? (dir ++ [n]) with
    | none => throw .notFound
    | some (.file _) => throw .notDirectory
    | some _ => return fs.cut (dir ++ [n])

/-- Give what stands at the last name of `src` the last name of `dst`. A directory may replace an
empty directory only, anything else may replace all but directories. -/
def rename (fs : FileSystem) (cwd : Position) (src dst : Path) :
    Except FileError FileSystem := do
  checkPath src
  checkPath dst
  match ← fs.lastName cwd src.steps, ← fs.lastName cwd dst.steps with
  | some (sdir, sname), some (ddir, dname) =>
    let s := sdir ++ [sname]
    let d := ddir ++ [dname]
    match fs.get? s, fs.get? d with
    | none, _ => throw .notFound
    | some .dir, none | some .dir, some .dir =>
      if s = d then return fs
      if s.isPrefixOf d then throw .invalidArgument
      unless (fs.below d).isEmpty do throw .notEmpty
      return fs.graft s d
    | some .dir, some _ => throw .notDirectory
    | some _, some .dir => throw .isDirectory
    | some _, _ => if s = d then return fs else return fs.graft s d
  | _, _ => throw .invalidArgument

/-- The place that is written when a path is opened for writing: the file it leads to, or the
vacant name it ends at. -/
def writePlace (fs : FileSystem) (cwd : Position) (p : Path) : Except FileError Location := do
  checkPath p
  match ← fs.resolve .write cwd p with
  | .vacant dir n => return dir ++ [n]
  | .found pos =>
    match fs.standing pos with
    | some (.file _) => return pos.place
    | some .dir => throw .isDirectory
    | _ => throw .notFound

/-- Write a file, new or in place of the bytes of the one that is there. -/
def write (fs : FileSystem) (cwd : Position) (p : Path) (bytes : List UInt8) :
    Except FileError FileSystem := do
  return fs.put (← fs.writePlace cwd p) (.file bytes)

/-- Make a link with the given path. A slash behind its name makes sense for directories only. -/
def makeLink (fs : FileSystem) (cwd : Position) (p target : Path) :
    Except FileError FileSystem := do
  checkPath target
  checkPath p
  match ← fs.lastName cwd p.pieces with
  | none => throw .alreadyExists
  | some (dir, n) =>
    if (fs.get? (dir ++ [n])).isSome then throw .alreadyExists
    if p.endsInSlash then throw .notFound
    return fs.put (dir ++ [n]) (.link target)

/-- Copy a regular file. The source is opened first; then the target is emptied; then what the
source still holds is written. So a file that is copied onto itself ends empty. -/
def copy (fs : FileSystem) (cwd : Position) (src dst : Path) : Except FileError FileSystem := do
  let s ← fs.locate cwd src
  match fs.standing s with
  | some (.file _) =>
    let d ← fs.writePlace cwd dst
    let emptied := fs.put d (.file [])
    return emptied.put d (.file (← emptied.read s))
  | _ => throw .notRegular

end SolVendor.FileSystem
