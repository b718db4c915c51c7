import SolVendor.Cache.Git
import SolVendor.CommandLine.Command
import SolVendor.FileSystem.Difference
/-!
# Main — the command line as a program

The program takes account of the places on disk whose paths it is given on
standard input, one to a line; a listing of the project and of the cache
is what it needs. It runs the command on them, writes to disk what the
command has changed, and prints. It starts no other program, so a
dependency that is not in the cache cannot be fetched.
-/

namespace SolVendor.Main

/-- The place that a text names from the working directory. -/
def placeOf (cwd : Path) (text : String) : Location :=
  (cwd.join ⟨text⟩).normalize.components.filterMap fun
    | .name n => some n
    | _ => none

/-- Take a place on disk into a file system. What is there and has no bytes is a directory. -/
def load (files : FileSystem) (loc : Location) : IO FileSystem := do
  match ← (IO.FS.readBinFile loc.toPath.text).toBaseIO with
  | .ok bytes => return files.plant loc (.file bytes.toList)
  | .error (.noFileOrDirectory ..) => return files
  | .error _ => return files.plant loc .dir

/-- Make a place on disk vacant. -/
def vacate (loc : Location) : IO Unit := do
  try IO.FS.removeFile loc.toPath.text
  catch _ => IO.FS.removeDir loc.toPath.text

/-- Put an entry at a place on disk. No command makes a link. -/
def fill (loc : Location) : Entry → IO Unit
  | .dir => IO.FS.createDirAll loc.toPath.text
  | .file bytes => IO.FS.writeBinFile loc.toPath.text ⟨bytes.toArray⟩
  | .link _ => return ()

/-- Write to disk what has become of the files. -/
def store (old new : FileSystem) : IO Unit := do
  for loc in old.vacated new do vacate loc
  for (loc, e) in old.changed new do fill loc e

/-- The lines up to the end of the input. -/
partial def readLines (input : IO.FS.Stream) : IO (List String) := do
  let line ← input.getLine
  if line.isEmpty then return []
  return String.ofList (line.toList.takeWhile (· ≠ '\n')) :: (← readLines input)

/-- The machine, as far as standard input tells of it. -/
def readHost : IO Host := do
  let cwd : Path := ⟨toString (← IO.currentDir)⟩
  let home : Path := ⟨(← IO.getEnv "HOME").getD "/"⟩
  let places := (← readLines (← IO.getStdin)).map (placeOf cwd)
  let files ← places.foldlM load (FileSystem.empty.plant (placeOf cwd ".") .dir)
  return .ofFiles files (placeOf cwd ".") home

/-- Whether the report is printed with styles. -/
def readStyles : IO Bool := do
  let names := ["CLICOLOR_FORCE", "NO_COLOR", "CLICOLOR"]
  let known ← names.mapM fun name => return (name, ← IO.getEnv name)
  return usesStyles (fun name => (known.lookup name).join) (← (← IO.getStdout).isTty)

/-- Run a command on disk. -/
def perform (c : Command) : IO Output := do
  let start ← IO.monoMsNow
  let before ← readHost
  let (result, after) := (c.perform Git.missing.fetcher).run before
  store before.files after.files
  let stop ← IO.monoMsNow
  return c.output (← readStyles) (toString (stop - start)) after result

end SolVendor.Main

/-- Reads the arguments, runs the command that they make, and prints what comes of it. -/
def main (args : List String) : IO UInt32 := do
  let o ←
    match SolVendor.Command.parse args with
    | .ok c => SolVendor.Main.perform c
    | .error e => pure e.output
  IO.print o.out
  IO.eprint o.err
  return o.code.toUInt32
