import SolVendor.Cache.ExitStatus
import SolVendor.Dependency.Basic
import SolVendor.FileSystem.Basic
/-!
# Failure — why a command gives up

A failure is a cause, or something that was being done when another
failure came. The wording is here and nowhere else: `texts` lists what is
said, the outermost first, `message` puts it on one line, and `report` is
the block that the command line prints.
-/

namespace SolVendor

/-- What was being done when a failure came. -/
inductive Activity where
  | openCache (root : Path)
  | createDirectory (dir : Path)
  | openFile (file : Path)
  | readFile (file : Path)
  | removeTree (dir : Path)
  | moveTree (src dst : Path)
  | copyFile (src dst : Path)
  | fetch (dep : Dependency)
  | runGit
deriving DecidableEq, Repr

/-- Why a command gives up. -/
inductive Failure where
  /-- The text is no dependency. -/
  | badDependency (text : String)
  /-- No file has the path or the name that was asked for. -/
  | noMatch (query : String)
  /-- Several files have the name that was asked for. -/
  | ambiguous (query : String) (paths : List Path)
  /-- The id is not one of the graph. -/
  | foreignNode (id : Nat)
  /-- The directory holds no project. -/
  | notProjectRoot (dir : Path)
  /-- The configuration has not been settled. -/
  | unsettled
  /-- There is nothing to install. -/
  | nothingSelected
  /-- A fetch of the dependency crashed while it held the lock. -/
  | lockPoisoned (dep : Dependency)
  /-- The clone ended without success. -/
  | cloneFailed (url version : String) (status : ExitStatus)
  /-- The file system refused. -/
  | file (error : FileError)
  /-- The file system refused to list a directory of a tree. -/
  | unlisted (dir : Path) (error : FileError)
  /-- An argument of a program holds a NUL. -/
  | nulInArgument
  /-- A path in a JSON report is no Unicode text. -/
  | notUnicode
  /-- A reader or a fetcher failed with a text of its own. -/
  | reported (text : String)
  /-- A fetcher crashed. -/
  | crashed
  /-- The cause came while something was being done. -/
  | during (activity : Activity) (cause : Failure)
deriving DecidableEq, Repr

namespace Activity

/-- The activity as it is shown once it has failed. -/
def message : Activity → String
  | openCache root => "Failed to create cache directory " ++ root.text
  | createDirectory dir => "Failed to create " ++ dir.text
  | openFile file => "Failed to open " ++ file.text
  | readFile file => "Failed to read " ++ file.text
  | removeTree dir => "Failed to remove " ++ dir.text
  | moveTree src dst => "Failed to move " ++ src.text ++ " to " ++ dst.text
  | copyFile src dst => "Failed to copy " ++ src.text ++ " to " ++ dst.text
  | fetch dep => "Failed to fetch " ++ dep.toString
  | runGit => "Failed to run git, is it installed?"

end Activity

namespace Failure

/-- What is said about the failure, the outermost activity first and the cause last. -/
def texts : Failure → List String
  | badDependency text =>
    ["Bad dependency format '" ++ text
      ++ "', try [user]/[repo]@[version] with a semantic version"]
  | noMatch query => ["No source file matches '" ++ query ++ "'"]
  | ambiguous query paths =>
    ["'" ++ query ++ "' is ambiguous, use one of the paths: "
      ++ ", ".intercalate (paths.map Path.text)]
  | foreignNode id => ["Node #" ++ toString id ++ " is not part of the graph"]
  | notProjectRoot dir =>
    [dir.text ++ " is not a project root (no Makefile), "
      ++ "try executing from your project's root directory"]
  | unsettled => ["Config not initialized - call initialize() first"]
  | nothingSelected => ["Nothing selected, pass at least one --select <PATH|NAME>"]
  | lockPoisoned dep => ["Fetch lock for " ++ dep.toString ++ " is poisoned"]
  | cloneFailed url version status =>
    ["git clone of " ++ url ++ " at " ++ version ++ " failed (" ++ status.message ++ ")"]
  | file error => [error.message]
  | unlisted dir error =>
    [dir.text ++ ": IO error for operation on " ++ dir.text ++ ": " ++ error.message]
  | nulInArgument => ["nul byte found in provided data"]
  | notUnicode => ["path contains invalid UTF-8 characters"]
  | reported text => [text]
  | crashed => ["the fetcher crashed"]
  | during activity cause => activity.message :: cause.texts

/-- The failure on one line. -/
def message (f : Failure) : String :=
  ": ".intercalate f.texts

/-- A text with `pad` in front and at the start of each further line of it. -/
def indent (first rest text : String) : String :=
  first ++ ("\n" ++ rest).intercalate (text.splitOn "\n")

/-- The causes behind the outermost text, each indented, and numbered if there are several. -/
def causes : List String → List String
  | [] => []
  | [cause] => [indent "    " "    " cause]
  | several => several.zipIdx.map fun (cause, n) =>
    indent ("".pushn ' ' (5 - (toString n).length) ++ toString n ++ ": ") "       " cause

/-- The failure as the command line reports it. -/
def report (f : Failure) : String :=
  match f.texts with
  | [] => "Error: \n"
  | outermost :: rest =>
    "Error: " ++ outermost ++
      (if rest.isEmpty then "" else "\n\nCaused by:\n" ++ "\n".intercalate (causes rest)) ++ "\n"

/-- Something is always said. -/
theorem texts_ne_nil (f : Failure) : f.texts ≠ [] := by
  cases f <;> simp [texts]

end Failure

/-- Read a dependency, or say why the text is none. -/
def Dependency.parse (text : String) : Except Failure Dependency :=
  match Dependency.ofString? text with
  | some dep => .ok dep
  | none => .error (.badDependency text)

end SolVendor
