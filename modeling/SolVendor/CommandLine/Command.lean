import SolVendor.CommandLine.Arguments
import SolVendor.Report.Installation
/-!
# CommandLine — the commands

The command line names a command, `list` or `install`, and gives it
arguments. A command that succeeds prints its report and ends with the
code 0; one that fails prints the failure on the error stream and ends
with the code 1, and so does one whose report in JSON cannot be made.
Arguments that make no command end with the code 2.
-/

namespace SolVendor

/-- A command with its configuration. -/
inductive Command where
  | list (c : Config)
  | install (c : Config)
deriving DecidableEq, Repr

/-- What comes of a command that succeeds. -/
inductive Outcome where
  | listing (l : Listing)
  | installation (i : Installation)
deriving DecidableEq, Repr

/-- What a run of the command line leaves: its exit code and what it printed. -/
structure Output where
  code : Nat
  out : String
  err : String
deriving DecidableEq, Repr

/-- What is printed when help is asked for. -/
def usage : String :=
  "Vendor Solidity files and their imports from a tagged GitHub repository\n\n" ++
  "Usage: list|install USER/REPO@VERSION [--root DIR] [--cache-dir DIR] [--lib-dir DIR]\n" ++
  "         [-s|--select PATH|NAME]... [--json] [--dry-run]\n"

/-- What is printed when the arguments make no command. -/
def UsageError.message : UsageError → String
  | missingDependency => "the dependency is missing"
  | unknownArgument => "an argument is not known here"
  | repeatedArgument => "an argument is given twice"
  | unexpectedValue => "an argument takes no value"
  | badValue => "an argument needs a value"
  | noCommand => "the command is missing or not known"
  | help => "help is printed"

/-- What is printed in place of a command. To ask for help is no error. -/
def UsageError.output : UsageError → Output
  | help => ⟨0, usage, ""⟩
  | e => ⟨2, "", "error: " ++ e.message ++ "\n\n" ++ usage⟩

namespace Command

/-- Read the command line. Help is also asked for by the word `help`, alone or before a command. -/
def parse : List String → Except UsageError Command
  | "list" :: args => .list <$> Arguments.parse args
  | "install" :: args => .install <$> Arguments.parse args
  | ["help"] | ["help", "list"] | ["help", "install"] | ["help", "help"] => .error .help
  | arg :: _ =>
    match arg.toList with
    | '-' :: 'h' :: _ => .error .help
    | _ => .error (if arg = "--help" then .help else .noCommand)
  | [] => .error .noCommand

/-- The configuration of a command. -/
def config : Command → Config
  | list c | install c => c

/-- Run a command. -/
def perform (fetcher : Fetcher) : Command → Action Outcome
  | list c => .listing <$> Listing.run fetcher c
  | install c => .installation <$> Installation.run fetcher c

end Command

namespace Outcome

/-- The line that ends the report of an installation; `elapsed` is the time it took, in
milliseconds. -/
def finishedSpans (elapsed : String) : List Span :=
  [plain "\n", ⟨[.brightBlue], "●"⟩, plain " Finished in ", ⟨[.cyan], elapsed⟩, plain "ms.\n"]

/-- The outcome as text, as seen from the working directory. -/
def spans (currentDir : Except FileError Path) (elapsed : String) : Outcome → List Span
  | listing l => l.spans
  | installation i => i.spans currentDir ++ finishedSpans elapsed

/-- The outcome as JSON. -/
def toJson : Outcome → Json
  | listing l => l.toJson
  | installation i => i.toJson

/-- The paths among the fields of an outcome. -/
def paths : Outcome → List Path
  | listing l => [l.tree]
  | installation i => i.destination :: i.files

/-- The outcome as a JSON report, which can be made if its paths are Unicode texts. -/
def document (o : Outcome) : Except Failure String :=
  if ∀ p ∈ o.paths, p.IsUnicode then .ok o.toJson.document else .error .notUnicode

end Outcome

namespace Command

/-- What is printed when a command has ended, on the host that it has left. -/
def output (c : Command) (styles : Bool) (elapsed : String) (h : Host)
    (result : Except Failure Outcome) : Output :=
  let text := result.bind fun o =>
    if c.config.json then o.document
    else .ok (Span.renderAll styles (o.spans h.currentDir elapsed))
  match text with
  | .ok out => ⟨0, out, ""⟩
  | .error failure => ⟨1, "", failure.report⟩

/-- Run a command on a host and print what comes of it. -/
def run (fetcher : Fetcher) (styles : Bool) (elapsed : String) (c : Command) (h : Host) :
    Output × Host :=
  let (result, h) := (c.perform fetcher).run h
  (c.output styles elapsed h result, h)

end Command

/-- Whether styles are used, by the environment: they can be forced, or refused, and are used on
terminals otherwise. -/
def usesStyles (env : String → Option String) (terminal : Bool) : Bool :=
  if (env "CLICOLOR_FORCE").any (· ≠ "0") then true
  else if (env "NO_COLOR").isSome then false
  else env "CLICOLOR" ≠ some "0" && terminal

end SolVendor
