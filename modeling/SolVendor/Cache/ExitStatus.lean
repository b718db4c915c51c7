/-!
# Cache — how a program ended

A program ends with an exit code or by a signal; it has succeeded when it
ended with the code zero. Signals are shown by number and name.
-/

namespace SolVendor

/-- The end of a program. -/
inductive ExitStatus where
  | code (n : Nat)
  | signal (n : Nat)
deriving DecidableEq, Repr

namespace ExitStatus

/-- The names of the signals, from the first one on. -/
def signalNames : List String :=
  ["SIGHUP", "SIGINT", "SIGQUIT", "SIGILL", "SIGTRAP", "SIGABRT", "SIGBUS", "SIGFPE", "SIGKILL",
   "SIGUSR1", "SIGSEGV", "SIGUSR2", "SIGPIPE", "SIGALRM", "SIGTERM", "SIGSTKFLT", "SIGCHLD",
   "SIGCONT", "SIGSTOP", "SIGTSTP", "SIGTTIN", "SIGTTOU", "SIGURG", "SIGXCPU", "SIGXFSZ",
   "SIGVTALRM", "SIGPROF", "SIGWINCH", "SIGIO", "SIGPWR", "SIGSYS"]

/-- The name of a signal, if it has one. -/
def signalName? (n : Nat) : Option String :=
  if n = 0 then none else signalNames[n - 1]?

/-- Only the exit code zero is success. -/
def isSuccess : ExitStatus → Bool
  | code n => n = 0
  | signal _ => false

/-- The status as it is shown. -/
def message : ExitStatus → String
  | code n => "exit status: " ++ toString n
  | signal n =>
    "signal: " ++ toString n ++
      match signalName? n with
      | some name => " (" ++ name ++ ")"
      | none => ""

end ExitStatus

end SolVendor
