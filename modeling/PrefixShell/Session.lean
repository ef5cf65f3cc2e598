import PrefixShell.Machine
import PrefixShell.Resolver
import PrefixShell.SearchPath
import PrefixShell.Writer

/-!
# Sessions

The state that a command can read and change, and what comes of running one. A command is given
something to write to. It comes from a factory, which knows the names that its commands answer to.
-/

namespace PrefixShell

/-- Where the known command names come from: those of the factories and, if programs are to be
known by name, those on the search path that the session began with. -/
structure Registry where
  names : List Text
  searchPath : Option Text
deriving DecidableEq, Repr

/-- The names that a registry lists at present. -/
def Registry.list (r : Registry) (m : Machine) : List Text :=
  match r.searchPath with
  | some searchPath => r.names ++ SearchPath.programs m searchPath
  | none => r.names

/-- The state that commands can read and change. -/
structure Session where
  environment : Environment
  registry : Registry
  resolver : Resolver
  machine : Machine

/-- Learns the known names anew. -/
def Session.refresh (s : Session) : Session :=
  { s with resolver := s.resolver.refresh (s.registry.list s.machine) }

/-- Why a line comes to no result. -/
inductive Failure where
  /-- No command was run. -/
  | refused (error : ShellError)
  /-- The system did not start the program. -/
  | notStarted (program : Path) (cause : SystemFailure)
  /-- What the command had to write has not been taken. -/
  | unwritten (cause : Text)
  /-- The command gave up, with a report of its own. -/
  | gaveUp (report : Text)
deriving DecidableEq, Repr

def Failure.message : Failure → Text
  | refused error => error.message
  | notStarted program cause =>
    "failed to spawn ".toList ++ program.display ++ ": ".toList ++ cause.message
  | unwritten cause => cause
  | gaveUp report => report

/-- What comes of running a command. -/
structure Outcome where
  /-- Its status, or why there is none. -/
  result : Except Failure Int
  /-- What it wrote by way of the shell, as far as it has been taken. -/
  output : Text := []
  /-- What a program wrote on its own. -/
  console : Text := []
  /-- What was written about a program as an error. -/
  complaint : Text := []
  /-- What the system was asked to start, if it was asked. -/
  request : Option Launch := none
  /-- The state it leaves. -/
  session : Session
  /-- What is left of the writer it was given. -/
  writer : Writer

/-- What a command does. -/
abbrev Action := Session → Writer → Outcome

/-- A source of commands. -/
structure Factory where
  /-- The names that its commands answer to. -/
  names : List Text
  /-- What a command line does, if it is for this factory. -/
  create? : Session → Command → Option Action

end PrefixShell
