import PrefixShell.Session

/-!
# Built-in commands

The commands that the shell carries out itself. They read the arguments of the command line, write
lines of text, and end with status 0; a failing one writes why, and ends with 1, or with 2 if its
arguments make no sense. To have written what is not taken is to fail, too; and where not even the
reason is taken, there is no status.

## Main results

* `create?_isSome_iff`: the factory of a built-in command makes it for its own name and no other.
-/

namespace PrefixShell

/-- The built-in commands. -/
inductive Builtin where
  /-- Writes the working directory. -/
  | pwd
  /-- Changes the working directory to the one given, or to `HOME`. -/
  | cd
  /-- Writes its words, parted by spaces. -/
  | echo
  /-- Ends the session after this line. -/
  | exit
  /-- Writes the known names, or those with a given beginning. -/
  | help
  /-- Learns the known names anew, and writes how many there are. -/
  | rehash
deriving DecidableEq, Repr

namespace Builtin

/-- The built-in commands, in the order in which they are tried. -/
def all : List Builtin := [pwd, cd, echo, exit, help, rehash]

def name : Builtin → Text
  | pwd => "pwd".toList
  | cd => "cd".toList
  | echo => "echo".toList
  | exit => "exit".toList
  | help => "help".toList
  | rehash => "rehash".toList

def line (t : Text) : Text := t ++ ['\n']

/-! ## How they end -/

/-- Says why a command fails. It ends with a status, if it can say so. -/
def complain (status : Int) (report : Text) : Action := fun s w =>
  let written := w.write (line report)
  { result := match written.cause? with
      | none => .ok status
      | some cause => .error (.unwritten cause)
    output := written.taken
    session := s
    writer := written.writer }

/-- Writes texts one after another, which is all that is left to do. -/
def finish (texts : List Text) : Action := fun s w =>
  let written := w.writeAll texts
  match written.cause? with
  | none =>
    { result := .ok 0, output := written.taken, session := s, writer := written.writer }
  | some cause =>
    let o := complain 1 cause s written.writer
    { o with output := written.taken ++ o.output }

/-! ## What each of them does -/

def runPwd : Action := fun s => finish [line s.environment.currentDirectory.display] s

/-- The directory that `cd` is asked to change to, if there is one: a given argument that is not
empty, or else `HOME`, taken from the present directory. -/
def cdTarget? (e : Environment) (args : List Text) : Option Path :=
  let given := args.head?.filter (!·.isEmpty)
  (given.or (e.get? "HOME".toList)).map fun t => e.currentDirectory.join (Path.ofText t)

/-- A failure of `cd` to do something with a path. -/
def cdFailure (deed : String) (p : Path) (cause : SystemFailure) : Text :=
  "cd: can't ".toList ++ deed.toList ++ ' ' :: p.display ++ ": ".toList ++ cause.message

/-- Where `cd` leads: the location of its target and the machine after the change. -/
def cdResult (s : Session) (args : List Text) : Except Text (Location × Machine) :=
  match cdTarget? s.environment args with
  | none => .error "cd: no target and HOME not set".toList
  | some target =>
    match s.machine.files.canonical s.machine.workingDirectory target with
    | .error cause => .error (cdFailure "canonicalize" target cause)
    | .ok l =>
      match s.machine.changeDirectory l.toPath with
      | .error cause => .error (cdFailure "chdir to" l.toPath cause)
      | .ok m => .ok (l, m)

def runCd (args : List Text) : Action := fun s =>
  if args.length > 1 then complain 2 "cd: too many arguments".toList s
  else
    match cdResult s args with
    | .error report => complain 1 report s
    | .ok (l, m) =>
      finish [] { s with
        machine := m
        environment := { s.environment with currentDirectory := l.toPath } }

/-- `echo`. A first word `-n` leaves out the line break at the end. -/
def runEcho (words : List Text) : Action :=
  finish [match words with
    | ['-', 'n'] :: rest => List.intercalate [' '] rest
    | _ => line (List.intercalate [' '] words)]

def runExit : Action := fun s =>
  finish [] { s with environment := { s.environment with shouldExit := true } }

/-- `help`. It writes name by name, and so may have written some when a write fails. -/
def runHelp (args : List Text) : Action := fun s =>
  finish ((s.resolver.candidates (args.head?.getD [])).map line) s

/-- `rehash`. By the time it writes it has learned the names. -/
def runRehash : Action := fun s =>
  finish [line (Text.ofNat s.refresh.resolver.count ++ " commands".toList)] s.refresh

/-- What a built-in command does for a command line. -/
def run (b : Builtin) (c : Command) : Action :=
  match b with
  | pwd => runPwd
  | cd => runCd c.args
  | echo => runEcho c.argv
  | exit => runExit
  | help => runHelp c.args
  | rehash => runRehash

/-! ## Factories -/

/-- The factory of a built-in command. -/
def factory (b : Builtin) : Factory where
  names := [b.name]
  create? _ c := if c.target = b.name then some (b.run c) else none

def factories : List Factory := all.map factory

/-- A built-in command is made for its own name and no other. -/
theorem create?_isSome_iff (b : Builtin) (s : Session) (c : Command) :
    (b.factory.create? s c).isSome ↔ c.target = b.name := by
  by_cases h : c.target = b.name <;> simp [factory, h]

end Builtin

end PrefixShell
