import PrefixShell.LineBuffer
import PrefixShell.Shell

/-!
# The program

The shell as a program: its arguments, its standard input, and what it writes. With `-c` it carries
out one line and ends with a status that tells how this went; otherwise it carries out the lines of
its input.
-/

namespace PrefixShell.CommandLine

/-! ## Arguments -/

/-- What the arguments ask for. -/
structure Options where
  noAbbrev : Bool := false
  noPath : Bool := false
  noQuotedTilde : Bool := false
  prompt : Option Text := none
  command : Option Text := none
deriving DecidableEq, Repr

/-- Why arguments are not understood. -/
inductive Misuse where
  | unrecognized (argument : Text)
  | missingValue (option : Text)
  | duplicateValue (option value : Text)
  /-- An option after the request for help. -/
  | trailing
deriving DecidableEq, Repr

def programName : Text := "abbrev_shell".toList

def Misuse.message : Misuse → Text
  | unrecognized argument => "Unrecognized argument: ".toList ++ argument ++ ['\n']
  | missingValue option => "No value provided for option '".toList ++ option ++ "'.\n".toList
  | duplicateValue option value =>
    "Error parsing option '".toList ++ option ++ "' with value '".toList ++ value ++
      "': duplicate values provided\n".toList
  | trailing => "Trailing arguments are not allowed after `help`.".toList

def usage : Text :=
  Text.lines <| List.map String.toList [
    "Usage: abbrev_shell [--no-abbrev] [--no-path] [--no-quoted-tilde] [--prompt <prompt>] " ++
      "[-c <command>]",
    "",
    "Interactive command shell that accepts unambiguous prefixes of command names.",
    "",
    "Options:",
    "  --no-abbrev       require full command names",
    "  --no-path         only register builtins, not the executables on PATH",
    "  --no-quoted-tilde keep a leading ~ literal inside quotes",
    "  --prompt          prompt shown before each line",
    "  -c, --command     run one command line and exit with its status",
    "  --help, help      display usage information",
    ""]

/-- What can be asked for. -/
inductive Request where
  /-- To run, with these options. -/
  | run (options : Options)
  /-- To be told how the program is used. -/
  | help
deriving DecidableEq, Repr

/-- What an option does. -/
inductive OptionKind where
  /-- It is given alone, any number of times. -/
  | switch (set : Options → Options)
  /-- It is given with a value, once. -/
  | value (get : Options → Option Text) (set : Options → Text → Options)

/-- The option of a given spelling. -/
def optionKind? (spelling : Text) : Option OptionKind :=
  if spelling = "--no-abbrev".toList then some (.switch fun o => { o with noAbbrev := true })
  else if spelling = "--no-path".toList then some (.switch fun o => { o with noPath := true })
  else if spelling = "--no-quoted-tilde".toList then
    some (.switch fun o => { o with noQuotedTilde := true })
  else if spelling = "--prompt".toList then
    some (.value Options.prompt fun o v => { o with prompt := some v })
  else if spelling = "-c".toList || spelling = "--command".toList then
    some (.value Options.command fun o v => { o with command := some v })
  else none

/-- Reads arguments. `help` tells whether help has been asked for already. -/
def parse (help : Bool) (o : Options) : List Text → Except Misuse Request
  | [] => .ok (if help then .help else .run o)
  | arg :: args =>
    if arg = "--help".toList || arg = "help".toList then parse true o args
    else if arg.head? = some '-' then
      if arg = "--".toList then
        match args with
        | [] => .ok (if help then .help else .run o)
        | extra :: _ => .error (.unrecognized extra)
      else if help then .error .trailing
      else
        match optionKind? arg with
        | none => .error (.unrecognized arg)
        | some (.switch set) => parse help (set o) args
        | some (.value get set) =>
          match args with
          | [] => .error (.missingValue arg)
          | value :: args' =>
            if (get o).isSome then .error (.duplicateValue arg value)
            else parse help (set o value) args'
    else .error (.unrecognized arg)

/-- Whether the program reads its standard input, given its arguments. -/
def readsInput (args : List Text) : Bool :=
  match parse false {} args with
  | .ok (.run options) => options.command.isNone
  | _ => false

/-! ## Input and output -/

/-- The lines of an input; a line break may be preceded by a carriage return, and the last line may
lack one. -/
def inputLines (t : Text) : List Text :=
  let pieces := t.splitOn '\n'
  let chomp (line : Text) : Text := if line.getLast? = some '\r' then line.dropLast else line
  let last := pieces.getLast?.getD []
  pieces.dropLast.map chomp ++ if last.isEmpty then [] else [last]

/-- The sorts of terminal to which the prompt is written as plain text. -/
def plainTerminals : List Text := ["dumb".toList, "cons25".toList, "emacs".toList]

/-- Whether a terminal is of such a sort. -/
def isPlainTerminal (term : Option Text) : Bool :=
  term.any fun t => plainTerminals.any (Text.equalIgnoringCase t)

/-- Writes what a line has written: what is shown of it, and what is held back. -/
def writeReport (b : LineBuffer) (r : Shell.Report) : Text × LineBuffer :=
  let (shown, b') := b.write r.output
  (shown ++ r.console, b')

/-- All that is shown of what one line has written, in the end. -/
def reportOutput (r : Shell.Report) : Text :=
  let (shown, b) := writeReport .empty r
  shown ++ b.held

/-- Shows a prompt, which leaves nothing held back. -/
def ask (prompt : Option Text) (b : LineBuffer) : Text × LineBuffer :=
  match prompt with
  | some p =>
    let (shown, b') := b.write p
    (shown ++ b'.held, .empty)
  | none => ([], b)

/-- What the loop writes to standard output, from what is held back. A prompt is shown before each
line and, unless the session has ended, before the end of the input. -/
def outputFrom (prompt : Option Text) (ended : Bool) (b : LineBuffer) : List Shell.Report → Text
  | [] =>
    let (shown, b') := if ended then ([], b) else ask prompt b
    shown ++ b'.held
  | r :: rs =>
    let (asked, b) := ask prompt b
    let (shown, b) := writeReport b r
    asked ++ shown ++ outputFrom prompt ended b rs

/-- What the loop writes to standard output. -/
def loopOutput (prompt : Option Text) (reports : List Shell.Report) (ended : Bool) : Text :=
  outputFrom prompt ended .empty reports

/-- What is written to standard error: what has been written about programs, and the reports of
failures, a line each. -/
def diagnostics (reports : List Shell.Report) : Text :=
  reports.flatMap fun r => r.complaint ++ Text.lines r.diagnostic.toList

/-! ## Running -/

/-- What the program is started with. -/
structure Invocation where
  arguments : List Text
  /-- Its standard input. -/
  input : Text
  /-- The variables that it is handed, as entries. -/
  entries : List Text
  currentDirectory : Path
  /-- The home directory of the account that it runs for. -/
  accountHome : Text
  machine : Machine
  /-- How its standard output takes what commands write. -/
  stdout : Writer := .steady

/-- The environment in which a session begins. -/
def Invocation.environment (i : Invocation) : Environment where
  vars := .ofEntries i.entries
  currentDirectory := i.currentDirectory
  accountHome := i.accountHome

/-- The sort of terminal, by the first entry for `TERM`. -/
def Invocation.terminal? (i : Invocation) : Option Text :=
  (Variables.valuesIn i.entries "TERM".toList).head?

/-- What the program writes, and the status with which it ends. -/
structure Result where
  status : Nat
  stdout : Text := []
  stderr : Text := []
deriving DecidableEq, Repr

/-- The settings, with those overruled that the options speak of. -/
def Options.apply (o : Options) (c : Config) : Config where
  abbreviations := c.abbreviations && !o.noAbbrev
  includePath := c.includePath && !o.noPath
  tildeInQuotes := c.tildeInQuotes && !o.noQuotedTilde
  prompt := o.prompt.getD c.prompt

/-- The status with which the program ends after one line. -/
def statusOf : Except Failure Int → Nat
  | .ok code => if 0 ≤ code ∧ code ≤ 255 then code.toNat else 1
  | .error (.refused (.commandNotFound _)) => 127
  | .error (.refused (.malformed _ _)) => 2
  | .error _ => 1

def run (i : Invocation) : Result :=
  match parse false {} i.arguments with
  | .error misuse =>
    { status := 1
      stderr := misuse.message ++ "\nRun ".toList ++ programName ++
        " --help for more information.\n".toList }
  | .ok .help => { status := 0, stdout := usage }
  | .ok (.run options) =>
    let config := options.apply (.ofEnvironment i.environment)
    let sh := Shell.start config i.environment i.machine Builtin.factories
    match options.command with
    | some line =>
      let o := sh.execute line i.stdout
      let r := Shell.Report.ofOutcome o
      { status := statusOf o.result
        stdout := reportOutput r
        stderr := diagnostics [r] }
    | none =>
      let (reports, sh', _) := sh.loop i.stdout (inputLines i.input)
      let prompt := if isPlainTerminal i.terminal? then some config.prompt else none
      { status := 0
        stdout := loopOutput prompt reports sh'.shouldExit
        stderr := diagnostics reports }

end PrefixShell.CommandLine
