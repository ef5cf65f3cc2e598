import PrefixShell.Environment
import PrefixShell.FileSystem.Walk

/-!
# Machine

What lies outside a session: the file tree, the working directory of the running shell, and the
starting of programs. The shell owns all files. Programs are scripts, and so have to be read when
they run. What a program makes of the files is not told by its script, and may be anything.

## Main results

* `start_workingDirectory`: a program that is started leaves the shell in its directory.
-/

namespace PrefixShell

/-- What is needed to start a program. -/
structure Launch where
  program : Path
  arguments : List Text
  vars : Variables
  /-- The directory in which the program is to run. -/
  directory : Path
deriving DecidableEq, Repr

/-- The file tree, the working directory of the running shell, and what programs do. -/
structure Machine where
  files : FileSystem
  workingDirectory : Site
  /-- What a program makes of the files when it runs. The directories that it and the shell are in
  stay where they are; to take these away is a change from outside. -/
  deeds : Launch → FileSystem → FileSystem := fun _ files => files

/-- What a program leaves behind. -/
structure Run where
  /-- What it has written. -/
  output : Text := []
  /-- What has been written about it as an error. -/
  complaint : Text := []
  status : Nat
  machine : Machine

namespace Machine

def isExecutable (m : Machine) (p : Path) : Bool := m.files.isExecutable m.workingDirectory p

/-- Makes the directory that a path leads to the working directory. -/
def changeDirectory (m : Machine) (p : Path) : Except SystemFailure Machine :=
  match m.files.locate m.workingDirectory true p with
  | .error e => .error e
  | .ok s =>
    if m.files.nodeAt? s = some .directory then .ok { m with workingDirectory := s }
    else .error .notDirectory

/-! ## Changing the files -/

/-- Puts a node where a path leads from a directory. -/
def put (m : Machine) (directory : Location) (p : Path) (n : Node) : Machine :=
  { m with files := m.files.putAt directory p n }

/-- Takes away what a path leads to from a directory, a link itself and not what it leads to. The
shell stays where it is, even if that is out of the tree from now on. -/
def remove (m : Machine) (directory : Location) (p : Path) : Machine :=
  match m.files.locate (.inTree directory) false p with
  | .ok s =>
    { m with
      files := m.files.remove s.location
      workingDirectory := m.workingDirectory.without s.location }
  | .error _ => m

/-! ## Starting programs -/

/-- The signals that end no program which does not listen for them. -/
def harmlessSignals : List Nat := [0, 17, 18, 23, 28]

/-- The status of a program, by the way it ends. One that only sends itself a harmless signal comes
to its end as usual. -/
def status : Ending → Nat
  | .exit code => code % 256
  | .signal number => if harmlessSignals.contains number then 0 else 128 + number

/-- A line that a program writes about a named value. -/
def reportLine (name : Text) (value : Text) : Text :=
  name ++ " <".toList ++ value ++ ">\n".toList

/-- What a program writes: how it was started, where, with which arguments, and the variables that
it reports. Of several values for a name it knows the last. -/
def report (program : Text) (directory : Path) (launch : Launch) (reported : List Text) : Text :=
  reportLine "prog".toList program ++
    reportLine "cwd".toList directory.display ++
    launch.arguments.flatMap (reportLine "arg".toList) ++
    reported.flatMap fun name =>
      match (Variables.valuesIn launch.vars.entries name).getLast? with
      | some value => reportLine name value
      | none => name ++ " unset\n".toList

/-- What comes of starting a script that its owner must not read. -/
def unreadable (m : Machine) (program : Path) : Run where
  complaint :=
    "/bin/sh: 0: cannot open ".toList ++ program.display ++ ": Permission denied\n".toList
  status := 2
  machine := m

/-- Runs a file that may be started. Only `asCommands` is an empty one taken for a list of commands,
of which there are none. -/
def runFile (m : Machine) (launch : Launch) (asCommands : Bool) (program : Path) (f : File) :
    Except SystemFailure Run :=
  match f.content with
  | .data =>
    if asCommands then
      .ok (if f.ownerMayRead then { status := 0, machine := m } else m.unreadable program)
    else .error .notRunnable
  | .broken => .error .notFound
  | .program reported ending =>
    .ok <|
      if f.ownerMayRead then
        { output := report program.display m.workingDirectory.toPath launch reported
          status := status ending
          machine := { m with files := m.deeds launch m.files } }
      else m.unreadable program

/-- Starts the file that a path leads to. -/
def startFile (m : Machine) (launch : Launch) (asCommands : Bool) (program : Path) :
    Except SystemFailure Run :=
  match m.files.locate m.workingDirectory true program with
  | .error e => .error e
  | .ok s =>
    match m.files.nodeAt? s with
    | some (.file f) =>
      if f.ownerMayStart then m.runFile launch asCommands program f else .error .accessDenied
    | some _ => .error .accessDenied
    | none => .error .notFound

/-! ### Bare names -/

/-- The search path on which a bare name is looked for if the variables name none. -/
def usualSearchPath : Text := "/bin:/usr/bin".toList

/-- The search path on which a bare name is looked for: of several values for its name the first. -/
def searchPath (v : Variables) : Text :=
  (Variables.valuesIn v.entries "PATH".toList).head?.getD usualSearchPath

/-- Whether a directory on the search path is spelled by more bytes than a path may have. -/
def isOverlong (directory : Text) : Bool := directory.byteLength > FileSystem.maxPathLength

/-- The file that a bare name may stand for in a directory of the search path. A directory that is
not spelled, or spelled by too many bytes, is the working directory. -/
def startPath (program : Path) (directory : Text) : Path :=
  if directory.isEmpty || isOverlong directory then program
  else ⟨(Path.ofText directory).names ++ program.names⟩

/-- The files that a bare name may stand for: one in each directory of the search path, but for the
last directory if it is spelled by too many bytes. -/
def startPaths (searchPath : Text) (program : Path) : List Path :=
  let directories := searchPath.splitOn ':'
  let usable := if directories.getLast?.any isOverlong then directories.dropLast else directories
  usable.map (startPath program)

/-- Starts the first of several files that can be started, passing over those that are not there or
must not be started. `failure` is what has been wrong so far: where no file can be started, a file
that must not be counts before one that is not there. -/
def startFirst (m : Machine) (launch : Launch) (failure : SystemFailure) :
    List Path → Except SystemFailure Run
  | [] => .error failure
  | program :: others =>
    match m.startFile launch true program with
    | .ok run => .ok run
    | .error cause =>
      if cause = .accessDenied then m.startFirst launch cause others
      else if cause = .notFound || cause = .notDirectory then
        m.startFirst launch (if failure = .accessDenied then failure else cause) others
      else .error cause

/-! ### All programs -/

/-- Whether what is handed to a program holds a NUL, which nothing handed over can. -/
def holdsNul (launch : Launch) : Bool :=
  launch.arguments.any (·.contains '\x00') ||
    launch.vars.bindings.any fun (name, value) => name.contains '\x00' || value.contains '\x00'

/-- Starts a program in the directory that the machine is in. A path with a slash is followed from
there; a bare name is looked for on the search path that the program is given. -/
def startHere (m : Machine) (launch : Launch) : Except SystemFailure Run :=
  if launch.program.names.length ≥ 2 then m.startFile launch false launch.program
  else m.startFirst launch .notFound (startPaths (searchPath launch.vars) launch.program)

/-- Starts a program. It is the program that changes to the directory in which it is to run, and the
shell stays in its own. -/
def start (m : Machine) (launch : Launch) : Except SystemFailure Run :=
  if holdsNul launch then .error .nulInData
  else
    match m.changeDirectory launch.directory with
    | .error e => .error e
    | .ok m' =>
      (m'.startHere launch).map fun run =>
        { run with machine := { run.machine with workingDirectory := m.workingDirectory } }

/-- A program that is started leaves the shell in its directory. -/
theorem start_workingDirectory {m : Machine} {launch : Launch} {run : Run}
    (h : m.start launch = .ok run) : run.machine.workingDirectory = m.workingDirectory := by
  unfold start at h
  split at h
  · cases h
  · split at h
    · cases h
    · rename_i m' _
      cases hhere : m'.startHere launch with
      | error cause =>
        rw [hhere] at h
        cases h
      | ok run' =>
        rw [hhere] at h
        cases h
        rfl

end Machine

end PrefixShell
