import PrefixShell.Machine

/-!
# The search path

A text that names directories, parted by colons. It is used in two ways: to list the programs that
can be run by their bare names, and to find the file that a name typed in a command line refers to.
-/

namespace PrefixShell.SearchPath

/-- The directories that a search path names. -/
def directories (searchPath : Text) : List Path := (searchPath.splitOn ':').map Path.ofText

/-- The programs in a directory, by name. A directory that cannot be read has none. -/
def programsIn (m : Machine) (directory : Path) : List Text :=
  ((m.files.entries? m.workingDirectory directory).getD []).filterMap fun name =>
    if m.isExecutable (directory.joinName name) then name.text? else none

/-- The programs in the directories of a search path, in code point order. -/
def programs (m : Machine) (searchPath : Text) : List Text :=
  Text.sortedSet ((directories searchPath).flatMap (programsIn m))

/-- The path itself, if it leads to a program. -/
def findItself? (m : Machine) (p : Path) : Option Path :=
  if m.isExecutable p then some p else none

/-- The first program of a name in the directories of a search path. -/
def findNamed? (m : Machine) (searchPath : Text) (name : FileName) : Option Path :=
  ((directories searchPath).map (·.joinName name)).find? m.isExecutable

/-- The name that a component of a path is spelled by. -/
def componentName : Path.Component → FileName
  | .root => .empty
  | .dot => .dot
  | .dotDot => .dotDot
  | .name n => n

/-- The program that a path refers to. A path of one component is looked for on the search path,
any other is taken as it is. -/
def find? (m : Machine) (searchPath : Text) (p : Path) : Option Path :=
  if p.isAbsolute then findItself? m p
  else if p.beginsWithDot && m.isExecutable p then some p
  else
    match p.components with
    | [] => none
    | [c] => findNamed? m searchPath (componentName c)
    | _ => findItself? m p

end PrefixShell.SearchPath
