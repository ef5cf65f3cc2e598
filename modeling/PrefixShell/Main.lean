import PrefixShell.CommandLine

/-!
# The executable

The outer layer of the program: it reads the arguments, the variables and the standard input, and
writes what the program answers. Everything else is decided by `CommandLine.run`.

The machine that the program is given holds the directories on the way to the working directory, and
no files. So the built-in commands work here, and there are no programs to start.
-/

namespace PrefixShell

/-- The entries in a block, each of them ended by a NUL. Entries that are no text are left out. -/
def entriesOfBlock (block : List UInt8) : List Text :=
  ((block.splitOn 0).filter (· ≠ [])).filterMap Utf8.text?

/-- A machine in which there are just the directories on the way to its working directory. -/
def Machine.atDirectory (l : Location) : Machine where
  files := FileSystem.empty.put l .directory
  workingDirectory := .inTree l

/-- The program, started with arguments, entries and a standard input. Its working directory is the
one that `PWD` names. -/
def CommandLine.Invocation.ofProcess (arguments entries : List Text) (input : Text) :
    CommandLine.Invocation :=
  let directory := (Variables.valuesIn entries "PWD".toList).head?.getD ['/']
  { arguments
    input
    entries
    currentDirectory := Path.ofText directory
    accountHome := ['/']
    machine := .atDirectory (Path.ofText directory).steps }

partial def readAll (stream : IO.FS.Stream) (before : String) : IO String := do
  let line ← stream.getLine
  if line.isEmpty then return before else readAll stream (before ++ line)

end PrefixShell

def main (args : List String) : IO UInt32 := do
  let block ← IO.FS.readBinFile "/proc/self/environ"
  let entries := PrefixShell.entriesOfBlock block.toList
  let arguments := args.map String.toList
  let input ←
    if PrefixShell.CommandLine.readsInput arguments then
      PrefixShell.readAll (← IO.getStdin) ""
    else pure ""
  let result := PrefixShell.CommandLine.run (.ofProcess arguments entries input.toList)
  (← IO.getStdout).putStr (String.ofList result.stdout)
  (← IO.getStderr).putStr (String.ofList result.stderr)
  return UInt32.ofNat result.status
