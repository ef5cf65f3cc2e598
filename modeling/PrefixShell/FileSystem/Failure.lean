import PrefixShell.Text

/-!
# Failures of the system

Why the system refuses to find a file or to start a program.
-/

namespace PrefixShell

/-- Why the system refuses. -/
inductive SystemFailure where
  | notFound
  | notRunnable
  | accessDenied
  | notDirectory
  | nameTooLong
  | tooManyLinks
  | nulInPath
  | nulInData
deriving DecidableEq, Repr

def SystemFailure.message : SystemFailure → Text
  | notFound => "No such file or directory (os error 2)".toList
  | notRunnable => "Exec format error (os error 8)".toList
  | accessDenied => "Permission denied (os error 13)".toList
  | notDirectory => "Not a directory (os error 20)".toList
  | nameTooLong => "File name too long (os error 36)".toList
  | tooManyLinks => "Too many levels of symbolic links (os error 40)".toList
  | nulInPath => "file name contained an unexpected NUL byte".toList
  | nulInData => "nul byte found in provided data".toList

end PrefixShell
