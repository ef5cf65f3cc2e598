import PrefixShell.Token

/-!
# Errors of a command line

The three ways in which a line can be refused before any command is run.
-/

namespace PrefixShell

/-- Why a line cannot be carried out. -/
inductive ShellError where
  /-- The line cannot be read: what is wrong, and where. -/
  | malformed (detail : Text) (position : Position)
  /-- No known command has this name, nor begins with it. -/
  | commandNotFound (name : Text)
  /-- Several known commands begin with this name. -/
  | ambiguousCommand (name : Text) (alternatives : List Text)
deriving DecidableEq, Repr

def ShellError.message : ShellError → Text
  | malformed detail position =>
    "syntax error at ".toList ++ position.message ++ ": ".toList ++ detail
  | commandNotFound name => "command not found: ".toList ++ name
  | ambiguousCommand name alternatives =>
    "ambiguous command '".toList ++ name ++ "': could be ".toList ++
      List.intercalate ", ".toList alternatives

end PrefixShell
