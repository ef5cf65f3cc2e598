import PrefixShell.Environment
import PrefixShell.Text.WhiteSpace

/-!
# Settings

How a session behaves where the user has a choice. Each setting has a variable of its own, which is
looked at once, when the session begins.
-/

namespace PrefixShell

/-- The settings of a session. -/
structure Config where
  /-- Whether names of commands may be abbreviated. -/
  abbreviations : Bool := true
  /-- Whether a leading `~` counts in quoted words. -/
  tildeInQuotes : Bool := true
  /-- Whether the programs on the search path are known by name. -/
  includePath : Bool := true
  prompt : Text := "$ ".toList
deriving DecidableEq, Repr

namespace Config

/-- The settings where no variable says otherwise. -/
def default : Config := {}

/-- Whether a variable turns its setting on: it is bound, and not to nothing, `0` or `false`. -/
def isOn : Option Text → Bool
  | none => false
  | some value =>
    let t := Text.trim value
    !(t.isEmpty || t = ['0'] || Text.equalIgnoringCase t "false".toList)

/-- The settings that variables ask for. -/
def ofEnvironment (e : Environment) : Config where
  abbreviations := !isOn (e.get? "ABBREV_SHELL_NO_ABBREV".toList)
  tildeInQuotes := !isOn (e.get? "ABBREV_SHELL_NO_QUOTED_TILDE".toList)
  includePath := !isOn (e.get? "ABBREV_SHELL_NO_PATH".toList)
  prompt := (e.get? "ABBREV_SHELL_PROMPT".toList).getD default.prompt

end Config

end PrefixShell
