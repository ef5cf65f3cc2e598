import PrefixShell.Command
import PrefixShell.Error
import PrefixShell.Trie

/-!
# Resolving names

From a command name as it was typed to the name of a known command. A known name stands for itself.
Where abbreviations are accepted, so does any beginning that only one known name has; one that
several of them have is refused with all of these.

## Main results

* `resolveCommand_ok`, `resolveCommand_error`: a command changes only by the name it resolves to.
-/

namespace PrefixShell

/-- The known command names, and whether they may be abbreviated. -/
structure Resolver where
  names : Trie
  abbreviations : Bool
deriving DecidableEq, Repr

namespace Resolver

def ofList (names : List Text) (abbreviations : Bool) : Resolver := ⟨.ofList names, abbreviations⟩

def count (r : Resolver) : Nat := r.names.count

def contains (r : Resolver) (name : Text) : Bool := r.names.contains name

/-- The known names with a given beginning, in code point order. -/
def candidates (r : Resolver) (beginning : Text) : List Text :=
  Text.sorted (r.names.search beginning)

/-- The known names, in code point order. -/
def known (r : Resolver) : List Text := r.candidates []

/-- Forgets the known names and learns those in a list instead. -/
def refresh (r : Resolver) (names : List Text) : Resolver := { r with names := .ofList names }

/-- Learns one more name, and tells whether it is new. -/
def register (r : Resolver) (name : Text) : Resolver × Bool :=
  ({ r with names := (r.names.insert name).1 }, (r.names.insert name).2)

/-- Accepts abbreviations, or no longer. -/
def setAbbreviations (r : Resolver) (accepted : Bool) : Resolver :=
  { r with abbreviations := accepted }

/-- The known name that a candidate stands for. -/
def resolve (r : Resolver) (candidate : Text) : Except ShellError Text :=
  if r.contains candidate then .ok candidate
  else if r.abbreviations then
    match r.candidates candidate with
    | [] => .error (.commandNotFound candidate)
    | [name] => .ok name
    | names => .error (.ambiguousCommand candidate names)
  else .error (.commandNotFound candidate)

/-- Resolves the name of a command: what is wrong with the name, if anything, and the command, which
has the name it resolves to or, where there is none, is left as it was. -/
def resolveCommand (r : Resolver) (c : Command) : Option ShellError × Command :=
  match r.resolve c.name with
  | .ok name => (none, { c with resolved := some name })
  | .error error => (some error, c)

theorem resolveCommand_ok {r : Resolver} {c : Command} {name : Text}
    (h : r.resolve c.name = .ok name) :
    r.resolveCommand c = (none, { c with resolved := some name }) := by
  rw [resolveCommand, h]

theorem resolveCommand_error {r : Resolver} {c : Command} {error : ShellError}
    (h : r.resolve c.name = .error error) : r.resolveCommand c = (some error, c) := by
  rw [resolveCommand, h]

end Resolver

end PrefixShell
