import PrefixShell.Text.Utf8

/-!
# File names

The name of an entry in a directory. Most names are texts; one whose bytes are no text is kept as
its bytes. A text typed in a command line can only be a name of the first sort.
-/

namespace PrefixShell

/-- The name of an entry in a directory. -/
inductive FileName where
  | text (t : Text)
  /-- A name whose bytes are no text. -/
  | bytes (bs : List UInt8)
deriving DecidableEq, Repr

namespace FileName

def ofBytes (bs : List UInt8) : FileName :=
  match Utf8.text? bs with
  | some t => text t
  | none => bytes bs

def toBytes : FileName → List UInt8
  | text t => Utf8.encode t
  | bytes bs => bs

/-- The name as a text, if it is one. -/
def text? : FileName → Option Text
  | text t => some t
  | bytes _ => none

/-- The name as it is shown, whether it is a text or not. -/
def display : FileName → Text
  | text t => t
  | bytes bs => Utf8.display bs

/-- No name at all: what stands between two slashes in a row. -/
def empty : FileName := text []

/-- The name `.`, by which a directory calls itself. -/
def dot : FileName := text ['.']

/-- The name `..`, by which a directory calls the one that holds it. -/
def dotDot : FileName := text ['.', '.']

end FileName

end PrefixShell
