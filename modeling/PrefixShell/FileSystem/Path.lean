import PrefixShell.FileSystem.FileName

/-!
# Paths

A path is kept as it is spelled: the names between its slashes, empty ones among them. So `/a/b`
is the names empty, `a` and `b`, and `a/` is `a` and empty.

Two readings of a path are used. Following it, every name counts but the empty ones, and a slash
at the end asks for a directory. Comparing it, a `.` counts only at the very beginning.

## Main results

* `ofText_display`: a path keeps its spelling.
-/

namespace PrefixShell

/-- A path, as the names between its slashes. -/
structure Path where
  names : List FileName
deriving DecidableEq, Repr

namespace Path

def ofText (t : Text) : Path := ⟨(t.splitOn '/').map .text⟩

/-- The spelling of a path. -/
def display (p : Path) : Text := List.intercalate ['/'] (p.names.map FileName.display)

/-- A path keeps its spelling. -/
theorem ofText_display (t : Text) : (ofText t).display = t := by
  have h : (FileName.display ∘ FileName.text) = id := rfl
  rw [display, ofText, List.map_map, h, List.map_id]
  exact List.intercalate_splitOn '/'

def root : Path := ⟨[.empty, .empty]⟩

def dot : Path := ⟨[.dot]⟩

def ofName (name : FileName) : Path := ⟨[name]⟩

/-- Whether nothing is spelled. -/
def isEmpty (p : Path) : Bool := p.names = [] || p.names = [.empty]

/-- Whether the path begins with a slash. -/
def isAbsolute (p : Path) : Bool := p.names.length ≥ 2 && p.names.head? = some .empty

/-- Whether the path ends with a slash. -/
def endsInSlash (p : Path) : Bool := p.names.length ≥ 2 && p.names.getLast? = some .empty

/-- The path after which another is put: with one slash between them, or the other alone if that
is absolute. -/
def join (p q : Path) : Path :=
  if q.isAbsolute then q
  else if p.isEmpty || p.endsInSlash then ⟨p.names.dropLast ++ q.names⟩
  else ⟨p.names ++ q.names⟩

/-- The path of an entry in a directory. -/
def joinName (p : Path) (name : FileName) : Path := p.join (ofName name)

def byteLength (p : Path) : Nat :=
  p.names.foldr (fun name length => name.toBytes.length + length) (p.names.length - 1)

/-- Whether the spelling holds a NUL, which no name can. -/
def hasNul (p : Path) : Bool := p.names.any (·.toBytes.contains 0)

/-- The names to follow, one after the other. -/
def steps (p : Path) : List FileName :=
  p.names.filter (· ≠ .empty) ++ if p.endsInSlash then [.dot] else []

/-- A part of a path that counts in a comparison. -/
inductive Component where
  | root
  | dot
  | dotDot
  | name (n : FileName)
deriving DecidableEq, Repr

/-- The component that a name beyond the first is, if it counts. -/
def component? (n : FileName) : Option Component :=
  if n = .empty || n = .dot then none
  else if n = .dotDot then some .dotDot
  else some (.name n)

/-- The parts of a path that count in a comparison. -/
def components (p : Path) : List Component :=
  let front :=
    if p.isAbsolute then [.root]
    else if p.names.head? = some .dot then [.dot]
    else []
  front ++ p.names.filterMap component?

/-- Whether the path is another spelling of `.`. -/
def isDot (p : Path) : Bool := p.components = [.dot]

/-- Whether the path begins with the name `.`. -/
def beginsWithDot (p : Path) : Bool := p.components.head? = some .dot

end Path

end PrefixShell
