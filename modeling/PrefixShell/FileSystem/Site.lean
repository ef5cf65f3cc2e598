import PrefixShell.FileSystem.Tree

/-!
# Sites

Where a path can lead. Mostly this is a location in the tree. But a directory in which someone works
can be taken out of the tree. It is then empty for good, even if a directory of its name is made
anew; all that it still knows is itself and the directory that has held it.
-/

namespace PrefixShell

/-- Where a path can lead. -/
structure Site where
  /-- The part of the way that is in the tree. -/
  location : Location
  /-- The names of the directories on the rest of the way, which are out of the tree. -/
  lost : List FileName := []
deriving DecidableEq, Repr

namespace Site

def inTree (l : Location) : Site := { location := l }

def root : Site := inTree []

/-- The names on the whole way. -/
def names (s : Site) : List FileName := s.location ++ s.lost

/-- The path that leads, or has led, to a site. -/
def toPath (s : Site) : Path := Location.toPath s.names

/-- The directory that holds a site that is out of the tree. -/
def outward (s : Site) : Site := { s with lost := s.lost.dropLast }

/-- A site after what is at a location has been taken out of the tree. -/
def without (s : Site) (l : Location) : Site :=
  if l ≠ [] ∧ l.isPrefixOf s.location then
    ⟨l.parent, s.location.drop l.parent.length ++ s.lost⟩
  else s

end Site

namespace FileSystem

/-- What is at a site. Out of the tree there are only directories. -/
def nodeAt? (fs : FileSystem) (s : Site) : Option Node :=
  if s.lost = [] then fs.node? s.location else some .directory

/-- The entries of a directory in or out of the tree and what they are, in the order of their
bytes. -/
def childrenAt (fs : FileSystem) (s : Site) : List (FileName × Node) :=
  if s.lost = [] then fs.children s.location else []

end FileSystem

end PrefixShell
