import PrefixShell.FileSystem.Site

/-!
# Following paths

Where a path leads, name by name, from the root or from a working directory. Links on the way are
followed, at most forty of them. From a directory that is out of the tree one comes to those that
have held it, and by them back into the tree.
-/

namespace PrefixShell.FileSystem

/-- The number of links that may be followed on the way. -/
def maxLinks : Nat := 40

/-- The number of bytes that a name may have. -/
def maxNameLength : Nat := 255

/-- The number of bytes that a path may have. -/
def maxPathLength : Nat := 4095

/-- Follows names from a location. `links` is the number of links that may still be followed, and
`followLast` tells whether a link is followed that the last name leads to. -/
def walk (fs : FileSystem) (followLast : Bool) (links : Nat) (l : Location) :
    List FileName → Except SystemFailure Location
  | [] => .ok l
  | name :: rest =>
    if name = .dot then walk fs followLast links l rest
    else if name = .dotDot then walk fs followLast links l.parent rest
    else if name.toBytes.length > maxNameLength then .error .nameTooLong
    else
      match fs.node? (l ++ [name]) with
      | none => .error .notFound
      | some .directory => walk fs followLast links (l ++ [name]) rest
      | some (.file _) => if rest = [] then .ok (l ++ [name]) else .error .notDirectory
      | some (.link target) =>
        if rest = [] ∧ followLast = false then .ok (l ++ [name])
        else
          match links with
          | 0 => .error .tooManyLinks
          | links + 1 =>
            walk fs followLast links (if target.isAbsolute then [] else l) (target.steps ++ rest)
termination_by names => (links, names.length)

/-- Follows names from a site. A directory out of the tree holds nothing, but the way out of it is
still open. -/
def follow (fs : FileSystem) (followLast : Bool) (s : Site) :
    List FileName → Except SystemFailure Site
  | [] => .ok s
  | name :: rest =>
    if s.lost = [] then (fs.walk followLast maxLinks s.location (name :: rest)).map .inTree
    else if name = .dot then fs.follow followLast s rest
    else if name = .dotDot then fs.follow followLast s.outward rest
    else .error .notFound

/-- The site that a path leads to, of whatever length the path is. -/
def locateAny (fs : FileSystem) (workingDirectory : Site) (followLast : Bool) (p : Path) :
    Except SystemFailure Site :=
  if p.hasNul then .error .nulInPath
  else if p.isEmpty then .error .notFound
  else fs.follow followLast (if p.isAbsolute then .root else workingDirectory) p.steps

def locate (fs : FileSystem) (workingDirectory : Site) (followLast : Bool) (p : Path) :
    Except SystemFailure Site :=
  if !p.hasNul && p.byteLength > maxPathLength then .error .nameTooLong
  else fs.locateAny workingDirectory followLast p

/-- What a path leads to, links being followed. -/
def at? (fs : FileSystem) (workingDirectory : Site) (p : Path) : Option Node :=
  (fs.locate workingDirectory true p).toOption.bind fs.nodeAt?

/-- Whether a path leads to something, be it a link that leads nowhere. -/
def exists? (fs : FileSystem) (workingDirectory : Site) (p : Path) : Bool :=
  (fs.locate workingDirectory true p).toOption.isSome ||
    (fs.locate workingDirectory false p).toOption.isSome

def isDirectory (fs : FileSystem) (workingDirectory : Site) (p : Path) : Bool :=
  fs.at? workingDirectory p = some .directory

def isExecutable (fs : FileSystem) (workingDirectory : Site) (p : Path) : Bool :=
  match fs.at? workingDirectory p with
  | some (.file f) => f.isExecutable
  | _ => false

/-- The directory that a path leads to, if it leads to one. -/
def directory? (fs : FileSystem) (workingDirectory : Site) (p : Path) : Option Site :=
  (fs.locate workingDirectory true p).toOption.filter fun s => fs.nodeAt? s = some .directory

/-- The names in the directory that a path leads to, if it leads to one. -/
def entries? (fs : FileSystem) (workingDirectory : Site) (p : Path) : Option (List FileName) :=
  (fs.directory? workingDirectory p).map fun s => (fs.childrenAt s).map Prod.fst

/-- The location that a path leads to, for its own path to be used from then on. A directory that
is out of the tree has none. -/
def canonical (fs : FileSystem) (workingDirectory : Site) (p : Path) :
    Except SystemFailure Location :=
  match fs.locateAny workingDirectory true p with
  | .ok s => if s.lost = [] then .ok s.location else .error .notFound
  | .error cause => .error cause

/-! ## Changing the tree by paths -/

/-- Follows names from a location, the directories on the way newly made where they are missing. -/
def makeDirectories (fs : FileSystem) (l : Location) : List FileName → FileSystem × Location
  | [] => (fs, l)
  | name :: rest =>
    match fs.walk true maxLinks l [name] with
    | .ok l' => makeDirectories fs l' rest
    | .error _ => makeDirectories (fs.put (l ++ [name]) .directory) (l ++ [name]) rest

/-- Puts a node where a path leads from a directory. A directory that is there already is kept. -/
def putAt (fs : FileSystem) (directory : Location) (p : Path) (n : Node) : FileSystem :=
  let names := p.names.filter (· ≠ .empty)
  match n, names.getLast? with
  | .directory, _ => (fs.makeDirectories directory names).1
  | _, none => fs
  | _, some name =>
    let (fs', l) := fs.makeDirectories directory names.dropLast
    fs'.put (l ++ [name]) n

end PrefixShell.FileSystem
