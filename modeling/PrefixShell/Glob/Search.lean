import PrefixShell.FileSystem.Walk
import PrefixShell.Glob.Matching

/-!
# Looking up patterns

The paths in a file tree that a pattern stands for. The pattern is taken apart at its slashes and
each piece is looked up in the directories found so far. A piece without wildcards names its entry;
a piece with wildcards is compared with the entries of a directory in the order of their bytes. The
entries `.` and `..` are considered only for a piece that begins with a plain `.`, and come before
the others. What is found in a directory comes right after the directory itself.
-/

namespace PrefixShell.Glob

/-! ## The pieces of a pattern -/

/-- A pattern for paths, taken apart. -/
structure Search where
  /-- The directory in which the search begins. -/
  origin : Path
  pieces : List Pattern
  /-- Whether only directories are looked for. -/
  directoriesOnly : Bool
deriving DecidableEq, Repr

/-- The texts between slashes, a slash at the end ending the last of them. -/
def splitPieces (t : Text) : List Text :=
  let pieces := t.splitOn '/'
  if pieces.getLast? = some [] then pieces.dropLast else pieces

/-- Takes a pattern apart, if it is one as a whole and so are its pieces. -/
def Search.ofText? (t : Text) : Option Search := do
  let _ ← parse? t
  let absolute := t.head? = some '/'
  let rest := if absolute then t.tail else t
  let pieces ← (splitPieces rest).mapM parse?
  return {
    origin := if absolute then .root else .dot
    pieces := if rest.isEmpty then [[]] else pieces
    directoriesOnly := t.getLast? = some '/' }

/-! ## Searching -/

/-- Where a search takes place. -/
structure Place where
  files : FileSystem
  workingDirectory : Site

/-- Where a search has come to. Whether it is a directory is settled when it is found there, and
needs no path that can still be followed. -/
structure Stop where
  path : Path
  isDirectory : Bool
deriving DecidableEq, Repr

namespace Place

/-- What a path leads to. -/
def stopAt (place : Place) (p : Path) : Stop where
  path := p
  isDirectory := place.files.isDirectory place.workingDirectory p

/-- The path of an entry; those of the working directory are spelled by their names alone. -/
def entryPath (p : Path) (name : FileName) : Path :=
  if p.isDot then .ofName name else p.joinName name

/-- Whether an entry named in a pattern is there. -/
def hasEntry (place : Place) (stop : Stop) (name : FileName) : Bool :=
  if name = .dot || name = .dotDot then stop.isDirectory
  else place.files.exists? place.workingDirectory (entryPath stop.path name)

/-- An entry that a directory is seen to have. Only if it is a link does one have to follow its
path to know whether it is a directory. -/
def stopOfNode (place : Place) (p : Path) : Node → Stop
  | .directory => ⟨p, true⟩
  | .file _ => ⟨p, false⟩
  | .link _ => place.stopAt p

/-- The entries of a directory, if they can be read. -/
def entries? (place : Place) (stop : Stop) : Option (List (FileName × Stop)) :=
  if stop.isDirectory then
    (place.files.directory? place.workingDirectory stop.path).map fun directory =>
      (place.files.childrenAt directory).map fun (name, node) =>
        (name, place.stopOfNode (entryPath stop.path name) node)
  else none

/-- The entries `..` and `.`, as far as a pattern that begins with a plain `.` accepts them. -/
def dotEntries (place : Place) (stop : Stop) (pattern : Pattern) : List Stop :=
  if pattern.head? = some (.char '.') then
    ([['.', '.'], ['.']].filter (decides pattern)).map fun name =>
      place.stopAt (stop.path.joinName (.text name))
  else []

/-- Whether a pattern stands for a name; one that is no text has no pattern. -/
def acceptsName (pattern : Pattern) (name : FileName) : Bool := name.text?.any (decides pattern)

/-- What is found, unless it is no directory and only those are looked for. -/
def deliver (directoriesOnly : Bool) (stop : Stop) : List Path :=
  if directoriesOnly && !stop.isDirectory then [] else [stop.path]

mutual

/-- The paths from a stop on that the pieces stand for. `depth` bounds how far down `**` goes. -/
def below (place : Place) (directoriesOnly : Bool) (depth : Nat) (stop : Stop) :
    List Pattern → List Path
  | [] => deliver directoriesOnly stop
  | piece :: pieces =>
    match literal? piece with
    | some t =>
      if place.hasEntry stop (.text t) then
        below place directoriesOnly depth (place.stopAt (entryPath stop.path (.text t))) pieces
      else []
    | none =>
      match place.entries? stop with
      | some entries =>
        (place.dotEntries stop piece).flatMap (fun stop =>
            below place directoriesOnly depth stop pieces) ++
          entries.flatMap fun (name, stop) =>
            atEntry place directoriesOnly depth name stop piece pieces
      | none => []
termination_by pieces => (depth, pieces.length, 0)

/-- The paths at an entry or below it that a piece and those after it stand for. -/
def atEntry (place : Place) (directoriesOnly : Bool) (depth : Nat) (name : FileName) (stop : Stop)
    (piece : Pattern) (pieces : List Pattern) : List Path :=
  if isDeep piece then
    let inside := match depth with
      | 0 => []
      | depth + 1 =>
        if stop.isDirectory then
          below place directoriesOnly depth stop (piece :: pieces.dropWhile isDeep)
        else []
    match h : pieces.dropWhile isDeep with
    | [] => (if stop.isDirectory then [stop.path] else []) ++ inside
    | next :: rest =>
      have : rest.length < pieces.length := by
        have hle := (List.dropWhile_sublist (l := pieces) isDeep).length_le
        rw [h] at hle
        exact hle
      matching place directoriesOnly depth name stop next rest ++ inside
  else matching place directoriesOnly depth name stop piece pieces
termination_by (depth, pieces.length, 2)

/-- The paths at an entry or below it that a piece, which goes no deeper, and those after it stand
for. -/
def matching (place : Place) (directoriesOnly : Bool) (depth : Nat) (name : FileName)
    (stop : Stop) (piece : Pattern) (pieces : List Pattern) : List Path :=
  if acceptsName piece name then below place directoriesOnly depth stop pieces else []
termination_by (depth, pieces.length, 1)

end

/-- How far down `**` can go: every directory on the way makes the path longer. -/
def maxDepth : Nat := FileSystem.maxPathLength

/-- The paths that a pattern for paths stands for. -/
def search (place : Place) (s : Search) : List Path :=
  place.below s.directoriesOnly maxDepth (place.stopAt s.origin) s.pieces

/-- The paths that a text stands for, if it is a pattern at all. -/
def paths (place : Place) (t : Text) : List Path :=
  match Search.ofText? t with
  | some s => place.search s
  | none => []

/-- The paths that a text stands for, as they are shown. -/
def lookUp (place : Place) (t : Text) : List Text := (place.paths t).map Path.display

end Place

end PrefixShell.Glob
