import PrefixShell.FileSystem.Failure
import PrefixShell.FileSystem.Path

/-!
# The file tree

Directories, files and symbolic links, each at its location: the names that lead to it from the
root through directories alone. A file may be a program, which is then described by what it does
when it is started.

## Main results

* `node?_put_self`, `node?_remove_self`: what is put somewhere is there, and what is taken away is
  not.
* `mem_children`: the entries of a directory are the names that lead somewhere from it.
-/

namespace PrefixShell

/-- How a program ends. -/
inductive Ending where
  | exit (code : Nat)
  | signal (number : Nat)
deriving DecidableEq, Repr

/-- What a file is good for when it is started. -/
inductive Content where
  /-- For nothing: it is empty. -/
  | data
  /-- For nothing: what it needs in order to run is missing. -/
  | broken
  /-- A program that reports how it was started and the variables of the given names, and ends. -/
  | program (reported : List Text) (ending : Ending)
deriving DecidableEq, Repr

/-- A file: its permission bits and its content. -/
structure File where
  mode : Nat
  content : Content
deriving DecidableEq, Repr

namespace File

/-- Whether anyone may start the file. -/
def isExecutable (f : File) : Bool := f.mode &&& 0o111 ≠ 0

/-- Whether its owner may start the file. -/
def ownerMayStart (f : File) : Bool := f.mode &&& 0o100 ≠ 0

/-- Whether its owner may read the file. -/
def ownerMayRead (f : File) : Bool := f.mode &&& 0o400 ≠ 0

end File

/-- What a location holds. -/
inductive Node where
  | directory
  | file (f : File)
  | link (target : Path)
deriving DecidableEq, Repr

/-- A place in the tree: the names that lead to it from the root. -/
abbrev Location := List FileName

namespace Location

def toPath : Location → Path
  | [] => .root
  | names => ⟨.empty :: names⟩

/-- The location that holds a location; the root holds itself. -/
def parent (l : Location) : Location := l.dropLast

end Location

/-! ## Trees -/

/-- What is at a location and, if it is a directory, what is in it. -/
structure Tree where
  node : Node
  entries : List (FileName × Tree)

namespace Tree

def emptyDirectory : Tree := ⟨.directory, []⟩

/-- What is at a location below. -/
def at? : Tree → Location → Option Tree
  | t, [] => some t
  | t, name :: rest => (t.entries.lookup name).bind fun child => child.at? rest

/-- Leaves out the entry of a name. -/
def erase (t : Tree) (name : FileName) : Tree :=
  { t with entries := t.entries.filter (·.1 ≠ name) }

/-- Binds a name to an entry, whatever it was bound to. -/
def insert (t : Tree) (name : FileName) (child : Tree) : Tree :=
  { t with entries := (name, child) :: (t.erase name).entries }

/-- Puts something at a location below, whatever was there. Directories on the way are newly made
where they are missing. -/
def put (t child : Tree) : Location → Tree
  | [] => child
  | name :: rest =>
    t.insert name (((t.entries.lookup name).getD emptyDirectory).put child rest)

/-- Takes away what is at a location below, with everything in it. -/
def remove (t : Tree) : Location → Tree
  | [] => t
  | [name] => t.erase name
  | name :: rest =>
    match t.entries.lookup name with
    | some child => t.insert name (child.remove rest)
    | none => t

/-- The names in a tree with what they are bound to, in the order of their bytes. -/
def children (t : Tree) : List (FileName × Node) :=
  sortBy UInt8.toNat (·.1.toBytes) (t.entries.map fun (name, child) => (name, child.node))

theorem at?_append (t : Tree) (l l' : Location) :
    t.at? (l ++ l') = (t.at? l).bind fun child => child.at? l' := by
  induction l generalizing t with
  | nil => rfl
  | cons name rest ih =>
    simp only [List.cons_append, at?, Option.bind_assoc]
    congr 1
    funext child
    exact ih child

@[simp] theorem lookup_insert (t child : Tree) (name : FileName) :
    (t.insert name child).entries.lookup name = some child := by
  simp [insert]

@[simp] theorem lookup_erase (t : Tree) (name : FileName) :
    (t.erase name).entries.lookup name = none := by
  rw [erase, List.lookup_eq_none_iff]
  intro entry h
  simpa using Ne.symm (of_decide_eq_true (List.mem_filter.1 h).2)

theorem at?_put_self (t child : Tree) (l : Location) : (t.put child l).at? l = some child := by
  induction l generalizing t with
  | nil => rfl
  | cons name rest ih => simp [put, at?, ih]

theorem at?_remove_self (t : Tree) {l : Location} (h : l ≠ []) : (t.remove l).at? l = none := by
  induction l generalizing t with
  | nil => exact absurd rfl h
  | cons name rest ih =>
    cases rest with
    | nil => simp [remove, at?]
    | cons next rest =>
      rw [remove]
      split
      · rename_i child _
        simpa [at?] using ih child (List.cons_ne_nil next rest)
      · rename_i hnone
        simp [at?, hnone]
      · simp

theorem lookup_isSome_iff {α β : Type} [BEq α] [LawfulBEq α] {a : α} {l : List (α × β)} :
    (l.lookup a).isSome ↔ a ∈ l.map Prod.fst := by
  induction l with
  | nil => simp
  | cons x l ih =>
    obtain ⟨a', b'⟩ := x
    by_cases h : a = a'
    · subst h; simp
    · have h' : (a == a') = false := by simpa using h
      simp [List.lookup_cons, h', ih, h]

theorem mem_children_names {t : Tree} {name : FileName} :
    name ∈ t.children.map Prod.fst ↔ (t.at? [name]).isSome := by
  have hp := ((sortBy_perm UInt8.toNat (·.1.toBytes)
    (t.entries.map fun (name, child) => (name, child.node))).map Prod.fst).mem_iff (a := name)
  have he : t.at? [name] = t.entries.lookup name := Option.bind_fun_some _
  rw [children, hp, he, lookup_isSome_iff, List.map_map]
  rfl

end Tree

/-! ## The file system -/

/-- The file tree, as what its root holds. -/
structure FileSystem where
  entries : List (FileName × Tree)

namespace FileSystem

/-- The tree of which the root is all. -/
def empty : FileSystem := ⟨[]⟩

/-- The whole tree. The root is a directory. -/
def tree (fs : FileSystem) : Tree := ⟨.directory, fs.entries⟩

def node? (fs : FileSystem) (l : Location) : Option Node := (fs.tree.at? l).map Tree.node

/-- The entries of a directory and what they are, in the order of their bytes. -/
def children (fs : FileSystem) (directory : Location) : List (FileName × Node) :=
  ((fs.tree.at? directory).map Tree.children).getD []

/-- Puts a node at a location other than the root, whatever was there. Directories on the way are
newly made where they are missing. -/
def put (fs : FileSystem) (l : Location) (n : Node) : FileSystem :=
  if l = [] then fs else ⟨(fs.tree.put ⟨n, []⟩ l).entries⟩

/-- Takes away what is at a location other than the root, with everything in it. -/
def remove (fs : FileSystem) (l : Location) : FileSystem := ⟨(fs.tree.remove l).entries⟩

theorem tree_put (fs : FileSystem) {l : Location} (n : Node) (h : l ≠ []) :
    (fs.put l n).tree = fs.tree.put ⟨n, []⟩ l := by
  cases l with
  | nil => exact absurd rfl h
  | cons name rest => rfl

theorem tree_remove (fs : FileSystem) (l : Location) : (fs.remove l).tree = fs.tree.remove l := by
  unfold remove tree
  unfold Tree.remove
  split <;> try rfl
  split <;> rfl

/-- What is put somewhere is there. -/
theorem node?_put_self (fs : FileSystem) {l : Location} (n : Node) (h : l ≠ []) :
    (fs.put l n).node? l = some n := by
  rw [node?, tree_put fs n h, Tree.at?_put_self]
  rfl

/-- What is taken away is not there. -/
theorem node?_remove_self (fs : FileSystem) {l : Location} (h : l ≠ []) :
    (fs.remove l).node? l = none := by
  rw [node?, tree_remove, Tree.at?_remove_self _ h]
  rfl

/-- The entries of a directory are the names that lead somewhere from it. -/
theorem mem_children {fs : FileSystem} {directory : Location} {name : FileName} :
    name ∈ (fs.children directory).map Prod.fst ↔ (fs.node? (directory ++ [name])).isSome := by
  rw [children, node?, Tree.at?_append]
  cases fs.tree.at? directory with
  | none => simp
  | some t => simpa using Tree.mem_children_names

end FileSystem

end PrefixShell
