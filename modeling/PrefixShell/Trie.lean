import PrefixShell.Text

/-!
# Trie

A set of names that can be asked for all its members with a given beginning. The nodes lie in one
arena and refer to their children by index; node 0 is the root, and the characters on the way from
the root to a node spell the beginning that the node stands for.

Looking for members walks the arena with a stack of the nodes still to visit. The walk is given
as many steps as there are nodes: in a tree it comes to each node once, so it needs no more.
-/

namespace PrefixShell

namespace Trie

/-- A node: its children by character, and the name that ends here, if one does. -/
structure Node where
  children : List (Char × Nat) := []
  terminal : Option Text := none
deriving DecidableEq, Repr, Inhabited

end Trie

/-- A set of names, as an arena of nodes, with the number of names. -/
structure Trie where
  nodes : Array Trie.Node
  count : Nat
deriving DecidableEq, Repr

namespace Trie

/-- The set without names: a root alone. -/
def empty : Trie := ⟨#[{}], 0⟩

instance : Inhabited Trie := ⟨empty⟩

def node (t : Trie) (id : Nat) : Node := t.nodes.getD id {}

/-- The child of a node by a character. -/
def child? (t : Trie) (id : Nat) (c : Char) : Option Nat := (t.node id).children.lookup c

/-- The node that a text leads to from a given one. -/
def descend? (t : Trie) (id : Nat) (name : Text) : Option Nat := name.foldlM t.child? id

/-- The node that a text leads to from the root. -/
def find? (t : Trie) (name : Text) : Option Nat := t.descend? 0 name

/-! ## Adding names -/

/-- The child of a node by a character, newly made if there is none. -/
def grow (t : Trie) (id : Nat) (c : Char) : Trie × Nat :=
  match t.child? id c with
  | some child => (t, child)
  | none =>
    let child := t.nodes.size
    let nodes := (t.nodes.push {}).modify id fun n =>
      { n with children := n.children ++ [(c, child)] }
    ({ t with nodes }, child)

/-- The node that a text leads to from a given one, the nodes on the way newly made where they
are missing. -/
def growPath (t : Trie) (id : Nat) : Text → Trie × Nat
  | [] => (t, id)
  | c :: name =>
    let (t', child) := t.grow id c
    growPath t' child name

/-- Lets a name end at a node. -/
def mark (t : Trie) (id : Nat) (name : Text) : Trie :=
  { nodes := t.nodes.modify id fun n => { n with terminal := some name }, count := t.count + 1 }

/-- Adds a name, and tells whether it is new. The empty name is never added. -/
def insert (t : Trie) (name : Text) : Trie × Bool :=
  if name.isEmpty then (t, false)
  else
    let (t', id) := t.growPath 0 name
    if (t'.node id).terminal.isSome then (t', false) else (t'.mark id name, true)

/-- The set of the names in a list. -/
def ofList (names : List Text) : Trie := names.foldl (fun t name => (t.insert name).1) empty

/-- The set with all its names taken out. -/
def clear (_ : Trie) : Trie := empty

/-! ## Asking for names -/

def contains (t : Trie) (name : Text) : Bool :=
  match t.find? name with
  | some id => (t.node id).terminal.isSome
  | none => false

/-- Takes nodes off a stack, the top of which is its head, and puts their children on it. Answers
the nodes met and what is left on the stack after the given number of steps. -/
def walk (t : Trie) : Nat → List Nat → List Nat × List Nat
  | _, [] => ([], [])
  | 0, stack => ([], stack)
  | steps + 1, id :: stack =>
    let (met, left) := walk t steps (((t.node id).children.map (·.2)).reverse ++ stack)
    (id :: met, left)

/-- The members with a given beginning, in no particular order. -/
def search (t : Trie) (beginning : Text) : List Text :=
  match t.find? beginning with
  | none => []
  | some id => (t.walk t.nodes.size [id]).1.filterMap fun id => (t.node id).terminal

def toList (t : Trie) : List Text := t.search []

def isEmpty (t : Trie) : Bool := t.count = 0

end Trie

end PrefixShell
