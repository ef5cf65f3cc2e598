import PrefixShell.Proofs.Trie.NameSet

/-!
# Paths through the arena

`WellFormed` speaks of the arena in the terms of the operations, of where a character or a text leads.
Here the same is said of the links themselves: of the pairs that the nodes hold, and of the paths that
these make.  Every node has one path to it, and a name that ends at a node is its path.

An index that is not in the arena is read as an empty node, so that a wrong one would not be noticed.
`reading` notices it.  The operations are done once more with it, and in a tree they come to the same.

## Main results

* `WellFormed.path_iff`: a text leads to a node exactly if it is a path to it.
* `probe_eq`, `contains?_eq`, `search?_eq`, `insert?_eq`: no operation reads outside the arena.
* `WellFormed.acc_turn`: a search ends, whatever turns it takes.
* `replay_isTree`: after any changes the arena is a tree whose names are spelled by its paths.
-/

namespace PrefixShell.Trie

/-! ## Links and paths -/

/-- Whether a node has another for its child by a character. -/
def Link (t : Trie) (id : Nat) (c : Char) (k : Nat) : Prop := (c, k) ∈ (t.node id).children

/-- The path from the root to a node, link by link. -/
inductive Path (t : Trie) : Text → Nat → Prop
  | root : Path t [] 0
  | link {s : Text} {id k : Nat} {c : Char} (h : Path t s id) (hlink : t.Link id c k) :
      Path t (s ++ [c]) k

variable {t : Trie}

namespace WellFormed

theorem link_iff (h : WellFormed t) {id k : Nat} {c : Char} :
    t.Link id c k ↔ t.child? id c = some k :=
  mem_iff_lookup (h.keys_nodup id)

/-- A text leads to a node exactly if it is a path to it. -/
theorem path_iff (h : WellFormed t) {s : Text} {id : Nat} : t.Path s id ↔ t.find? s = some id := by
  constructor
  · intro hpath
    induction hpath with
    | root => rfl
    | link _ hlink ih =>
        rw [find?_concat, ih]
        exact h.link_iff.1 hlink
  · intro hfind
    induction s using List.reverseRecOn generalizing id with
    | nil =>
        cases hfind
        exact .root
    | append_singleton s c ih =>
        rw [find?_concat] at hfind
        obtain ⟨k, hk, hchild⟩ := Option.bind_eq_some_iff.1 hfind
        exact .link (ih hk) (h.link_iff.2 hchild)

/-- Every node but the root is the child of one node by one character. -/
theorem existsUnique_link (h : WellFormed t) {k : Nat} (hpos : 0 < k) (hk : k < t.nodes.size) :
    ∃! p : Nat × Char, t.Link p.1 p.2 k := by
  obtain ⟨id, c, hchild⟩ := h.has_parent hpos hk
  refine ⟨(id, c), h.link_iff.2 hchild, ?_⟩
  rintro ⟨other, d⟩ hlink
  obtain ⟨rfl, rfl⟩ := h.child_inj (h.link_iff.1 hlink) hchild
  rfl

end WellFormed

/-! ## Reading within the arena -/

/-- What comes of reading a node, which has to be in the arena. -/
def reading {α : Type} (t : Trie) (id : Nat) (r : Option α) : Option α :=
  if id < t.nodes.size then r else none

/-- Goes down as `descend?` does, reading each node that it leaves. -/
def probe (t : Trie) (id : Nat) : Text → Option (Option Nat)
  | [] => some (some id)
  | c :: name => t.reading id <|
    match t.child? id c with
    | none => some none
    | some k => t.probe k name

/-- Looks for a name as `contains` does. -/
def contains? (t : Trie) (name : Text) : Option Bool :=
  (t.probe 0 name).bind fun
    | none => some false
    | some id => t.reading id (some (t.node id).terminal.isSome)

/-- Walks as `walk` does, reading each node that it takes off the stack. -/
def walk? (t : Trie) : Nat → List Nat → Option (List Nat × List Nat)
  | _, [] => some ([], [])
  | 0, stack => some ([], stack)
  | steps + 1, id :: stack => t.reading id <|
    (t.walk? steps (((t.node id).children.map (·.2)).reverse ++ stack)).map fun (met, left) =>
      (id :: met, left)

/-- Looks for members as `search` does. -/
def search? (t : Trie) (beginning : Text) : Option (List Text) :=
  (t.probe 0 beginning).bind fun
    | none => some []
    | some id => (t.walk? t.nodes.size [id]).map fun (met, _) =>
      met.filterMap fun id => (t.node id).terminal

/-- Makes the nodes on a way as `growPath` does, reading each of them, the last one for it to be
marked. -/
def growPath? (t : Trie) (id : Nat) : Text → Option (Trie × Nat)
  | [] => t.reading id (some (t, id))
  | c :: name => t.reading id ((t.grow id c).1.growPath? (t.grow id c).2 name)

/-- Adds a name as `insert` does. -/
def insert? (t : Trie) (name : Text) : Option (Trie × Bool) :=
  if name.isEmpty then some (t, false)
  else (t.growPath? 0 name).map fun (t', id) =>
    if (t'.node id).terminal.isSome then (t', false) else (t'.mark id name, true)

theorem reading_of_lt {α : Type} {id : Nat} (hid : id < t.nodes.size) (r : Option α) :
    t.reading id r = r :=
  if_pos hid

namespace WellFormed

theorem probe_eq (h : WellFormed t) {id : Nat} (hid : id < t.nodes.size) (name : Text) :
    t.probe id name = some (t.descend? id name) := by
  induction name generalizing id with
  | nil => rfl
  | cons c name ih =>
      rw [probe, reading_of_lt hid, descend?_cons]
      cases hchild : t.child? id c with
      | none => rfl
      | some k => exact ih (h.child_bounds hchild).2

theorem contains?_eq (h : WellFormed t) (name : Text) :
    t.contains? name = some (t.contains name) := by
  rw [contains?, contains, h.probe_eq h.root_lt, Option.bind_some, ← find?]
  cases hfind : t.find? name with
  | none => rfl
  | some id => exact reading_of_lt (h.find?_lt hfind) _

theorem walk?_eq (h : WellFormed t) (steps : Nat) {stack : List Nat}
    (hstack : ∀ id ∈ stack, id < t.nodes.size) : t.walk? steps stack = some (t.walk steps stack) := by
  induction steps generalizing stack with
  | zero => cases stack <;> rfl
  | succ steps ih =>
      cases stack with
      | nil => rfl
      | cons id stack =>
          obtain ⟨hid, hstack⟩ := List.forall_mem_cons.1 hstack
          have hchildren : ∀ k ∈ (t.childIds id).reverse, k < t.nodes.size := by
            intro k hk
            obtain ⟨c, hc⟩ := h.mem_childIds.1 (List.mem_reverse.1 hk)
            exact (h.child_bounds hc).2
          rw [walk?, reading_of_lt hid, walk]
          show (t.walk? steps ((t.childIds id).reverse ++ stack)).map _ = _
          rw [ih (List.forall_mem_append.2 ⟨hchildren, hstack⟩)]
          rfl

theorem search?_eq (h : WellFormed t) (beginning : Text) :
    t.search? beginning = some (t.search beginning) := by
  rw [search?, search, h.probe_eq h.root_lt, Option.bind_some, ← find?]
  cases hfind : t.find? beginning with
  | none => rfl
  | some id =>
      show (t.walk? t.nodes.size [id]).map _ = _
      rw [h.walk?_eq _ (List.forall_mem_singleton.2 (h.find?_lt hfind))]
      rfl

theorem growPath?_eq (h : WellFormed t) {id : Nat} (hid : id < t.nodes.size) (name : Text) :
    t.growPath? id name = some (t.growPath id name) := by
  induction name generalizing t id with
  | nil => exact reading_of_lt hid _
  | cons c name ih =>
      have hgrow := wellFormed_grow h c hid
      rw [growPath?, reading_of_lt hid]
      exact ih hgrow (hgrow.child_bounds (child?_grow_self hid)).2

theorem insert?_eq (h : WellFormed t) (name : Text) : t.insert? name = some (t.insert name) := by
  rw [insert?, insert, h.growPath?_eq h.root_lt]
  split <;> rfl

/-! ## Searches -/

/-- All that a search has met and has yet to visit is in the arena, and it has met nothing twice. -/
theorem inside_of_run (h : WellFormed t) {id : Nat} (hid : id < t.nodes.size) {s : Traversal}
    (run : t.Run ⟨[], [id]⟩ s) : s.met.Nodup ∧ ∀ k ∈ s.stack, k < t.nodes.size := by
  have hscope := run.perm h
  simp only [Traversal.scope, List.flatMap_cons, List.flatMap_nil, List.append_nil,
    List.nil_append] at hscope
  refine ⟨(hscope.nodup_iff.1 (h.nodup_subtree hid)).of_append_left, fun k hk => ?_⟩
  refine h.lt_of_mem_subtree hid (hscope.mem_iff.2 (List.mem_append_right _ ?_))
  exact List.mem_flatMap.2 ⟨k, hk, h.mem_subtree.2 ⟨[], rfl⟩⟩

theorem length_met_of_turn {s s' : Traversal} (turn : t.Turn s s') :
    s'.met.length = s.met.length + 1 := by
  cases turn with
  | visit hpushed => simp

/-- A search ends, whatever turns it takes. -/
theorem acc_turn (h : WellFormed t) {id : Nat} (hid : id < t.nodes.size) {s : Traversal}
    (run : t.Run ⟨[], [id]⟩ s) : Acc (fun after before => t.Turn before after) s := by
  -- Each turn meets one more node, and there are only so many.
  induction hn : t.nodes.size - s.met.length using Nat.strong_induction_on generalizing s with
  | _ n ih =>
      refine .intro s fun s' turn => ?_
      have run' : t.Run ⟨[], [id]⟩ s' := run.tail turn
      have hle := run'.length_met_le h hid
      have hlength := length_met_of_turn turn
      exact ih _ (by omega) run' rfl

end WellFormed

/-- Once a walk has come to an empty stack, more steps make no difference to it. -/
theorem walk_add_of_left_eq_nil (t : Trie) {steps : Nat} {stack : List Nat}
    (hleft : (t.walk steps stack).2 = []) (more : Nat) :
    t.walk (steps + more) stack = t.walk steps stack := by
  induction steps generalizing stack with
  | zero =>
      cases stack with
      | nil => cases more <;> rfl
      | cons id stack => cases hleft
  | succ steps ih =>
      cases stack with
      | nil =>
          rw [Nat.add_right_comm]
          rfl
      | cons id stack =>
          rw [Nat.add_right_comm, walk, walk, ih hleft]

/-! ## The tree -/

/-- What it is for an arena to be a tree whose names are spelled by its paths. -/
structure IsTree (t : Trie) : Prop where
  /-- A link leads to a later node of the arena. -/
  link_bounds : ∀ id c k, t.Link id c k → id < k ∧ k < t.nodes.size
  /-- A node has one child at most by a character. -/
  link_unique : ∀ id c k k', t.Link id c k → t.Link id c k' → k = k'
  /-- Every node but the root is the child of one node by one character. -/
  parent : ∀ k, 0 < k → k < t.nodes.size → ∃! p : Nat × Char, t.Link p.1 p.2 k
  /-- A name ends where its path does. -/
  spells : ∀ id name, (t.node id).terminal = some name → ∀ s, t.Path s id ↔ s = name
  root_terminal : (t.node 0).terminal = none
  count_eq : t.count = ((Finset.range t.nodes.size).filter fun id => (t.node id).terminal.isSome).card
  /-- No operation reads outside the arena. -/
  contains_inside : ∀ name, t.contains? name = some (t.contains name)
  search_inside : ∀ beginning, t.search? beginning = some (t.search beginning)
  insert_inside : ∀ name, t.insert? name = some (t.insert name)
  /-- Whatever turns a search takes, it comes upon no node twice and has only nodes of the arena on its
  stack; it goes on until there are none, and it ends. -/
  run_inside : ∀ beginning id s, t.Path beginning id → t.Run ⟨[], [id]⟩ s →
    s.met.Nodup ∧ (∀ k ∈ s.stack, k < t.nodes.size) ∧ (s.stack ≠ [] → ∃ s', t.Turn s s')
  run_ends : ∀ beginning id, t.Path beginning id →
    Acc (fun after before => t.Turn before after) ⟨[], [id]⟩
  /-- When it ends it has met the nodes of the subtree. -/
  run_meets : ∀ beginning id met, t.Path beginning id → t.Run ⟨[], [id]⟩ ⟨met, []⟩ →
    ∀ k, k ∈ met ↔ ∃ s, t.Path (beginning ++ s) k
  /-- The search that is carried out is given enough steps to end. -/
  walk_ends : ∀ beginning id steps, t.Path beginning id → t.nodes.size ≤ steps →
    t.walk steps [id] = t.walk t.nodes.size [id] ∧ (t.walk steps [id]).2 = []

/-- After any changes of an empty trie its arena is a tree, and its names are spelled by the paths. -/
theorem replay_isTree (changes : List Change) : IsTree (replay empty changes) := by
  obtain ⟨h, -⟩ := replay_names changes
  generalize replay empty changes = t at h
  have hlt {s : Text} {id : Nat} (hpath : t.Path s id) : id < t.nodes.size :=
    h.find?_lt (h.path_iff.1 hpath)
  refine
    { link_bounds := fun _ _ _ hlink => h.child_bounds (h.link_iff.1 hlink)
      link_unique := ?_
      parent := fun _ => h.existsUnique_link
      spells := ?_
      root_terminal := h.root_terminal
      count_eq := h.count_eq
      contains_inside := h.contains?_eq
      search_inside := h.search?_eq
      insert_inside := h.insert?_eq
      run_inside := ?_
      run_ends := fun _ _ hpath => h.acc_turn (hlt hpath) .refl
      run_meets := ?_
      walk_ends := ?_ }
  · intro id c k k' hk hk'
    exact Option.some.inj ((h.link_iff.1 hk).symm.trans (h.link_iff.1 hk'))
  · intro id name hname s
    rw [h.path_iff]
    constructor
    · exact fun hfind => h.find?_inj hfind (h.terminal_spells hname)
    · rintro rfl
      exact h.terminal_spells hname
  · intro beginning id s hpath run
    obtain ⟨hnodup, hstack⟩ := h.inside_of_run (hlt hpath) run
    exact ⟨hnodup, hstack, Turn.exists_of_stack⟩
  · intro beginning id met hpath run k
    rw [(run.met_perm h).mem_iff, h.mem_subtree]
    refine exists_congr fun s => ?_
    rw [h.path_iff, find?_append, h.path_iff.1 hpath, Option.bind_some]
  · intro beginning id steps hpath hsteps
    have hleft := walk_left_eq_nil h (hlt hpath)
    obtain ⟨more, rfl⟩ := Nat.exists_eq_add_of_le hsteps
    have hwalk := t.walk_add_of_left_eq_nil hleft more
    exact ⟨hwalk, hwalk ▸ hleft⟩

end PrefixShell.Trie
