import Mathlib.Data.List.Nodup
import Mathlib.Logic.Relation
import PrefixShell.Proofs.Trie.Arena

/-!
# Walking a subtree

A search goes through the nodes below one node with a stack of those it has still to visit.  Which
child of a node comes first is left open: the children are a map, and a map is gone through in any
order.  So a turn of the search is a relation here, and the statements hold of whatever turns it
takes; `Trie.walk` takes some of them.

What carries the proofs is that the nodes met so far, together with the subtrees of the nodes on the
stack, are always the subtree of the node where the search began (`Turn.perm`).  A subtree has no
node twice, so the search meets each once and ends.

## Main results

* `mem_subtree`, `nodup_subtree`: a subtree is the nodes that can be come to, each once.
* `Run.perm`: the invariant of a search.
* `Run.length_met_le`: a search takes no more turns than there are nodes.
* `run_search`: with as many steps as there are nodes, `walk` comes to an empty stack.
-/

namespace PrefixShell.Trie

/-! ## Children -/

def childIds (t : Trie) (id : Nat) : List Nat := (t.node id).children.map (·.2)

theorem mem_iff_lookup {l : List (Char × Nat)} (hl : (l.map Prod.fst).Nodup) {c : Char}
    {k : Nat} : (c, k) ∈ l ↔ l.lookup c = some k := by
  induction l with
  | nil => simp
  | cons p l ih =>
      obtain ⟨d, j⟩ := p
      rw [List.map_cons, List.nodup_cons] at hl
      by_cases hd : c = d
      · subst hd
        have hout : (c, k) ∉ l := fun hmem => hl.1 (List.mem_map.2 ⟨(c, k), hmem, rfl⟩)
        simp [hout, eq_comm]
      · have hbeq : (c == d) = false := by simpa using hd
        rw [List.lookup_cons, hbeq, List.mem_cons]
        simp [hd, ih hl.2]

namespace WellFormed

variable {t : Trie}

theorem mem_childIds (h : WellFormed t) {id k : Nat} :
    k ∈ t.childIds id ↔ ∃ c, t.child? id c = some k := by
  simp only [childIds, List.mem_map, Prod.exists, exists_eq_right]
  exact exists_congr fun c => mem_iff_lookup (h.keys_nodup id)

theorem nodup_childIds (h : WellFormed t) (id : Nat) : (t.childIds id).Nodup := by
  refine List.Nodup.map_on ?_ (List.Nodup.of_map _ (h.keys_nodup id))
  rintro ⟨c, k⟩ hc ⟨d, j⟩ hd rfl
  have hck := (mem_iff_lookup (h.keys_nodup id)).1 hc
  have hdk := (mem_iff_lookup (h.keys_nodup id)).1 hd
  rw [(h.child_inj hck hdk).2]

/-- What holds of a node whenever it holds of its children holds of all nodes. -/
theorem induction_up (h : WellFormed t) {motive : Nat → Prop}
    (step : ∀ id, (∀ k ∈ t.childIds id, motive k) → motive id) (id : Nat) : motive id := by
  induction hn : t.nodes.size - id using Nat.strong_induction_on generalizing id with
  | _ n ih =>
      apply step
      intro k hk
      obtain ⟨c, hc⟩ := h.mem_childIds.1 hk
      have hbounds := h.child_bounds hc
      exact ih (t.nodes.size - k) (by omega) k rfl

end WellFormed

/-! ## Subtrees -/

/-- A node and all nodes below it.  Links that lead back or out of the arena are left out, but a tree
has none. -/
def subtree (t : Trie) (id : Nat) : List Nat :=
  id :: (t.childIds id).flatMap fun k =>
    if _h : id < k ∧ k < t.nodes.size then subtree t k else []
termination_by t.nodes.size - id

namespace WellFormed

variable {t : Trie}

theorem subtree_eq (h : WellFormed t) (id : Nat) :
    t.subtree id = id :: (t.childIds id).flatMap t.subtree := by
  rw [subtree]
  congr 1
  apply List.flatMap_congr
  intro k hk
  obtain ⟨c, hc⟩ := h.mem_childIds.1 hk
  rw [dif_pos (h.child_bounds hc)]

/-- The nodes of a subtree are those that some text leads to. -/
theorem mem_subtree (h : WellFormed t) {id k : Nat} :
    k ∈ t.subtree id ↔ ∃ s, t.descend? id s = some k := by
  induction id using h.induction_up with
  | step id ih =>
      rw [h.subtree_eq, List.mem_cons, List.mem_flatMap]
      constructor
      · rintro (rfl | ⟨j, hj, hk⟩)
        · exact ⟨[], rfl⟩
        · obtain ⟨c, hc⟩ := h.mem_childIds.1 hj
          obtain ⟨s, hs⟩ := (ih j hj).1 hk
          refine ⟨c :: s, ?_⟩
          rw [descend?_cons, hc]
          exact hs
      · rintro ⟨s, hs⟩
        cases s with
        | nil => exact .inl (Option.some.inj hs).symm
        | cons c s =>
            rw [descend?_cons] at hs
            obtain ⟨j, hj, hs⟩ := Option.bind_eq_some_iff.1 hs
            have hmem := h.mem_childIds.2 ⟨c, hj⟩
            exact .inr ⟨j, hmem, (ih j hmem).2 ⟨s, hs⟩⟩

theorem lt_of_mem_subtree (h : WellFormed t) {id k : Nat} (hid : id < t.nodes.size)
    (hk : k ∈ t.subtree id) : k < t.nodes.size := by
  obtain ⟨p, hp⟩ := h.exists_find? hid
  obtain ⟨s, hs⟩ := h.mem_subtree.1 hk
  have hfind : t.find? (p ++ s) = some k := by
    rw [find?_append, hp]
    exact hs
  exact h.find?_lt hfind

/-- The subtrees of two children have no node in common. -/
private theorem disjoint_subtree (h : WellFormed t) {id a b : Nat} (hid : id < t.nodes.size)
    (ha : a ∈ t.childIds id) (hb : b ∈ t.childIds id) (hab : a ≠ b) :
    (t.subtree a).Disjoint (t.subtree b) := by
  intro k hka hkb
  obtain ⟨p, hp⟩ := h.exists_find? hid
  obtain ⟨c, hc⟩ := h.mem_childIds.1 ha
  obtain ⟨d, hd⟩ := h.mem_childIds.1 hb
  obtain ⟨s, hs⟩ := h.mem_subtree.1 hka
  obtain ⟨u, hu⟩ := h.mem_subtree.1 hkb
  have hfind : t.find? (p ++ c :: s) = some k := find?_append_cons hp hc hs
  have hfind' : t.find? (p ++ d :: u) = some k := find?_append_cons hp hd hu
  have heq := List.append_cancel_left (h.find?_inj hfind hfind')
  have hcd : c = d := (List.cons.inj heq).1
  rw [hcd] at hc
  exact hab (Option.some.inj (hc.symm.trans hd))

/-- A subtree has no node twice. -/
theorem nodup_subtree (h : WellFormed t) {id : Nat} (hid : id < t.nodes.size) :
    (t.subtree id).Nodup := by
  induction id using h.induction_up with
  | step id ih =>
      rw [h.subtree_eq, List.nodup_cons]
      constructor
      · intro hmem
        obtain ⟨k, hk, hmem⟩ := List.mem_flatMap.1 hmem
        obtain ⟨c, hc⟩ := h.mem_childIds.1 hk
        obtain ⟨s, hs⟩ := h.mem_subtree.1 hmem
        have hlt := (h.child_bounds hc).1
        have hle := h.le_of_descend? hs
        omega
      · refine List.nodup_flatMap.2 ⟨?_, ?_⟩
        · intro k hk
          obtain ⟨c, hc⟩ := h.mem_childIds.1 hk
          exact ih k hk (h.child_bounds hc).2
        · refine (h.nodup_childIds id).imp_of_mem ?_
          intro a b ha hb hab
          exact disjoint_subtree h hid ha hb hab

/-- A subtree has no more nodes than there are. -/
theorem length_subtree_le (h : WellFormed t) {id : Nat} (hid : id < t.nodes.size) :
    (t.subtree id).length ≤ t.nodes.size := by
  have hsub : t.subtree id ⊆ List.range t.nodes.size := by
    intro k hk
    exact List.mem_range.2 (h.lt_of_mem_subtree hid hk)
  have hle := ((h.nodup_subtree hid).subperm hsub).length_le
  rwa [List.length_range] at hle

end WellFormed

/-! ## Searches in the making -/

/-- How far a search has come: the nodes met, and those still to visit, the next one first. -/
structure Traversal where
  met : List Nat
  stack : List Nat

/-- A turn of a search: the node on top of the stack is met, and its children are put in its place,
in any order. -/
inductive Turn (t : Trie) : Traversal → Traversal → Prop
  | visit {met stack pushed : List Nat} {id : Nat} (hpushed : pushed.Perm (t.childIds id)) :
      Turn t ⟨met, id :: stack⟩ ⟨met ++ [id], pushed ++ stack⟩

/-- Any number of turns. -/
def Run (t : Trie) : Traversal → Traversal → Prop := Relation.ReflTransGen t.Turn

/-- The nodes that a search has met or has yet to meet. -/
def Traversal.scope (s : Traversal) (t : Trie) : List Nat := s.met ++ s.stack.flatMap t.subtree

variable {t : Trie} {s s' : Traversal}

/-- Unless its stack is empty, a search goes on. -/
theorem Turn.exists_of_stack (hs : s.stack ≠ []) : ∃ s', t.Turn s s' := by
  obtain ⟨met, stack⟩ := s
  cases stack with
  | nil => exact absurd rfl hs
  | cons id stack => exact ⟨_, .visit (.refl _)⟩

/-- A turn moves a node from those to be met to those met. -/
theorem Turn.perm (h : WellFormed t) (turn : t.Turn s s') : (s.scope t).Perm (s'.scope t) := by
  cases turn with
  | @visit met stack pushed id hpushed =>
      have hchildren : ((t.childIds id).flatMap t.subtree).Perm (pushed.flatMap t.subtree) :=
        hpushed.symm.flatMap_right t.subtree
      simp only [Traversal.scope, List.flatMap_cons, List.flatMap_append, h.subtree_eq id,
        List.append_assoc, List.cons_append, List.nil_append]
      exact ((hchildren.append_right _).cons id).append_left met

theorem Run.perm (h : WellFormed t) (run : t.Run s s') : (s.scope t).Perm (s'.scope t) := by
  induction run with
  | refl => exact .refl _
  | tail _ turn ih => exact ih.trans (turn.perm h)

/-- A search from a node takes no more turns than there are nodes: each turn meets one, and it never
meets one twice. -/
theorem Run.length_met_le (h : WellFormed t) {id : Nat} (hid : id < t.nodes.size)
    (run : t.Run ⟨[], [id]⟩ s) : s.met.length ≤ t.nodes.size := by
  have hscope := (run.perm h).length_eq
  have hle := h.length_subtree_le hid
  simp only [Traversal.scope, List.flatMap_cons, List.flatMap_nil, List.append_nil,
    List.nil_append, List.length_append] at hscope
  omega

/-- A search that has come to its end has met the subtree of the node that it began with. -/
theorem Run.met_perm (h : WellFormed t) {id : Nat} {met : List Nat}
    (run : t.Run ⟨[], [id]⟩ ⟨met, []⟩) : met.Perm (t.subtree id) := by
  have hscope := run.perm h
  simp only [Traversal.scope, List.flatMap_cons, List.flatMap_nil, List.append_nil,
    List.nil_append] at hscope
  exact hscope.symm

/-! ## The search that is carried out -/

theorem run_walk (t : Trie) (steps : Nat) (met stack : List Nat) :
    t.Run ⟨met, stack⟩ ⟨met ++ (t.walk steps stack).1, (t.walk steps stack).2⟩ := by
  induction steps generalizing met stack with
  | zero =>
      cases stack <;> simpa [walk, Run] using Relation.ReflTransGen.refl
  | succ steps ih =>
      cases stack with
      | nil => simpa [walk, Run] using Relation.ReflTransGen.refl
      | cons id stack =>
          have hturn : t.Turn ⟨met, id :: stack⟩
              ⟨met ++ [id], (t.childIds id).reverse ++ stack⟩ :=
            .visit (List.reverse_perm _)
          have hrest := ih (met ++ [id]) ((t.childIds id).reverse ++ stack)
          rw [List.append_assoc] at hrest
          exact hrest.head hturn

/-- A walk that has left something took all its steps. -/
theorem length_walk_of_left (t : Trie) (steps : Nat) (stack : List Nat)
    (hleft : (t.walk steps stack).2 ≠ []) : (t.walk steps stack).1.length = steps := by
  induction steps generalizing stack with
  | zero => cases stack <;> rfl
  | succ steps ih =>
      cases stack with
      | nil => exact absurd rfl hleft
      | cons id stack => exact congrArg (· + 1) (ih _ hleft)

/-- As many steps as there are nodes are enough to come to an empty stack. -/
theorem walk_left_eq_nil (h : WellFormed t) {id : Nat} (hid : id < t.nodes.size) :
    (t.walk t.nodes.size [id]).2 = [] := by
  by_contra hleft
  have hlength := length_walk_of_left t t.nodes.size [id] hleft
  have hscope := ((run_walk t t.nodes.size [] [id]).perm h).length_eq
  have hle := h.length_subtree_le hid
  -- Something on the stack would make the subtree larger than the arena.
  obtain ⟨k, stack, hstack⟩ := List.exists_cons_of_ne_nil hleft
  simp only [Traversal.scope, hstack, h.subtree_eq k, List.flatMap_cons, List.flatMap_nil,
    List.append_nil, List.nil_append, List.cons_append, List.length_append, List.length_cons,
    hlength] at hscope
  omega

theorem run_search (h : WellFormed t) {id : Nat} (hid : id < t.nodes.size) :
    t.Run ⟨[], [id]⟩ ⟨(t.walk t.nodes.size [id]).1, []⟩ := by
  have hrun := run_walk t t.nodes.size [] [id]
  rwa [walk_left_eq_nil h hid, List.nil_append] at hrun

end PrefixShell.Trie
