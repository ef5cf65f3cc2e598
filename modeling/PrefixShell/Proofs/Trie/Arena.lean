import Mathlib.Data.Finset.Card
import Mathlib.Data.List.Induction
import Mathlib.Data.List.Nodup
import PrefixShell.Trie

/-!
# The arena is a tree

The links of a trie are plain indices, so nothing in its type keeps them from leading out of the
arena or round in a circle.  That they do not is the invariant `WellFormed`.  It is preserved where
a node is made, which is in `grow`, and where a name is put down, which is in `mark`; insertion is
made of these two.

## Main results

* `WellFormed.find?_inj`: no two texts lead to one node.
* `wellFormed_grow`, `wellFormed_mark`: the two steps that change an arena keep it a tree.
* `grown_growPath`: making the nodes on the way of a name changes nothing else.
-/

namespace PrefixShell.Trie

/-! ## Going down -/

theorem descend?_cons (t : Trie) (id : Nat) (c : Char) (s : Text) :
    t.descend? id (c :: s) = (t.child? id c).bind fun k => t.descend? k s := by
  simp only [descend?, List.foldlM_cons]
  rfl

theorem descend?_append (t : Trie) (id : Nat) (s u : Text) :
    t.descend? id (s ++ u) = (t.descend? id s).bind fun k => t.descend? k u := by
  simp only [descend?, List.foldlM_append]
  rfl

theorem find?_append (t : Trie) (s u : Text) :
    t.find? (s ++ u) = (t.find? s).bind fun k => t.descend? k u :=
  descend?_append t 0 s u

theorem find?_concat (t : Trie) (s : Text) (c : Char) :
    t.find? (s ++ [c]) = (t.find? s).bind fun k => t.child? k c := by
  rw [find?_append]
  congr 1
  funext k
  rw [descend?_cons]
  cases t.child? k c <;> rfl

/-- The way to a node, the link to one of its children and the way on from there are one way. -/
theorem find?_append_cons {t : Trie} {p s : Text} {c : Char} {id j k : Nat}
    (hp : t.find? p = some id) (hc : t.child? id c = some j) (hs : t.descend? j s = some k) :
    t.find? (p ++ c :: s) = some k := by
  rw [find?_append, hp, Option.bind_some, descend?_cons, hc]
  exact hs

/-- Links that are kept lead where they led. -/
theorem descend?_mono {t t' : Trie}
    (hchild : ∀ {id c k}, t.child? id c = some k → t'.child? id c = some k) {id k : Nat} {s : Text}
    (h : t.descend? id s = some k) : t'.descend? id s = some k := by
  induction s generalizing id with
  | nil => exact h
  | cons c s ih =>
      rw [descend?_cons] at h ⊢
      obtain ⟨j, hj, hs⟩ := Option.bind_eq_some_iff.1 h
      rw [hchild hj]
      exact ih hs

/-! ## The invariant -/

/-- The nodes at which a name ends. -/
def ends (t : Trie) : Finset Nat :=
  (Finset.range t.nodes.size).filter fun id => (t.node id).terminal.isSome

/-- The arena is a tree, and the name that ends at a node is the way there. -/
structure WellFormed (t : Trie) : Prop where
  root_lt : 0 < t.nodes.size
  /-- The children of a node are a map. -/
  keys_nodup : ∀ id, ((t.node id).children.map Prod.fst).Nodup
  /-- A link leads to a later node, and never out of the arena. -/
  child_bounds : ∀ {id c k}, t.child? id c = some k → id < k ∧ k < t.nodes.size
  /-- Only one link leads to a node. -/
  child_inj : ∀ {a b c d k}, t.child? a c = some k → t.child? b d = some k → a = b ∧ c = d
  has_parent : ∀ {k}, 0 < k → k < t.nodes.size → ∃ id c, t.child? id c = some k
  terminal_spells : ∀ {id name}, (t.node id).terminal = some name → t.find? name = some id
  root_terminal : (t.node 0).terminal = none
  count_eq : t.count = t.ends.card

theorem node_of_size_le {t : Trie} {id : Nat} (h : t.nodes.size ≤ id) : t.node id = {} := by
  simp [node, h]

theorem lt_of_terminal {t : Trie} {id : Nat} {name : Text}
    (h : (t.node id).terminal = some name) : id < t.nodes.size := by
  apply Nat.lt_of_not_le
  intro hle
  rw [node_of_size_le hle] at h
  cases h

theorem node_empty (id : Nat) : empty.node id = {} := by
  cases id with
  | zero => rfl
  | succ id => exact node_of_size_le (Nat.succ_le_succ (Nat.zero_le id))

theorem wellFormed_empty : WellFormed empty := by
  have hchild : ∀ id c, empty.child? id c = none := by
    intro id c
    rw [child?, node_empty]
    rfl
  refine
    { root_lt := Nat.one_pos
      keys_nodup := ?_
      child_bounds := ?_
      child_inj := ?_
      has_parent := ?_
      terminal_spells := ?_
      root_terminal := rfl
      count_eq := ?_ }
  · intro id
    rw [node_empty]
    exact List.nodup_nil
  · intro id c k h
    rw [hchild] at h
    cases h
  · intro a b c d k h
    rw [hchild] at h
    cases h
  · intro k hpos hlt
    have hsize : empty.nodes.size = 1 := rfl
    omega
  · intro id name h
    rw [node_empty] at h
    cases h
  · have hnone : empty.ends = ∅ := by
      apply Finset.filter_eq_empty_iff.2
      intro id _
      rw [node_empty]
      decide
    rw [hnone]
    rfl

namespace WellFormed

variable {t : Trie}

/-- Whoever goes down comes to a later node. -/
theorem le_of_descend? (h : WellFormed t) {id k : Nat} {s : Text}
    (hs : t.descend? id s = some k) : id ≤ k := by
  induction s generalizing id with
  | nil => exact Nat.le_of_eq (Option.some.inj hs)
  | cons c s ih =>
      rw [descend?_cons] at hs
      obtain ⟨j, hj, hs⟩ := Option.bind_eq_some_iff.1 hs
      have hlt := (h.child_bounds hj).1
      have hle := ih hs
      omega

theorem find?_lt (h : WellFormed t) {s : Text} {id : Nat} (hs : t.find? s = some id) :
    id < t.nodes.size := by
  induction s using List.reverseRecOn with
  | nil =>
      rw [← Option.some.inj hs]
      exact h.root_lt
  | append_singleton s c _ =>
      rw [find?_concat] at hs
      obtain ⟨k, -, hk⟩ := Option.bind_eq_some_iff.1 hs
      exact (h.child_bounds hk).2

/-- A text that is not empty leads away from the root. -/
theorem find?_pos (h : WellFormed t) {s : Text} {id : Nat} (hs : t.find? s = some id)
    (hne : s ≠ []) : 0 < id := by
  cases s with
  | nil => exact absurd rfl hne
  | cons c s =>
      rw [find?, descend?_cons] at hs
      obtain ⟨k, hk, hs⟩ := Option.bind_eq_some_iff.1 hs
      have hlt := (h.child_bounds hk).1
      have hle := h.le_of_descend? hs
      omega

/-- No two texts lead to one node. -/
theorem find?_inj (h : WellFormed t) {s u : Text} {id : Nat} (hs : t.find? s = some id)
    (hu : t.find? u = some id) : s = u := by
  -- The last link on either way is the only one to its end, so the ways agree from the end on.
  induction s using List.reverseRecOn generalizing u id with
  | nil =>
      have hzero : id = 0 := (Option.some.inj hs).symm
      by_contra hne
      have hpos := h.find?_pos hu (Ne.symm hne)
      omega
  | append_singleton s c ih =>
      have hpos := h.find?_pos hs (by simp)
      cases u using List.reverseRecOn with
      | nil =>
          have hzero : id = 0 := (Option.some.inj hu).symm
          omega
      | append_singleton u d =>
          rw [find?_concat] at hs hu
          obtain ⟨a, ha, hac⟩ := Option.bind_eq_some_iff.1 hs
          obtain ⟨b, hb, hbd⟩ := Option.bind_eq_some_iff.1 hu
          obtain ⟨rfl, rfl⟩ := h.child_inj hac hbd
          rw [ih ha hb]

/-- Every node is led to by some text. -/
theorem exists_find? (h : WellFormed t) {id : Nat} (hid : id < t.nodes.size) :
    ∃ s, t.find? s = some id := by
  induction id using Nat.strong_induction_on with
  | _ id ih =>
      rcases Nat.eq_zero_or_pos id with rfl | hpos
      · exact ⟨[], rfl⟩
      · obtain ⟨k, c, hk⟩ := h.has_parent hpos hid
        have hlt := (h.child_bounds hk).1
        obtain ⟨s, hs⟩ := ih k hlt (Nat.lt_trans hlt hid)
        refine ⟨s ++ [c], ?_⟩
        rw [find?_concat, hs]
        exact hk

theorem terminal_inj (h : WellFormed t) {a b : Nat} {name : Text}
    (ha : (t.node a).terminal = some name) (hb : (t.node b).terminal = some name) : a = b :=
  Option.some.inj ((h.terminal_spells ha).symm.trans (h.terminal_spells hb))

end WellFormed

/-! ## Making a node -/

theorem grow_of_some {t : Trie} {id k : Nat} {c : Char} (h : t.child? id c = some k) :
    t.grow id c = (t, k) := by
  simp [grow, h]

/-- A node made anew is the last one, has no children and ends no name. -/
theorem node_grow {t : Trie} {id : Nat} {c : Char} (h : t.child? id c = none)
    (hid : id < t.nodes.size) (k : Nat) :
    (t.grow id c).1.node k =
      if k = id then
        { t.node id with children := (t.node id).children ++ [(c, t.nodes.size)] }
      else t.node k := by
  have hnew : (t.nodes.push {})[id]? = t.nodes[id]? := by
    rw [Array.getElem?_push, if_neg (Nat.ne_of_lt hid)]
  by_cases hk : k = id
  · subst hk
    simp [grow, h, node, Array.getElem?_modify, hnew, hid]
  · have hother : ((t.nodes.push {})[k]?).getD {} = (t.nodes[k]?).getD {} := by
      rw [Array.getElem?_push]
      split
      · rename_i hsize
        simp [hsize]
      · rfl
    simp [grow, h, node, Array.getElem?_modify, Ne.symm hk, hk, hother]

theorem size_grow {t : Trie} {id : Nat} {c : Char} (h : t.child? id c = none) :
    (t.grow id c).1.nodes.size = t.nodes.size + 1 := by
  simp [grow, h]

theorem snd_grow {t : Trie} {id : Nat} {c : Char} (h : t.child? id c = none) :
    (t.grow id c).2 = t.nodes.size := by
  simp [grow, h]

/-- The new link is the only difference that a new node makes. -/
theorem child?_grow {t : Trie} {id : Nat} {c : Char} (h : t.child? id c = none)
    (hid : id < t.nodes.size) (k : Nat) (d : Char) :
    (t.grow id c).1.child? k d =
      if k = id ∧ d = c then some t.nodes.size else t.child? k d := by
  by_cases hk : k = id
  · subst hk
    rw [child?, node_grow h hid, if_pos rfl, List.lookup_append, ← child?]
    by_cases hd : d = c
    · subst hd
      simp [h]
    · cases hlook : t.child? k d <;> simp [hd]
  · rw [child?, node_grow h hid, if_neg hk, if_neg (fun hkd => hk hkd.1), ← child?]

theorem child?_grow_self {t : Trie} {id : Nat} {c : Char} (hid : id < t.nodes.size) :
    (t.grow id c).1.child? id c = some (t.grow id c).2 := by
  cases h : t.child? id c with
  | some k => rw [grow_of_some h, h]
  | none => rw [child?_grow h hid, if_pos ⟨rfl, rfl⟩, snd_grow h]

theorem child?_grow_mono {t : Trie} {id : Nat} {c : Char} (hid : id < t.nodes.size) {k j : Nat}
    {d : Char} (hk : t.child? k d = some j) : (t.grow id c).1.child? k d = some j := by
  cases h : t.child? id c with
  | some i => rwa [grow_of_some h]
  | none =>
      have hne : ¬(k = id ∧ d = c) := by
        rintro ⟨rfl, rfl⟩
        rw [h] at hk
        cases hk
      rwa [child?_grow h hid, if_neg hne]

theorem terminal_grow {t : Trie} {id : Nat} {c : Char} (hid : id < t.nodes.size) (k : Nat) :
    ((t.grow id c).1.node k).terminal = (t.node k).terminal := by
  cases h : t.child? id c with
  | some i => rw [grow_of_some h]
  | none =>
      rw [node_grow h hid]
      split
      · rename_i hk
        rw [hk]
      · rfl

theorem count_grow (t : Trie) (id : Nat) (c : Char) : (t.grow id c).1.count = t.count := by
  rw [grow]
  split <;> rfl

/-- A new node makes no difference to which names end where. -/
private theorem ends_grow {t : Trie} {id : Nat} {c : Char} (h : t.child? id c = none)
    (hid : id < t.nodes.size) : (t.grow id c).1.ends = t.ends := by
  ext k
  simp only [ends, Finset.mem_filter, Finset.mem_range, size_grow h, terminal_grow hid]
  constructor
  · rintro ⟨-, hk⟩
    obtain ⟨name, hname⟩ := Option.isSome_iff_exists.1 hk
    exact ⟨lt_of_terminal hname, hk⟩
  · rintro ⟨hlt, hk⟩
    exact ⟨Nat.lt_succ_of_lt hlt, hk⟩

/-- Making a node keeps the arena a tree. -/
theorem wellFormed_grow {t : Trie} (h : WellFormed t) {id : Nat} (c : Char)
    (hid : id < t.nodes.size) : WellFormed (t.grow id c).1 := by
  cases hc : t.child? id c with
  | some k => rwa [grow_of_some hc]
  | none =>
      -- No link of the old arena leads to the index of the new node.
      have hfresh : ∀ {a d k}, t.child? a d = some k → k ≠ t.nodes.size := by
        intro a d k hk
        exact Nat.ne_of_lt (h.child_bounds hk).2
      refine
        { root_lt := ?_
          keys_nodup := ?_
          child_bounds := ?_
          child_inj := ?_
          has_parent := ?_
          terminal_spells := ?_
          root_terminal := ?_
          count_eq := ?_ }
      · rw [size_grow hc]
        exact Nat.succ_pos _
      · intro k
        rw [node_grow hc hid]
        split
        · have hkey : ∀ p ∈ (t.node id).children, p.1 ≠ c := by
            intro p hp heq
            have hlook := List.lookup_eq_none_iff.1 hc p hp
            simp [heq] at hlook
          rw [List.map_append]
          refine List.nodup_append.2 ⟨h.keys_nodup id, List.nodup_singleton _, ?_⟩
          rintro x hx y hy rfl
          obtain ⟨p, hp, hpx⟩ := List.mem_map.1 hx
          exact hkey p hp (hpx.trans (List.mem_singleton.1 hy))
        · exact h.keys_nodup k
      · intro a d k hk
        rw [size_grow hc]
        rw [child?_grow hc hid] at hk
        split at hk
        · rename_i had
          have hk' := Option.some.inj hk
          omega
        · have hlt := h.child_bounds hk
          omega
      · intro a b d e k ha hb
        rw [child?_grow hc hid] at ha hb
        split at ha <;> split at hb
        · rename_i had hbe
          exact ⟨had.1.trans hbe.1.symm, had.2.trans hbe.2.symm⟩
        · exact absurd (Option.some.inj ha).symm (hfresh hb)
        · exact absurd (Option.some.inj hb).symm (hfresh ha)
        · exact h.child_inj ha hb
      · intro k hpos hlt
        rw [size_grow hc] at hlt
        rcases Nat.lt_succ_iff_lt_or_eq.1 hlt with hold | rfl
        · obtain ⟨a, d, hk⟩ := h.has_parent hpos hold
          exact ⟨a, d, child?_grow_mono hid hk⟩
        · refine ⟨id, c, ?_⟩
          rw [child?_grow_self hid, snd_grow hc]
      · intro k name hk
        rw [terminal_grow hid] at hk
        exact descend?_mono (child?_grow_mono hid) (h.terminal_spells hk)
      · rw [terminal_grow hid]
        exact h.root_terminal
      · rw [count_grow, ends_grow hc hid]
        exact h.count_eq

/-! ## Making the nodes on a way -/

/-- What the way of a name leaves of an arena: it is a tree as before, with the same names, and the
name now leads to a node. -/
structure Grown (t t' : Trie) (id : Nat) (name : Text) (last : Nat) : Prop where
  wellFormed : WellFormed t'
  child?_mono : ∀ {k c j}, t.child? k c = some j → t'.child? k c = some j
  terminal_eq : ∀ k, (t'.node k).terminal = (t.node k).terminal
  descend?_eq : t'.descend? id name = some last

theorem grown_growPath {t : Trie} (h : WellFormed t) {id : Nat} (hid : id < t.nodes.size)
    (name : Text) : Grown t (t.growPath id name).1 id name (t.growPath id name).2 := by
  induction name generalizing t id with
  | nil => exact ⟨h, fun hk => hk, fun _ => rfl, rfl⟩
  | cons c name ih =>
      have hgrow := wellFormed_grow h c hid
      have hself := child?_grow_self (c := c) hid
      have hrest := ih hgrow (hgrow.child_bounds hself).2
      refine
        { wellFormed := hrest.wellFormed
          child?_mono := fun hk => hrest.child?_mono (child?_grow_mono hid hk)
          terminal_eq := fun k => (hrest.terminal_eq k).trans (terminal_grow hid k)
          descend?_eq := ?_ }
      rw [growPath, descend?_cons, hrest.child?_mono hself]
      exact hrest.descend?_eq

/-! ## Putting a name down -/

theorem node_mark {t : Trie} {id : Nat} (hid : id < t.nodes.size) (name : Text) (k : Nat) :
    (t.mark id name).node k =
      if k = id then { t.node id with terminal := some name } else t.node k := by
  by_cases hk : k = id
  · subst hk
    simp [mark, node, Array.getElem_modify, hid]
  · simp [mark, node, Array.getElem?_modify, Ne.symm hk, hk]

theorem size_mark (t : Trie) (id : Nat) (name : Text) :
    (t.mark id name).nodes.size = t.nodes.size := by
  simp [mark]

theorem children_mark {t : Trie} {id : Nat} (hid : id < t.nodes.size) (name : Text) (k : Nat) :
    ((t.mark id name).node k).children = (t.node k).children := by
  rw [node_mark hid]
  split
  · rename_i hk
    rw [hk]
  · rfl

theorem child?_mark {t : Trie} {id : Nat} (hid : id < t.nodes.size) (name : Text) (k : Nat)
    (c : Char) : (t.mark id name).child? k c = t.child? k c := by
  rw [child?, children_mark hid, ← child?]

theorem terminal_mark {t : Trie} {id : Nat} (hid : id < t.nodes.size) (name : Text) (k : Nat) :
    ((t.mark id name).node k).terminal =
      if k = id then some name else (t.node k).terminal := by
  rw [node_mark hid]
  split <;> rfl

theorem ends_mark {t : Trie} {id : Nat} (hid : id < t.nodes.size) (name : Text) :
    (t.mark id name).ends = Insert.insert id t.ends := by
  ext k
  simp only [ends, Finset.mem_filter, Finset.mem_range, Finset.mem_insert, size_mark,
    terminal_mark hid]
  by_cases hk : k = id
  · simp [hk, hid]
  · simp [hk]

/-- Putting a name down at the end of its way keeps the arena a tree. -/
theorem wellFormed_mark {t : Trie} (h : WellFormed t) {id : Nat} {name : Text}
    (hfind : t.find? name = some id) (hne : name ≠ []) (hnone : (t.node id).terminal = none) :
    WellFormed (t.mark id name) := by
  have hid := h.find?_lt hfind
  have hmono : ∀ {k c j}, t.child? k c = some j → (t.mark id name).child? k c = some j := by
    intro k c j hk
    rwa [child?_mark hid]
  refine
    { root_lt := ?_
      keys_nodup := ?_
      child_bounds := ?_
      child_inj := ?_
      has_parent := ?_
      terminal_spells := ?_
      root_terminal := ?_
      count_eq := ?_ }
  · rw [size_mark]
    exact h.root_lt
  · intro k
    rw [children_mark hid]
    exact h.keys_nodup k
  · intro a c k hk
    rw [child?_mark hid] at hk
    rw [size_mark]
    exact h.child_bounds hk
  · intro a b c d k ha hb
    rw [child?_mark hid] at ha hb
    exact h.child_inj ha hb
  · intro k hpos hlt
    rw [size_mark] at hlt
    obtain ⟨a, c, hk⟩ := h.has_parent hpos hlt
    exact ⟨a, c, hmono hk⟩
  · intro k other hk
    rw [terminal_mark hid] at hk
    split at hk
    · rename_i heq
      rw [← Option.some.inj hk, heq]
      exact descend?_mono hmono hfind
    · exact descend?_mono hmono (h.terminal_spells hk)
  · have hzero : 0 ≠ id := Nat.ne_of_lt (h.find?_pos hfind hne)
    rw [terminal_mark hid, if_neg hzero]
    exact h.root_terminal
  · have hmem : id ∉ t.ends := by simp [ends, hnone]
    rw [ends_mark hid, Finset.card_insert_of_notMem hmem, ← h.count_eq]
    rfl

end PrefixShell.Trie
