import Mathlib.Data.Finset.Image
import Mathlib.Data.List.DropRight
import PrefixShell.Proofs.Trie.Traversal

/-!
# A trie is a set of names

What a trie answers depends on the names put into it and on nothing else: not on the order in which
they came, nor on how its nodes lie, nor on the order in which the children of a node are gone
through.  The set is `Trie.names`, and there is one lemma for each operation through it.

## Main results

* `inserted_insert`, `insert_snd_iff`: insertion adds a name to the set, and tells whether it was
  missing.
* `contains_iff_mem_names`, `count_eq_card_names`: membership and size.
* `Answers.nodup`, `Answers.mem_iff`: any search for a beginning finds the members that have it.
* `replay_isSetOf`: all of it, after any changes of a trie made from any list.
-/

namespace PrefixShell.Trie

/-- The names that end somewhere in a trie. -/
def names (t : Trie) : Finset Text := t.ends.image fun id => (t.node id).terminal.getD []

theorem mem_names {t : Trie} {name : Text} :
    name ∈ t.names ↔ ∃ id, (t.node id).terminal = some name := by
  simp only [names, ends, Finset.mem_image, Finset.mem_filter, Finset.mem_range]
  constructor
  · rintro ⟨id, ⟨-, hsome⟩, rfl⟩
    obtain ⟨name, hname⟩ := Option.isSome_iff_exists.1 hsome
    exact ⟨id, by rw [hname, Option.getD_some]⟩
  · rintro ⟨id, hname⟩
    exact ⟨id, ⟨lt_of_terminal hname, by rw [hname]; rfl⟩, by rw [hname]; rfl⟩

namespace WellFormed

variable {t : Trie}

theorem ne_nil_of_mem_names (h : WellFormed t) {name : Text} (hmem : name ∈ t.names) :
    name ≠ [] := by
  rintro rfl
  obtain ⟨id, hid⟩ := mem_names.1 hmem
  have hzero : 0 = id := Option.some.inj (h.terminal_spells hid)
  rw [← hzero, h.root_terminal] at hid
  cases hid

/-- Where a text leads to decides whether it is a name. -/
theorem mem_names_of_find? (h : WellFormed t) {name : Text} {id : Nat}
    (hfind : t.find? name = some id) :
    name ∈ t.names ↔ (t.node id).terminal.isSome = true := by
  rw [mem_names, Option.isSome_iff_exists]
  constructor
  · rintro ⟨k, hk⟩
    have hkid := Option.some.inj ((h.terminal_spells hk).symm.trans hfind)
    exact ⟨name, hkid ▸ hk⟩
  · rintro ⟨other, hother⟩
    have heq := h.find?_inj (h.terminal_spells hother) hfind
    exact ⟨id, heq ▸ hother⟩

theorem find?_of_mem_names (h : WellFormed t) {name : Text} (hmem : name ∈ t.names) :
    ∃ id, t.find? name = some id := by
  obtain ⟨id, hid⟩ := mem_names.1 hmem
  exact ⟨id, h.terminal_spells hid⟩

theorem contains_iff_mem_names (h : WellFormed t) (name : Text) :
    t.contains name = true ↔ name ∈ t.names := by
  rw [contains]
  cases hfind : t.find? name with
  | some id => exact (h.mem_names_of_find? hfind).symm
  | none =>
      refine ⟨fun hfalse => absurd hfalse (by simp), fun hmem => ?_⟩
      obtain ⟨id, hid⟩ := h.find?_of_mem_names hmem
      rw [hfind] at hid
      cases hid

theorem count_eq_card_names (h : WellFormed t) : t.count = t.names.card := by
  rw [h.count_eq, names, Finset.card_image_of_injOn]
  intro a ha b hb hab
  obtain ⟨name, ha⟩ := Option.isSome_iff_exists.1 (Finset.mem_filter.1 ha).2
  obtain ⟨other, hb⟩ := Option.isSome_iff_exists.1 (Finset.mem_filter.1 hb).2
  simp only [ha, hb, Option.getD_some] at hab
  exact h.terminal_inj ha (hab ▸ hb)

end WellFormed

/-! ## Insertion -/

theorem names_mark {t : Trie} {id : Nat} {name : Text} (hid : id < t.nodes.size)
    (hnone : (t.node id).terminal = none) :
    (t.mark id name).names = Insert.insert name t.names := by
  ext other
  rw [Finset.mem_insert, mem_names, mem_names]
  constructor
  · rintro ⟨k, hk⟩
    rw [terminal_mark hid] at hk
    split at hk
    · exact .inl (Option.some.inj hk).symm
    · exact .inr ⟨k, hk⟩
  · rintro (rfl | ⟨k, hk⟩)
    · exact ⟨id, by rw [terminal_mark hid, if_pos rfl]⟩
    · refine ⟨k, ?_⟩
      have hne : k ≠ id := by
        rintro rfl
        rw [hnone] at hk
        cases hk
      rw [terminal_mark hid, if_neg hne, hk]

theorem insert_nil (t : Trie) : t.insert [] = (t, false) := rfl

/-- What insertion of a name comes to: a tree, with the name in its set and no other new one. -/
structure Inserted (t : Trie) (name : Text) (result : Trie × Bool) : Prop where
  wellFormed : WellFormed result.1
  names_eq : result.1.names = Insert.insert name t.names
  isNew : result.2 = true ↔ name ∉ t.names

theorem inserted_insert {t : Trie} (h : WellFormed t) {name : Text} (hne : name ≠ []) :
    Inserted t name (t.insert name) := by
  have hempty : name.isEmpty = false := by simpa using hne
  have hgrown := grown_growPath h h.root_lt name
  have hnames : (t.growPath 0 name).1.names = t.names := by
    ext other
    simp only [mem_names, hgrown.terminal_eq]
  have hmem := hgrown.wellFormed.mem_names_of_find? hgrown.descend?_eq
  rw [hnames] at hmem
  cases hend : ((t.growPath 0 name).1.node (t.growPath 0 name).2).terminal with
  | some old =>
      have hresult : t.insert name = ((t.growPath 0 name).1, false) := by
        simp [insert, hempty, hend]
      have hold : name ∈ t.names := by
        rw [hmem, hend]
        rfl
      rw [hresult]
      exact ⟨hgrown.wellFormed, by rw [hnames, Finset.insert_eq_of_mem hold], by simp [hold]⟩
  | none =>
      have hresult : t.insert name =
          ((t.growPath 0 name).1.mark (t.growPath 0 name).2 name, true) := by
        simp [insert, hempty, hend]
      have hnew : name ∉ t.names := by
        rw [hmem, hend]
        simp
      have hlt := hgrown.wellFormed.find?_lt hgrown.descend?_eq
      rw [hresult]
      exact ⟨wellFormed_mark hgrown.wellFormed hgrown.descend?_eq hne hend,
        by rw [names_mark hlt hend, hnames], by simp [hnew]⟩

theorem wellFormed_insert {t : Trie} (h : WellFormed t) (name : Text) :
    WellFormed (t.insert name).1 := by
  by_cases hne : name = []
  · rw [hne]
    exact h
  · exact (inserted_insert h hne).wellFormed

/-- Insertion tells whether a name is new; the empty one never is. -/
theorem insert_snd_iff {t : Trie} (h : WellFormed t) (name : Text) :
    (t.insert name).2 = true ↔ name ≠ [] ∧ name ∉ t.names := by
  by_cases hne : name = []
  · simp [hne, insert_nil]
  · rw [(inserted_insert h hne).isNew]
    exact ⟨fun hmem => ⟨hne, hmem⟩, fun hmem => hmem.2⟩

/-! ## Searching -/

/-- An answer that a search for a beginning may give: the names at the nodes that it meets, in the
order in which it happens to meet them. -/
def Answers (t : Trie) (beginning : Text) (answer : List Text) : Prop :=
  match t.find? beginning with
  | none => answer = []
  | some id => ∃ met, t.Run ⟨[], [id]⟩ ⟨met, []⟩ ∧
      answer = met.filterMap fun k => (t.node k).terminal

variable {t : Trie} {beginning : Text} {answer : List Text}

theorem answers_search (h : WellFormed t) (beginning : Text) :
    t.Answers beginning (t.search beginning) := by
  rw [Answers, search]
  cases hfind : t.find? beginning with
  | none => rfl
  | some id => exact ⟨_, run_search h (h.find?_lt hfind), rfl⟩

/-- Where no name has the beginning, nothing is found. -/
theorem Answers.eq_nil (hanswer : t.Answers beginning answer) (hfind : t.find? beginning = none) :
    answer = [] := by
  rw [Answers] at hanswer
  simpa only [hfind] using hanswer

/-- The names found are those that end in the subtree of the beginning. -/
theorem Answers.exists_perm (h : WellFormed t) (hanswer : t.Answers beginning answer) {id : Nat}
    (hfind : t.find? beginning = some id) :
    ∃ met : List Nat, met.Perm (t.subtree id) ∧
      answer = met.filterMap fun k => (t.node k).terminal := by
  rw [Answers] at hanswer
  simp only [hfind] at hanswer
  obtain ⟨met, hrun, heq⟩ := hanswer
  exact ⟨met, hrun.met_perm h, heq⟩

/-- No search finds a name twice. -/
theorem Answers.nodup (h : WellFormed t) (hanswer : t.Answers beginning answer) :
    answer.Nodup := by
  cases hfind : t.find? beginning with
  | none =>
      rw [hanswer.eq_nil hfind]
      exact List.nodup_nil
  | some id =>
      obtain ⟨met, hperm, rfl⟩ := hanswer.exists_perm h hfind
      have hmet : met.Nodup := hperm.nodup_iff.2 (h.nodup_subtree (h.find?_lt hfind))
      exact hmet.filterMap fun a b name ha hb => h.terminal_inj ha hb

/-- A search finds the names with the beginning, all of them and nothing else. -/
theorem Answers.mem_iff (h : WellFormed t) (hanswer : t.Answers beginning answer) (name : Text) :
    name ∈ answer ↔ name ∈ t.names ∧ beginning <+: name := by
  cases hfind : t.find? beginning with
  | none =>
      rw [hanswer.eq_nil hfind]
      refine ⟨fun hmem => absurd hmem List.not_mem_nil, ?_⟩
      rintro ⟨hmem, s, rfl⟩
      obtain ⟨id, hid⟩ := h.find?_of_mem_names hmem
      rw [find?_append, hfind] at hid
      cases hid
  | some id =>
      obtain ⟨met, hperm, rfl⟩ := hanswer.exists_perm h hfind
      have hmet : ∀ k, k ∈ met ↔ ∃ s, t.descend? id s = some k := by
        intro k
        rw [hperm.mem_iff, h.mem_subtree]
      -- The node of a name is below that of the beginning exactly if the name goes on from there.
      have hbelow : ∀ s, t.find? (beginning ++ s) = t.descend? id s := by
        intro s
        rw [find?_append, hfind]
        rfl
      rw [List.mem_filterMap]
      constructor
      · rintro ⟨k, hk, hname⟩
        obtain ⟨s, hs⟩ := (hmet k).1 hk
        have heq := h.find?_inj ((hbelow s).trans hs) (h.terminal_spells hname)
        exact ⟨mem_names.2 ⟨k, hname⟩, s, heq⟩
      · rintro ⟨hmem, s, rfl⟩
        obtain ⟨k, hname⟩ := mem_names.1 hmem
        exact ⟨k, (hmet k).2 ⟨s, (hbelow s).symm.trans (h.terminal_spells hname)⟩, hname⟩

/-! ## Histories -/

/-- A change of a set of names. -/
inductive Change where
  | insert (name : Text)
  | clear
deriving DecidableEq

/-- The name that a change inserts. -/
def Change.name? : Change → Option Text
  | insert name => some name
  | clear => none

/-- A trie after a change. -/
def change (t : Trie) : Change → Trie
  | .insert name => (t.insert name).1
  | .clear => t.clear

/-- A trie after changes, one after the other. -/
def replay (t : Trie) (changes : List Change) : Trie := changes.foldl change t

/-- The names inserted since the last clearing, but for the empty one. -/
def inserted (changes : List Change) : Finset Text :=
  ((changes.rtakeWhile (· ≠ .clear)).filterMap Change.name?).toFinset.erase []

theorem inserted_concat_insert (changes : List Change) (name : Text) :
    inserted (changes ++ [.insert name]) = (Insert.insert name (inserted changes)).erase [] := by
  have hsince : (changes ++ [Change.insert name]).rtakeWhile (· ≠ .clear) =
      changes.rtakeWhile (· ≠ .clear) ++ [.insert name] :=
    List.rtakeWhile_concat_pos _ _ _ (by simp)
  have hlast : [Change.insert name].filterMap Change.name? = [name] := rfl
  ext other
  rw [inserted, inserted, hsince, List.filterMap_append, hlast, List.toFinset_append]
  simp only [Finset.mem_erase, Finset.mem_union, Finset.mem_insert, List.mem_toFinset,
    List.mem_singleton]
  tauto

theorem inserted_concat_clear (changes : List Change) :
    inserted (changes ++ [.clear]) = ∅ := by
  rw [inserted, List.rtakeWhile_concat_neg _ _ _ (by decide)]
  rfl

theorem names_empty : empty.names = ∅ := by
  ext name
  simp [mem_names, node_empty]

/-- After any changes the arena is a tree, and its names are those inserted since it was cleared. -/
theorem replay_names (changes : List Change) :
    WellFormed (replay empty changes) ∧ (replay empty changes).names = inserted changes := by
  induction changes using List.reverseRecOn with
  | nil => exact ⟨wellFormed_empty, names_empty⟩
  | append_singleton changes c ih =>
      obtain ⟨h, hnames⟩ := ih
      rw [replay, List.foldl_append, ← replay]
      cases c with
      | insert name =>
          refine ⟨wellFormed_insert h name, ?_⟩
          show ((replay empty changes).insert name).1.names = _
          have hnil : [] ∉ (replay empty changes).names := fun hmem =>
            h.ne_nil_of_mem_names hmem rfl
          rw [inserted_concat_insert, ← hnames]
          by_cases hne : name = []
          · rw [hne, insert_nil, Finset.erase_insert hnil]
          · rw [(inserted_insert h hne).names_eq, Finset.erase_eq_of_notMem]
            simp [hnil, Ne.symm hne]
      | clear => exact ⟨wellFormed_empty, names_empty.trans (inserted_concat_clear changes).symm⟩

theorem ofList_eq_replay (start : List Text) :
    ofList start = replay empty (start.map .insert) := by
  rw [ofList, replay, List.foldl_map]
  rfl

/-! ## The set -/

/-- What it is for a trie to be a set of names, to all who ask. -/
structure IsSetOf (t : Trie) (members : Finset Text) : Prop where
  insert_iff : ∀ name, (t.insert name).2 = true ↔ name ≠ [] ∧ name ∉ members
  contains_iff : ∀ name, t.contains name = true ↔ name ∈ members
  /-- Whatever turns a search takes, it ends, and until then it goes on. -/
  search_ends : ∀ beginning id s, t.find? beginning = some id → t.Run ⟨[], [id]⟩ s →
    s.met.length ≤ t.nodes.size ∧ (s.stack ≠ [] → ∃ s', t.Turn s s')
  /-- Whatever turns it takes, it finds the members with the beginning, each of them once. -/
  search_finds : ∀ beginning answer, t.Answers beginning answer →
    answer.Nodup ∧ ∀ name, name ∈ answer ↔ name ∈ members ∧ beginning <+: name
  search_answers : ∀ beginning, t.Answers beginning (t.search beginning)
  toList_nodup : t.toList.Nodup
  mem_toList : ∀ name, name ∈ t.toList ↔ name ∈ members
  count_eq : t.count = members.card
  isEmpty_iff : t.isEmpty = true ↔ members = ∅

/-- A trie made from any list, and then changed in any way, is the set of the names inserted since
it was last cleared. -/
theorem replay_isSetOf (start : List Text) (changes : List Change) :
    IsSetOf (replay (ofList start) changes) (inserted (start.map .insert ++ changes)) := by
  have hreplay : replay (ofList start) changes =
      replay empty (start.map .insert ++ changes) := by
    rw [ofList_eq_replay, replay, replay, replay, List.foldl_append]
  obtain ⟨h, hnames⟩ := replay_names (start.map .insert ++ changes)
  rw [hreplay, ← hnames]
  generalize replay empty (start.map .insert ++ changes) = t at h
  have hall := answers_search h []
  exact
    { insert_iff := insert_snd_iff h
      contains_iff := h.contains_iff_mem_names
      search_ends := fun _ _ _ hfind hrun =>
        ⟨hrun.length_met_le h (h.find?_lt hfind), Turn.exists_of_stack⟩
      search_finds := fun _ _ hanswer => ⟨hanswer.nodup h, hanswer.mem_iff h⟩
      search_answers := answers_search h
      toList_nodup := hall.nodup h
      mem_toList := fun name => (hall.mem_iff h name).trans (and_iff_left List.nil_prefix)
      count_eq := h.count_eq_card_names
      isEmpty_iff := by
        rw [isEmpty, decide_eq_true_iff, h.count_eq_card_names, Finset.card_eq_zero] }

end PrefixShell.Trie
