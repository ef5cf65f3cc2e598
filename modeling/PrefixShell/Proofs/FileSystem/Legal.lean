import PrefixShell.FileSystem.Walk

/-!
# Legal names

The names that entries can have.  They are not empty, they are neither `.` nor `..`, and there is no
slash in them, so that a path tells them apart.  A tree by itself could hold any names; one that is
built up by paths holds legal ones.

## Main results

* `legal_empty`, `legal_put`: a tree that legal names are put into is legal.
* `legal_of_mem_entries`: the entries of a directory in a legal tree have legal names.
-/

namespace PrefixShell

/-- A name that an entry of a directory can have. -/
structure FileName.Legal (name : FileName) : Prop where
  ne_empty : name ≠ .empty
  ne_dot : name ≠ .dot
  ne_dotDot : name ≠ .dotDot
  noSlash : ∀ t ∈ name.text?, '/' ∉ t

/-! ## What is in a tree after something is put into it -/

namespace Tree

theorem lookup_insert_ne (t child : Tree) {name other : FileName} (h : other ≠ name) :
    (t.insert name child).entries.lookup other = t.entries.lookup other := by
  have hother : (other == name) = false := by simpa using h
  show ((name, child) :: t.entries.filter (·.1 ≠ name)).lookup other = _
  rw [List.lookup_cons, hother]
  induction t.entries with
  | nil => rfl
  | cons entry entries ih =>
      obtain ⟨key, bound⟩ := entry
      by_cases hkey : key = name
      · have hskip : (other == key) = false := by simpa [hkey] using h
        rw [List.filter_cons_of_neg (by simp [hkey]), List.lookup_cons, hskip]
        exact ih
      · rw [List.filter_cons_of_pos (by simp [hkey]), List.lookup_cons, List.lookup_cons]
        cases other == key with
        | true => rfl
        | false => exact ih

/-- Where something is after a tree has been put at `l`, there was something before, or it is on the
way to `l`, or it belongs to the tree that was put. -/
theorem at?_put_cases (t child : Tree) (l l' : Location) (h : ((t.put child l).at? l').isSome) :
    (t.at? l').isSome ∨ l' <+: l ∨ ∃ rest, l' = l ++ rest ∧ (child.at? rest).isSome := by
  induction l generalizing t l' with
  | nil => exact .inr (.inr ⟨l', rfl, h⟩)
  | cons name l ih =>
      cases l' with
      | nil => exact .inr (.inl List.nil_prefix)
      | cons name' l' =>
          rw [put, at?] at h
          by_cases hname : name' = name
          · subst hname
            rw [lookup_insert] at h
            rcases ih _ l' h with hbefore | hway | ⟨rest, rfl, hrest⟩
            · cases hlookup : t.entries.lookup name' with
              | some old =>
                  rw [hlookup] at hbefore
                  refine .inl ?_
                  rw [at?, hlookup]
                  exact hbefore
              | none =>
                  rw [hlookup] at hbefore
                  cases l' with
                  | nil => exact .inr (.inl ⟨l, rfl⟩)
                  | cons next l' => cases hbefore
            · exact .inr (.inl ((List.prefix_cons_inj name').2 hway))
            · exact .inr (.inr ⟨rest, rfl, hrest⟩)
          · rw [lookup_insert_ne t _ hname] at h
            exact .inl h

end Tree

/-! ## Legal trees -/

namespace FileSystem

/-- A file tree in which all entries have legal names. -/
def Legal (fs : FileSystem) : Prop :=
  ∀ (l : Location) (name : FileName), (fs.node? (l ++ [name])).isSome → name.Legal

theorem legal_empty : empty.Legal := by
  intro l name h
  cases l <;> cases h

theorem legal_put {fs : FileSystem} (h : fs.Legal) {l : Location} (hl : ∀ name ∈ l, name.Legal)
    (n : Node) : (fs.put l n).Legal := by
  by_cases hnil : l = []
  · rw [put, if_pos hnil]
    exact h
  · intro l' name hname
    rw [node?, Option.isSome_map, tree_put fs n hnil] at hname
    rcases Tree.at?_put_cases fs.tree ⟨n, []⟩ l (l' ++ [name]) hname with
      hbefore | hway | ⟨rest, hrest, hleaf⟩
    · refine h l' name ?_
      rwa [node?, Option.isSome_map]
    · exact hl name (hway.subset (by simp))
    · cases rest with
      | nil =>
          refine hl name ?_
          rw [List.append_nil] at hrest
          rw [← hrest]
          simp
      | cons next rest => cases hleaf

theorem legal_of_mem_entries {fs : FileSystem} (h : fs.Legal) {workingDirectory : Site} {p : Path}
    {name : FileName} (hname : name ∈ (fs.entries? workingDirectory p).getD []) : name.Legal := by
  rw [entries?] at hname
  cases hdirectory : fs.directory? workingDirectory p with
  | none => simp [hdirectory] at hname
  | some s =>
      rw [hdirectory, Option.map_some, Option.getD_some, childrenAt] at hname
      by_cases hlost : s.lost = []
      · rw [if_pos hlost, mem_children] at hname
        exact h s.location name hname
      · rw [if_neg hlost] at hname
        cases hname

end FileSystem

end PrefixShell
