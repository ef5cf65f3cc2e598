import Mathlib.Data.List.Induction
import PrefixShell.Machine
import PrefixShell.Proofs.FileSystem.Walking

/-!
# Canonical paths

The canonical path of a directory goes to it from the root through directories alone.  There is no
link on it, no `.` and no `..`, and so following it leads back to where it came from.

A path that leads to a file has a canonical path too.  That is why changing to a canonical path can
still fail.

## Main results

* `landing_of_canonical`: the canonical path of an absolute path leads to a directory, or to a file in
  one.
* `Landing.locate_toPath`: following a canonical path leads back.
* `Machine.changeDirectory_canonical`: where one comes to by changing to a canonical path.
-/

namespace PrefixShell

namespace FileSystem

/-- A location whose own path is canonical: it is a directory, all that hold it are, and none of its
names is passed over or means something else when it is followed. -/
structure Canonical (fs : FileSystem) (l : Location) : Prop where
  passable : fs.Passable l
  ne_empty : ∀ name ∈ l, name ≠ .empty
  followable : ∀ name ∈ l, Followable name

variable {fs : FileSystem} {followLast : Bool} {links : Nat} {l l' : Location}
  {name : FileName} {rest : List FileName}

theorem canonical_root : fs.Canonical [] where
  passable := passable_root
  ne_empty := by simp
  followable := by simp

theorem Canonical.parent (h : fs.Canonical l) : fs.Canonical l.parent where
  passable := h.passable.parent
  ne_empty name hname := h.ne_empty name ((List.dropLast_sublist l).subset hname)
  followable name hname := h.followable name ((List.dropLast_sublist l).subset hname)

theorem Canonical.concat (h : fs.Canonical l) (hempty : name ≠ .empty) (hname : Followable name)
    (hnode : fs.node? (l ++ [name]) = some .directory) : fs.Canonical (l ++ [name]) where
  passable := h.passable.concat hnode
  ne_empty := List.forall_mem_append.2 ⟨h.ne_empty, List.forall_mem_singleton.2 hempty⟩
  followable := List.forall_mem_append.2 ⟨h.followable, List.forall_mem_singleton.2 hname⟩

/-! ## Following a canonical path -/

/-- The names of a canonical path lead back, and any names can follow. -/
theorem Canonical.walk_append (h : fs.Canonical l) :
    fs.walk followLast links [] (l ++ rest) = fs.walk followLast links l rest := by
  induction l using List.reverseRecOn generalizing rest with
  | nil => rfl
  | append_singleton m name ih =>
      have hm : fs.Canonical m := by simpa [Location.parent] using h.parent
      have hname : Followable name := h.followable name (by simp)
      rw [List.append_assoc, ih hm, List.singleton_append, walk_directory hname h.passable.node?_eq]

end FileSystem

namespace Location

theorem isAbsolute_toPath (l : Location) : l.toPath.isAbsolute = true := by
  cases l <;> rfl

theorem steps_toPath {l : Location} (hne : l ≠ []) (h : ∀ name ∈ l, name ≠ .empty) :
    l.toPath.steps = l := by
  obtain ⟨first, others, rfl⟩ := List.exists_cons_of_ne_nil hne
  have hlast : (first :: others).getLast? ≠ some .empty := by
    intro hlast
    exact h .empty (List.mem_of_getLast? hlast) rfl
  have hslash : (toPath (first :: others)).endsInSlash = false := by
    simp [toPath, Path.endsInSlash, hlast]
  have hkept : (first :: others).filter (· ≠ .empty) = first :: others :=
    List.filter_eq_self.2 fun name hname => decide_eq_true (h name hname)
  rw [Path.steps, hslash]
  show (first :: others).filter (· ≠ .empty) ++ [] = _
  rw [hkept, List.append_nil]

end Location

namespace FileSystem

variable {fs : FileSystem} {workingDirectory : Site} {l : Location} {s : Site} {p : Path}

/-- What the canonical path of an absolute path leads to: a directory, or a file in one. -/
inductive Landing (fs : FileSystem) : Location → Prop
  | directory {l : Location} (h : fs.Canonical l) : Landing fs l
  | file {m : Location} {name : FileName} {f : File} (hm : fs.Canonical m) (hempty : name ≠ .empty)
      (hname : Followable name) (hnode : fs.node? (m ++ [name]) = some (.file f)) :
      Landing fs (m ++ [name])

theorem locateAny_of_canonical (h : fs.canonical workingDirectory p = .ok l) :
    fs.locateAny workingDirectory true p = .ok (.inTree l) := by
  rw [canonical] at h
  split at h
  · rename_i found hlocate
    obtain ⟨location, lost⟩ := found
    split at h
    · rename_i hlost
      obtain rfl : lost = [] := hlost
      cases h
      exact hlocate
    · cases h
  · cases h

theorem walk_eq_ok_of_canonical (hp : p.isAbsolute = true)
    (h : fs.canonical workingDirectory p = .ok l) : fs.walk true maxLinks [] p.steps = .ok l := by
  have hlocate := locateAny_of_canonical h
  rw [locateAny, hp, if_pos rfl, Site.root, follow_inTree] at hlocate
  split at hlocate
  · cases hlocate
  · split at hlocate
    · cases hlocate
    · cases hwalk : fs.walk true maxLinks [] p.steps with
      | error cause =>
          rw [hwalk] at hlocate
          cases hlocate
      | ok l' =>
          rw [hwalk] at hlocate
          cases hlocate
          rfl

theorem landing_of_canonical (hp : p.isAbsolute = true)
    (h : fs.canonical workingDirectory p = .ok l) : fs.Landing l := by
  have hwalk := walk_eq_ok_of_canonical hp h
  have hland := walk_invariant canonical_root (fun l hl => hl.parent)
    (fun l name hl hempty hname hnode => hl.concat hempty hname hnode)
    canonical_root (fun name hname => p.ne_empty_of_mem_steps hname) hwalk
  rcases hland with hl | ⟨m, name, f, rfl, hm, hempty, hname, hnode⟩
  · exact .directory hl
  · exact .file hm hempty hname hnode

theorem Landing.ne_empty (h : fs.Landing l) : ∀ name ∈ l, name ≠ .empty := by
  cases h with
  | directory h => exact h.ne_empty
  | file hm hempty hname hnode =>
      exact List.forall_mem_append.2 ⟨hm.ne_empty, List.forall_mem_singleton.2 hempty⟩

theorem Landing.walk_self (h : fs.Landing l) : fs.walk true maxLinks [] l = .ok l := by
  cases h with
  | directory h =>
      have hwalk : fs.walk true maxLinks [] (l ++ []) = fs.walk true maxLinks l [] := h.walk_append
      rwa [List.append_nil, walk_nil] at hwalk
  | file hm hempty hname hnode => rw [hm.walk_append, walk_file hname hnode]

/-- Following a canonical path leads back. -/
theorem Landing.locate_toPath (h : fs.Landing l)
    (hlocate : fs.locate workingDirectory true l.toPath = .ok s) : s = .inTree l := by
  obtain ⟨-, -, -, hfollow⟩ := locate_eq_ok_iff.1 hlocate
  rw [Location.isAbsolute_toPath, if_pos rfl, Site.root, follow_inTree] at hfollow
  have hwalk : fs.walk true maxLinks [] l.toPath.steps = .ok l := by
    by_cases hl : l = []
    · rw [hl]
      exact walk_dot.trans walk_nil
    · rw [Location.steps_toPath hl h.ne_empty]
      exact h.walk_self
  rw [hwalk] at hfollow
  cases hfollow
  rfl

end FileSystem

/-- Changing to the canonical path of an absolute path comes to a directory that has this path. -/
theorem Machine.changeDirectory_canonical {m m' : Machine} {p : Path} {l : Location}
    (hp : p.isAbsolute = true) (hcanonical : m.files.canonical m.workingDirectory p = .ok l)
    (h : m.changeDirectory l.toPath = .ok m') :
    m.files.Canonical l ∧ m' = { m with workingDirectory := .inTree l } := by
  have hland := FileSystem.landing_of_canonical hp hcanonical
  rw [changeDirectory] at h
  cases hlocate : m.files.locate m.workingDirectory true l.toPath with
  | error cause =>
      rw [hlocate] at h
      cases h
  | ok s =>
      obtain rfl := hland.locate_toPath hlocate
      rw [hlocate] at h
      cases hland with
      | directory hl =>
          have hnode : m.files.nodeAt? (.inTree l) = some .directory :=
            FileSystem.nodeAt?_of_passable hl.passable
          simp only [if_pos hnode] at h
          cases h
          exact ⟨hl, rfl⟩
      | file _ _ _ hnode =>
          have hfile : m.files.nodeAt? (.inTree _) = some (.file _) := hnode
          simp [hfile] at h

end PrefixShell
