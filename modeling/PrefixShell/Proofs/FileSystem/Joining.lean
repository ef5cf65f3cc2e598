import Mathlib
import PrefixShell.FileSystem.Path

/-!
# Joining a name to a path

The path of an entry is the path of its directory with one more name.  Followed name by name it is
the way to the directory and then the name, however the path of the directory is spelled.  Only where
nothing is spelled there is no directory before the name.

## Main results

* `steps_joinName`: the name comes last.
* `isAbsolute_joinName`, `hasNul_joinName`, `byteLength_le_joinName`: what can be followed with a
  name joined to it can be followed without.
-/

namespace PrefixShell.Path

theorem ne_empty_of_mem_steps (p : Path) {name : FileName} (h : name ∈ p.steps) :
    name ≠ .empty := by
  rcases List.mem_append.1 h with hname | hdot
  · exact of_decide_eq_true (List.mem_filter.1 hname).2
  · split at hdot
    · rw [List.mem_singleton.1 hdot]
      decide
    · cases hdot

variable {p : Path} {name : FileName}

/-- A name is put in the place of an empty one at the end, or else behind all names. -/
theorem joinName_cases (name : FileName) (hp : p.isEmpty = false) :
    (∃ front, front ≠ [] ∧ p.names = front ++ [.empty] ∧ p.joinName name = ⟨front ++ [name]⟩) ∨
      p.names ≠ [] ∧ p.joinName name = ⟨p.names ++ [name]⟩ := by
  obtain ⟨names⟩ := p
  have hrelative : (ofName name).isAbsolute = false := rfl
  rw [joinName, join, hrelative, hp]
  cases hslash : endsInSlash ⟨names⟩ with
  | true =>
      simp only [endsInSlash, Bool.and_eq_true, decide_eq_true_eq] at hslash
      obtain ⟨hlength, hlast⟩ := hslash
      have hsplit : names = names.dropLast ++ [.empty] :=
        (List.dropLast_append_getLast? _ hlast).symm
      refine .inl ⟨names.dropLast, ?_, hsplit, rfl⟩
      rw [← List.length_pos_iff, List.length_dropLast]
      omega
  | false =>
      refine .inr ⟨?_, rfl⟩
      rintro rfl
      cases hp

theorem isAbsolute_joinName (hp : p.isEmpty = false) :
    (p.joinName name).isAbsolute = p.isAbsolute := by
  rcases joinName_cases name hp with ⟨front, hfront, hnames, hjoin⟩ | ⟨hne, hjoin⟩
  · obtain ⟨first, front, rfl⟩ := List.exists_cons_of_ne_nil hfront
    rw [hjoin, isAbsolute, isAbsolute, hnames]
    simp
  · obtain ⟨first, others, hnames⟩ := List.exists_cons_of_ne_nil hne
    rw [hjoin, isAbsolute, isAbsolute, hnames]
    cases others with
    | nil =>
        have hfirst : first ≠ .empty := by
          rintro rfl
          simp [isEmpty, hnames] at hp
        simp [hfirst]
    | cons second others => simp

theorem isAbsolute_iff : p.isAbsolute = true ↔ ∃ name others, p.names = .empty :: name :: others := by
  obtain ⟨names⟩ := p
  match names with
  | [] => simp [isAbsolute]
  | [first] => simp [isAbsolute]
  | first :: second :: others => simp [isAbsolute]

/-- From an absolute path one goes on to an absolute one. -/
theorem isAbsolute_join {q : Path} (hp : p.isAbsolute = true) (hq : q.names ≠ []) :
    (p.join q).isAbsolute = true := by
  obtain ⟨name, others, hnames⟩ := isAbsolute_iff.1 hp
  obtain ⟨first, rest, hrest⟩ := List.exists_cons_of_ne_nil hq
  rw [join]
  split
  · assumption
  · split
    · have hlast : (FileName.empty :: name :: others).dropLast = .empty :: (name :: others).dropLast :=
        rfl
      rw [hnames, hrest, hlast]
      cases (name :: others).dropLast <;> exact isAbsolute_iff.2 ⟨_, _, rfl⟩
    · rw [hnames]
      exact isAbsolute_iff.2 ⟨_, _, rfl⟩

theorem joinName_of_isEmpty (name : FileName) (hp : p.isEmpty = true) :
    p.joinName name = ofName name := by
  have hnames : p.names = [] ∨ p.names = [.empty] := by simpa [isEmpty] using hp
  have hrelative : (ofName name).isAbsolute = false := rfl
  rw [joinName, join, hrelative, hp]
  rcases hnames with hnames | hnames
  · simp [hnames, ofName]
  · simp [hnames, ofName]

theorem isEmpty_ofText {t : Text} (ht : t ≠ []) : (ofText t).isEmpty = false := by
  have hspelled := ofText_display t
  cases hempty : (ofText t).isEmpty with
  | false => rfl
  | true =>
      have hnames : (ofText t).names = [] ∨ (ofText t).names = [.empty] := by
        simpa [isEmpty] using hempty
      rw [display] at hspelled
      rcases hnames with hnames | hnames
      · rw [hnames] at hspelled
        exact absurd hspelled.symm ht
      · rw [hnames] at hspelled
        exact absurd hspelled.symm ht

/-- The name that is joined to a path is the last to be followed. -/
theorem steps_joinName (p : Path) (hname : name ≠ .empty) :
    (p.joinName name).steps = p.names.filter (· ≠ .empty) ++ [name] := by
  have hsteps (front : List FileName) :
      steps ⟨front ++ [name]⟩ = front.filter (· ≠ .empty) ++ [name] := by
    simp [steps, endsInSlash, hname]
  cases hp : p.isEmpty with
  | true =>
      have hnames : p.names.filter (· ≠ .empty) = [] := by
        have hnames : p.names = [] ∨ p.names = [.empty] := by simpa [isEmpty] using hp
        rcases hnames with hnames | hnames <;> simp [hnames]
      rw [joinName_of_isEmpty name hp, hnames]
      exact hsteps []
  | false =>
      rcases joinName_cases name hp with ⟨front, -, hnames, hjoin⟩ | ⟨-, hjoin⟩
      · rw [hjoin, hsteps, hnames]
        simp
      · rw [hjoin, hsteps]

/-- An empty name that is joined to a path is a slash at its end: the way is the same, with a `.` after
it unless there was a slash already. -/
theorem steps_joinName_empty (hp : p.isEmpty = false) :
    (p.joinName .empty).steps = p.steps ∨ (p.joinName .empty).steps = p.steps ++ [.dot] := by
  obtain ⟨names⟩ := p
  rcases joinName_cases .empty hp with ⟨front, -, hnames, hjoin⟩ | ⟨hne, hjoin⟩
  · obtain rfl : names = front ++ [.empty] := hnames
    exact .inl (congrArg steps hjoin)
  · have hne : names ≠ [] := hne
    have hslash : endsInSlash ⟨names ++ [.empty]⟩ = true := by
      simp [endsInSlash, Nat.one_le_iff_ne_zero, hne]
    have hjoined : steps ⟨names ++ [.empty]⟩ = names.filter (· ≠ .empty) ++ [.dot] := by
      simp [steps, hslash]
    rw [hjoin, hjoined, steps]
    cases endsInSlash ⟨names⟩ with
    | true => exact .inl rfl
    | false => exact .inr (by simp)

theorem hasNul_joinName (hp : p.isEmpty = false) (h : (p.joinName name).hasNul = false) :
    p.hasNul = false := by
  rcases joinName_cases name hp with ⟨front, -, hnames, hjoin⟩ | ⟨-, hjoin⟩
  · rw [hjoin, hasNul, List.any_append, Bool.or_eq_false_iff] at h
    rw [hasNul, hnames, List.any_append, h.1]
    decide
  · rw [hjoin, hasNul, List.any_append, Bool.or_eq_false_iff] at h
    exact h.1

theorem byteLength_eq (p : Path) :
    p.byteLength = (p.names.map (·.toBytes.length)).sum + (p.names.length - 1) := by
  rw [byteLength]
  generalize p.names.length - 1 = slashes
  induction p.names with
  | nil => simp
  | cons name names ih =>
      rw [List.foldr_cons, ih, List.map_cons, List.sum_cons]
      omega

theorem byteLength_le_joinName (hp : p.isEmpty = false) :
    p.byteLength ≤ (p.joinName name).byteLength := by
  have hempty : FileName.toBytes .empty = [] := rfl
  rcases joinName_cases name hp with ⟨front, -, hnames, hjoin⟩ | ⟨-, hjoin⟩
  · rw [hjoin, byteLength_eq, byteLength_eq, hnames]
    simp [hempty]
  · rw [hjoin, byteLength_eq, byteLength_eq]
    simp
    omega

end PrefixShell.Path
