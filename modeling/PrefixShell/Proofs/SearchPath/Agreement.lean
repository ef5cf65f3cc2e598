import PrefixShell.Proofs.FileSystem.Walking
import PrefixShell.Proofs.SearchPath.Lookup

/-!
# What is found but not listed

What is found by a bare name is listed, with one exception.  A part of a search path that is empty
names no directory.  Listing has nothing to read there; but looking up joins the name to it, and the
name alone is a path, from the working directory.  So a program of the working directory is found and
not listed if some part of the search path is empty, and also if the whole of it is.

## Main results

* `nil_notMem_programs`: nothing is listed without a name.
* `isExecutable_of_steps`, `isExecutable_dots`: `.` and `..` are never found, whatever they are joined to.
* `find?_of_bare`: a bare name is looked for in one directory after the other.
* `isSome_find?_iff`: what is found by a bare name is what is listed and, if a part of the search path
  is empty, the programs of the working directory.
* `unlisted_tool`: a program that is found and not listed.
-/

namespace PrefixShell.SearchPath

variable {m : Machine} {searchPath name : Text}

/-- Nothing is listed without a name: joined to the path of a directory, an empty name leads to the
directory itself. -/
theorem nil_notMem_programs : [] ∉ programs m searchPath := by
  intro hlisted
  obtain ⟨directory, -, hentry, hexecutable⟩ := mem_programs.1 hlisted
  obtain ⟨s, f, hjoined, hfile, -⟩ := isExecutable_iff.1 hexecutable
  cases hlocate : m.files.locate m.workingDirectory true directory with
  | error cause =>
      rw [FileSystem.entries?, FileSystem.directory?, hlocate] at hentry
      cases hentry
  | ok s' =>
      by_cases hdirectory : m.files.nodeAt? s' = some .directory
      · rw [FileSystem.locate_joinName_empty hlocate hdirectory hjoined, hdirectory] at hfile
        cases hfile
      · have hunread : m.files.directory? m.workingDirectory directory = none := by
          simp [FileSystem.directory?, hlocate, Except.toOption, hdirectory]
        rw [FileSystem.entries?, hunread] at hentry
        cases hentry

section

variable (hwd : m.files.Passable m.workingDirectory.location)

include hwd

/-- A way that ends with `.` or `..` leads to no program, for it leads to a directory. -/
theorem isExecutable_of_steps {p : Path} {ns : List FileName} {name : FileName}
    (hname : name = .dot ∨ name = .dotDot) (hsteps : p.steps = ns ++ [name]) :
    m.isExecutable p = false := by
  by_contra h
  obtain ⟨s, f, hlocate, hnode, -⟩ := isExecutable_iff.1 (Bool.not_eq_false _ ▸ h)
  obtain ⟨-, -, -, hfollow⟩ := FileSystem.locate_eq_ok_iff.1 hlocate
  rw [hsteps] at hfollow
  have hdirectory : m.files.nodeAt? s = some .directory := by
    refine FileSystem.directory_of_follow ?_ hname hfollow
    split
    · exact FileSystem.passable_root
    · exact hwd
  rw [hnode] at hdirectory
  cases hdirectory

/-- A path whose last name is `.` or `..` is no program. -/
theorem isExecutable_dots (p : Path) {name : FileName} (hname : name = .dot ∨ name = .dotDot) :
    m.isExecutable (p.joinName name) = false := by
  have hempty : name ≠ .empty := by
    rcases hname with rfl | rfl <;> decide
  exact isExecutable_of_steps hwd hname (Path.steps_joinName p hempty)

/-! ## Bare names -/

/-- A bare name is looked for in one directory after the other. -/
theorem find?_of_bare (hne : name ≠ []) (hslash : '/' ∉ name) :
    find? m searchPath (Path.ofText name) = findNamed? m searchPath (.text name) := by
  have hpath := ofText_of_bare hslash
  by_cases hdot : FileName.text name = .dot
  · -- By itself `.` is a path from the working directory; but it leads to no program.
    have hnone : m.isExecutable (.ofName .dot) = false :=
      isExecutable_dots hwd ⟨[]⟩ (.inl rfl)
    rw [hpath, hdot, find?, hnone]
    rfl
  · by_cases hdotDot : FileName.text name = .dotDot
    · rw [hpath, hdotDot]
      rfl
    · refine find?_of_legal ⟨?_, hdot, hdotDot, ?_⟩
      · intro hempty
        exact hne (FileName.text.inj hempty)
      · rintro t ⟨⟩
        exact hslash

omit hwd in
theorem isSome_findNamed?_iff :
    (findNamed? m searchPath (.text name)).isSome ↔
      ∃ t ∈ searchPath.splitOn ':', m.isExecutable ((Path.ofText t).joinName (.text name)) = true := by
  simp [findNamed?, directories, List.find?_isSome]

/-- What is found by a bare name is what is listed and, if a part of the search path is empty, the
programs of the working directory. -/
theorem isSome_find?_iff (hne : name ≠ []) (hslash : '/' ∉ name) :
    (find? m searchPath (Path.ofText name)).isSome ↔
      name ∈ programs m searchPath ∨
        [] ∈ searchPath.splitOn ':' ∧ m.isExecutable (Path.ofText name) = true := by
  have hempty : FileName.text name ≠ .empty := fun h => hne (FileName.text.inj h)
  have hhere : (Path.ofText []).joinName (.text name) = Path.ofText name := by
    rw [ofText_of_bare hslash]
    exact Path.joinName_of_isEmpty (.text name) rfl
  rw [find?_of_bare hwd hne hslash, isSome_findNamed?_iff, mem_programs]
  constructor
  · rintro ⟨t, ht, hexecutable⟩
    by_cases hunnamed : t = []
    · subst hunnamed
      rw [hhere] at hexecutable
      exact .inr ⟨ht, hexecutable⟩
    · have hdot : FileName.text name ≠ .dot := by
        intro hdot
        rw [isExecutable_dots hwd _ (.inl hdot)] at hexecutable
        cases hexecutable
      have hdotDot : FileName.text name ≠ .dotDot := by
        intro hdotDot
        rw [isExecutable_dots hwd _ (.inr hdotDot)] at hexecutable
        cases hexecutable
      obtain ⟨s, f, hlocate, -⟩ := isExecutable_iff.1 hexecutable
      have hentry := FileSystem.mem_entries?_of_joinName hwd (Path.isEmpty_ofText hunnamed) hempty
        hdot hdotDot hlocate
      exact .inl ⟨Path.ofText t, List.mem_map_of_mem ht, hentry, hexecutable⟩
  · rintro (⟨directory, hdirectory, -, hexecutable⟩ | ⟨hunnamed, hexecutable⟩)
    · obtain ⟨t, ht, rfl⟩ := List.mem_map.1 hdirectory
      exact ⟨t, ht, hexecutable⟩
    · refine ⟨[], hunnamed, ?_⟩
      rwa [hhere]

end

/-- With `/bin:` for a search path, `tool` is found in the working directory. -/
theorem find?_tool :
    let m : Machine := {
      files := FileSystem.empty.put [.text "home".toList, .text "tool".toList]
        (.file ⟨0o755, .data⟩)
      workingDirectory := .inTree [.text "home".toList] }
    (find? m "/bin:".toList (Path.ofText "tool".toList)).isSome ↔
      "tool".toList ∈ programs m "/bin:".toList ∨
        [] ∈ "/bin:".toList.splitOn ':' ∧ m.isExecutable (Path.ofText "tool".toList) = true := by
  intro m
  have hwd : m.files.Passable m.workingDirectory.location :=
    FileSystem.passable_root.concat (by decide)
  exact isSome_find?_iff hwd (by decide) (by decide)

/-- With an empty search path, `tool` is found in the working directory and is not listed. -/
theorem unlisted_tool :
    let m : Machine := {
      files := FileSystem.empty.put [.text "home".toList, .text "tool".toList]
        (.file ⟨0o755, .data⟩)
      workingDirectory := .inTree [.text "home".toList] }
    m.files.Passable m.workingDirectory.location ∧
      find? m [] (Path.ofText "tool".toList) = some (Path.ofText "tool".toList) ∧
      "tool".toList ∉ programs m [] := by
  intro m
  refine ⟨FileSystem.passable_root.concat (by decide), ?_, ?_⟩
  · cbv
  · have hnone : programs m [] = [] := by cbv
    rw [hnone]
    exact List.not_mem_nil

end PrefixShell.SearchPath
