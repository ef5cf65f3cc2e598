import PrefixShell.Proofs.SearchPath.Agreement

/-!
# Names with a slash

A name with a slash in it is the path of a program, and the search path has no part in what it refers
to.  But whether a name is looked for is not asked of its text.  It is asked of the components of the
path, and a slash at the end is no component, and neither is a `.` after it.  So `tool/` and `tool/.`
are looked for as `tool` is, although by themselves they could only lead to a directory.

## Main results

* `Path.components_of_relative`: the components of a path that begins with a name.
* `find?_of_components`: what such a path refers to, told by its components.
* `isExecutable_of_trailing`: a path that ends with a slash, or with a `.` after one, is no program.
* `find?_of_trails`, `find?_of_not_trails`, `find?_of_slash`: what a name with a slash refers to.
* `find?_tool_slash`: a name with a slash that is looked for on the search path.
-/

namespace PrefixShell

/-- A text is a name with nothing after it but slashes, and dots between them and behind: `tool/`,
`tool/.` and `tool//./`. -/
def Text.Trails (name t : Text) : Prop :=
  ∃ parts, t.splitOn '/' = name :: parts ∧ parts ≠ [] ∧ ∀ part ∈ parts, part = [] ∨ part = ['.']

namespace Path

variable {name : FileName} {rest : List FileName}

/-- Of the names beyond the first, only the empty ones and `.` do not count. -/
theorem component?_eq_none_iff : component? name = none ↔ name = .empty ∨ name = .dot := by
  rw [component?]
  by_cases hskip : name = .empty ∨ name = .dot
  · rw [if_pos (by simpa using hskip)]
    exact iff_of_true rfl hskip
  · rw [if_neg (by simpa using hskip)]
    refine iff_of_false ?_ hskip
    split <;> exact Option.some_ne_none _

/-- The components of a path that begins with a name: this name is the first of them, and the others
are those of the other names that count. -/
theorem components_of_relative (hname : name ≠ .empty) (rest : List FileName) :
    ∃ first, SearchPath.componentName first = name ∧
      components ⟨name :: rest⟩ = first :: rest.filterMap component? := by
  have hrelative : isAbsolute ⟨name :: rest⟩ = false := by simp [isAbsolute, hname]
  by_cases hdot : name = .dot
  · subst hdot
    refine ⟨.dot, rfl, ?_⟩
    rw [components, hrelative, List.filterMap_cons_none (component?_eq_none_iff.2 (.inr rfl))]
    rfl
  · have hfront : components ⟨name :: rest⟩ = (name :: rest).filterMap component? := by
      simp [components, hrelative, hdot]
    by_cases hdotDot : name = .dotDot
    · subst hdotDot
      refine ⟨.dotDot, rfl, ?_⟩
      rw [hfront]
      rfl
    · have hcomponent : component? name = some (.name name) := by
        rw [component?, if_neg (by simp [hname, hdot]), if_neg hdotDot]
      refine ⟨.name name, rfl, ?_⟩
      rw [hfront, List.filterMap_cons_some hcomponent]

/-- A slash at the end of a path, and a `.` after it, is a `.` at the end of the way. -/
theorem steps_of_trailing {front : List FileName} {last : FileName} (hfront : front ≠ [])
    (hlast : last = .empty ∨ last = .dot) : ∃ ns, steps ⟨front ++ [last]⟩ = ns ++ [.dot] := by
  rcases hlast with rfl | rfl
  · have hslash : endsInSlash ⟨front ++ [.empty]⟩ = true := by
      simp [endsInSlash, Nat.one_le_iff_ne_zero, hfront]
    exact ⟨_, by rw [steps, hslash, if_pos rfl]⟩
  · have hslash : endsInSlash ⟨front ++ [.dot]⟩ = false := by
      have hne : FileName.dot ≠ .empty := by decide
      simp [endsInSlash, hne]
    refine ⟨front.filter (· ≠ .empty), ?_⟩
    rw [steps, hslash, if_neg (by decide), List.append_nil, List.filter_append]
    rfl

end Path

namespace SearchPath

variable {m : Machine} {searchPath q : Text} {name : FileName} {rest : List FileName}

theorem findItself?_eq_some_iff {p found : Path} :
    findItself? m p = some found ↔ found = p ∧ m.isExecutable p = true := by
  rw [findItself?]
  split
  · rename_i h
    simp [h, eq_comm]
  · rename_i h
    simp [h]

section

variable (hwd : m.files.Passable m.workingDirectory.location)

include hwd

/-- A path that ends with a slash, or with a `.` after one, is no program, for it leads to a
directory. -/
theorem isExecutable_of_trailing (hrest : rest ≠ [])
    (hall : ∀ n ∈ rest, n = .empty ∨ n = .dot) : m.isExecutable ⟨name :: rest⟩ = false := by
  obtain ⟨front, last, rfl⟩ := (List.eq_nil_or_concat rest).resolve_left hrest
  rw [List.concat_eq_append] at hall ⊢
  obtain ⟨ns, hsteps⟩ := Path.steps_of_trailing (List.cons_ne_nil name front) (hall last (by simp))
  exact isExecutable_of_steps hwd (.inl rfl) hsteps

/-- Neither `.` nor `..` is found in any directory. -/
theorem findNamed?_dots (hname : name = .dot ∨ name = .dotDot) :
    findNamed? m searchPath name = none := by
  rw [findNamed?, List.find?_eq_none]
  intro p hp
  obtain ⟨directory, -, rfl⟩ := List.mem_map.1 hp
  simp [isExecutable_dots hwd directory hname]

/-- A path that begins with a name and goes on after a slash is looked for by this name if nothing
counts of the rest, and is taken as it is otherwise. -/
theorem find?_of_components (hname : name ≠ .empty) (hrest : rest ≠ []) :
    find? m searchPath ⟨name :: rest⟩ =
      if ∀ n ∈ rest, n = .empty ∨ n = .dot then findNamed? m searchPath name
      else findItself? m ⟨name :: rest⟩ := by
  obtain ⟨first, hfirst, hcomponents⟩ := Path.components_of_relative hname rest
  have hrelative : Path.isAbsolute ⟨name :: rest⟩ = false := by simp [Path.isAbsolute, hname]
  by_cases hall : ∀ n ∈ rest, n = .empty ∨ n = .dot
  · have hnone : rest.filterMap Path.component? = [] :=
      List.filterMap_eq_nil_iff.2 fun n hn => Path.component?_eq_none_iff.2 (hall n hn)
    rw [find?, hrelative, isExecutable_of_trailing hwd hrest hall, Bool.and_false, hcomponents,
      hnone, if_pos hall, ← hfirst]
    rfl
  · obtain ⟨second, others, hothers⟩ : ∃ second others,
        rest.filterMap Path.component? = second :: others := by
      refine List.exists_cons_of_ne_nil fun hnone => hall fun n hn => ?_
      exact Path.component?_eq_none_iff.1 (List.filterMap_eq_nil_iff.1 hnone n hn)
    rw [find?, hrelative, hcomponents, hothers, if_neg hall, findItself?]
    cases m.isExecutable ⟨name :: rest⟩ <;> simp

omit hwd in
/-- The path of a name with a slash in it: what stands before the slash, and something more. -/
theorem exists_parts_of_slash (hslash : '/' ∈ q) :
    ∃ first parts, '/' ∉ first ∧ parts ≠ [] ∧ q.splitOn '/' = first :: parts ∧
      Path.ofText q = ⟨.text first :: parts.map .text⟩ := by
  obtain ⟨first, behind, rfl, hfirst⟩ := List.eq_append_cons_of_mem hslash
  have hsplit := List.splitOn_append_cons_self_of_not_mem hfirst behind
  refine ⟨first, behind.splitOn '/', hfirst, List.splitOn_ne_nil '/' behind, hsplit, ?_⟩
  rw [Path.ofText, hsplit, List.map_cons]

/-- A bare name with nothing after it but slashes and dots is looked for as the bare name is. -/
theorem find?_of_trails {bare : Text} (hlegal : (FileName.text bare).Legal) (htrails : bare.Trails q) :
    find? m searchPath (Path.ofText q) = find? m searchPath (Path.ofText bare) ∧
      m.isExecutable (Path.ofText q) = false := by
  obtain ⟨parts, hsplit, hne, hall⟩ := htrails
  have hpath : Path.ofText q = ⟨.text bare :: parts.map .text⟩ := by
    rw [Path.ofText, hsplit, List.map_cons]
  have hbare : bare ≠ [] := fun hnil => hlegal.ne_empty (congrArg _ hnil)
  have hrest : parts.map FileName.text ≠ [] := mt List.map_eq_nil_iff.1 hne
  have hdots : ∀ n ∈ parts.map FileName.text, n = .empty ∨ n = .dot := by
    simpa [FileName.empty, FileName.dot] using hall
  rw [hpath, find?_of_bare hwd hbare (hlegal.noSlash bare rfl),
    find?_of_components hwd hlegal.ne_empty hrest, if_pos hdots]
  exact ⟨rfl, isExecutable_of_trailing hwd hrest hdots⟩

/-- Any other name with a slash in it is the path of what it refers to. -/
theorem find?_of_not_trails (hslash : '/' ∈ q)
    (hnot : ¬∃ bare, (FileName.text bare).Legal ∧ bare.Trails q) {p : Path} :
    find? m searchPath (Path.ofText q) = some p ↔
      p = Path.ofText q ∧ m.isExecutable (Path.ofText q) = true := by
  obtain ⟨first, parts, hfirst, hne, hsplit, hpath⟩ := exists_parts_of_slash hslash
  have hrest : parts.map FileName.text ≠ [] := mt List.map_eq_nil_iff.1 hne
  rw [hpath]
  by_cases hempty : FileName.text first = .empty
  · -- The path begins with a slash.
    have habsolute : Path.isAbsolute ⟨.text first :: parts.map .text⟩ = true := by
      simp [Path.isAbsolute, hempty, Nat.one_le_iff_ne_zero, hne]
    rw [find?, habsolute, if_pos rfl, findItself?_eq_some_iff]
  · rw [find?_of_components hwd hempty hrest]
    split
    · -- The first name is `.` or `..`, for no other is left.
      rename_i hall
      have hdots : ∀ part ∈ parts, part = [] ∨ part = ['.'] := by
        simpa [FileName.empty, FileName.dot] using hall
      have hdotted : FileName.text first = .dot ∨ FileName.text first = .dotDot := by
        by_contra hneither
        obtain ⟨hdot, hdotDot⟩ := not_or.1 hneither
        refine hnot ⟨first, ⟨hempty, hdot, hdotDot, ?_⟩, parts, hsplit, hne, hdots⟩
        rintro t ⟨⟩
        exact hfirst
      rw [findNamed?_dots hwd hdotted, isExecutable_of_trailing hwd hrest hall]
      simp
    · exact findItself?_eq_some_iff

/-- A name with a slash in it refers to the program that it is the path of, whatever the search path
is.  The one exception is a bare name with nothing after it but slashes and dots: it is the path of no
program, and it is looked for as the bare name is. -/
theorem find?_of_slash (hslash : '/' ∈ q) :
    (∀ name, (FileName.text name).Legal → name.Trails q →
      find? m searchPath (Path.ofText q) = find? m searchPath (Path.ofText name) ∧
        m.isExecutable (Path.ofText q) = false) ∧
    ((¬∃ name, (FileName.text name).Legal ∧ name.Trails q) → ∀ p,
      find? m searchPath (Path.ofText q) = some p ↔
        p = Path.ofText q ∧ m.isExecutable (Path.ofText q) = true) :=
  ⟨fun _ hlegal htrails => find?_of_trails hwd hlegal htrails,
    fun hnot _ => find?_of_not_trails hwd hslash hnot⟩

end

/-- With `/bin` for a search path, `tool/` is looked for as `tool` is, and `./tool` is not looked
for. -/
theorem find?_of_slash_tool :
    let m : Machine := {
      files := FileSystem.empty.put [.text "bin".toList, .text "tool".toList] (.file ⟨0o755, .data⟩)
      workingDirectory := .inTree [.text "bin".toList] }
    find? m "/bin".toList (Path.ofText "tool/".toList) =
        find? m "/bin".toList (Path.ofText "tool".toList) ∧
      find? m "/bin".toList (Path.ofText "./tool".toList) = some (Path.ofText "./tool".toList) := by
  intro m
  have hwd : m.files.Passable m.workingDirectory.location :=
    FileSystem.passable_root.concat (by decide)
  have hlegal : (FileName.text "tool".toList).Legal :=
    ⟨by decide, by decide, by decide, by rintro t ⟨⟩; decide⟩
  refine ⟨((find?_of_slash hwd (by decide)).1 "tool".toList hlegal ?_).1, ?_⟩
  · exact ⟨[[]], by decide, by decide, by decide⟩
  · refine ((find?_of_slash hwd (by decide)).2 ?_ _).2 ⟨rfl, by cbv⟩
    rintro ⟨name, hname, parts, hparts, -⟩
    obtain ⟨rfl, -⟩ := List.cons.inj (hparts.symm.trans (show _ = [['.'], "tool".toList] by decide))
    exact hname.ne_dot rfl

/-- With `/bin` for a search path, `tool/` refers to a program there, although it is the path of
none. -/
theorem find?_tool_slash :
    let m : Machine := {
      files := FileSystem.empty.put [.text "bin".toList, .text "tool".toList] (.file ⟨0o755, .data⟩)
      workingDirectory := .inTree [] }
    m.files.Passable m.workingDirectory.location ∧
      find? m "/bin".toList (Path.ofText "tool/".toList) = some (Path.ofText "/bin/tool".toList) ∧
      m.isExecutable (Path.ofText "tool/".toList) = false := by
  intro m
  refine ⟨FileSystem.passable_root, ?_, ?_⟩
  · cbv
  · cbv

end SearchPath

end PrefixShell
