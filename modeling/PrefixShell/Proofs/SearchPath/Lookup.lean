import PrefixShell.Proofs.FileSystem.Legal
import PrefixShell.SearchPath

/-!
# What is listed can be found

A search path is used in two ways that have nothing in common but the directories.  Listing reads
them and keeps the names of the programs in them; looking up joins a name to one directory after the
other.  Still they agree on the names that entries can have: a name that is listed is found, in the
first directory with a program of this name.

The names have to be legal.  A tree could hold an entry whose name has a slash in it, and such a
name would be listed but, typed in a line, be taken for a path.

What a program is, and which directory has one, is said of the files: `HasProgram` and `Offers` name
the entries of a directory, where paths lead to, and the bits of what is there.

## Main results

* `mem_programs`, `mem_programs_iff_offers`: what is listed.
* `find?_of_legal`: how a legal name is looked up.
* `find?_of_mem_programs`: what is listed is found.
-/

namespace PrefixShell

/-- The path leads to a file that somebody may start. -/
def Machine.HasProgram (m : Machine) (p : Path) : Prop :=
  ∃ s f, m.files.locate m.workingDirectory true p = .ok s ∧
    m.files.nodeAt? s = some (.file f) ∧ f.mode &&& 0o111 ≠ 0

/-- The path leads to a directory with an entry of this name, and this is the name of a program
there. -/
structure Machine.Offers (m : Machine) (directory : Path) (name : Text) : Prop where
  hasEntry : ∃ s, m.files.locate m.workingDirectory true directory = .ok s ∧
    m.files.nodeAt? s = some .directory ∧ .text name ∈ (m.files.childrenAt s).map Prod.fst
  hasProgram : m.HasProgram (directory.joinName (.text name))

namespace SearchPath

variable {m : Machine} {searchPath name : Text}

theorem isExecutable_iff {p : Path} : m.isExecutable p = true ↔ m.HasProgram p := by
  rw [Machine.isExecutable, FileSystem.isExecutable, FileSystem.at?, Machine.HasProgram]
  cases hlocate : m.files.locate m.workingDirectory true p with
  | error cause => simp [Except.toOption]
  | ok s =>
      cases hnode : m.files.nodeAt? s with
      | none => simp [Except.toOption, hnode]
      | some n => cases n <;> simp [Except.toOption, hnode, File.isExecutable]

theorem mem_entries?_iff {directory : Path} :
    .text name ∈ (m.files.entries? m.workingDirectory directory).getD [] ↔
      ∃ s, m.files.locate m.workingDirectory true directory = .ok s ∧
        m.files.nodeAt? s = some .directory ∧ .text name ∈ (m.files.childrenAt s).map Prod.fst := by
  rw [FileSystem.entries?, FileSystem.directory?]
  cases hlocate : m.files.locate m.workingDirectory true directory with
  | error cause => simp [Except.toOption]
  | ok s =>
      by_cases hnode : m.files.nodeAt? s = some .directory
      · simp [Except.toOption, Option.filter_some, hnode]
      · simp [Except.toOption, Option.filter_some, hnode]

/-! ## Listing -/

theorem mem_programsIn {directory : Path} :
    name ∈ programsIn m directory ↔
      .text name ∈ (m.files.entries? m.workingDirectory directory).getD [] ∧
        m.isExecutable (directory.joinName (.text name)) = true := by
  rw [programsIn, List.mem_filterMap]
  constructor
  · rintro ⟨entry, hentry, hname⟩
    by_cases hexecutable : m.isExecutable (directory.joinName entry) = true
    · rw [if_pos hexecutable] at hname
      cases entry with
      | text t =>
          obtain rfl : t = name := Option.some.inj hname
          exact ⟨hentry, hexecutable⟩
      | bytes bs => cases hname
    · rw [if_neg hexecutable] at hname
      cases hname
  · rintro ⟨hentry, hexecutable⟩
    exact ⟨.text name, hentry, if_pos hexecutable⟩

/-- What is listed are the programs in the directories of the search path. -/
theorem mem_programs :
    name ∈ programs m searchPath ↔ ∃ directory ∈ directories searchPath,
      .text name ∈ (m.files.entries? m.workingDirectory directory).getD [] ∧
        m.isExecutable (directory.joinName (.text name)) = true := by
  simp only [programs, Text.mem_sortedSet, List.mem_flatMap, mem_programsIn]

/-- What is listed is what the directories of the search path offer. -/
theorem mem_programs_iff_offers :
    name ∈ programs m searchPath ↔ ∃ t ∈ searchPath.splitOn ':', m.Offers (.ofText t) name := by
  rw [mem_programs]
  constructor
  · rintro ⟨directory, hdirectory, hentry, hexecutable⟩
    obtain ⟨t, ht, rfl⟩ := List.mem_map.1 hdirectory
    exact ⟨t, ht, mem_entries?_iff.1 hentry, isExecutable_iff.1 hexecutable⟩
  · rintro ⟨t, ht, hoffers⟩
    exact ⟨.ofText t, List.mem_map_of_mem ht, mem_entries?_iff.2 hoffers.hasEntry,
      isExecutable_iff.2 hoffers.hasProgram⟩

theorem legal_of_mem_programs (h : m.files.Legal) (hname : name ∈ programs m searchPath) :
    (FileName.text name).Legal := by
  obtain ⟨directory, -, hentry, -⟩ := mem_programs.1 hname
  exact FileSystem.legal_of_mem_entries h hentry

/-! ## Looking up -/

/-- A text without a slash is a path of one name. -/
theorem ofText_of_bare (hslash : '/' ∉ name) : Path.ofText name = .ofName (.text name) := by
  rw [Path.ofText, List.splitOn_eq_singleton hslash]
  rfl

theorem components_of_legal {name : FileName} (h : name.Legal) :
    (Path.ofName name).components = [.name name] := by
  have hcomponent : Path.component? name = some (.name name) := by
    rw [Path.component?, if_neg (by simp [h.ne_empty, h.ne_dot]), if_neg h.ne_dotDot]
  have hdot : ¬some name = some FileName.dot := fun heq => h.ne_dot (Option.some.inj heq)
  show (if some name = some FileName.dot then [Path.Component.dot] else []) ++
    [name].filterMap Path.component? = _
  rw [if_neg hdot, List.filterMap_cons_some hcomponent]
  rfl

/-- A legal name is looked for in one directory after the other. -/
theorem find?_of_legal (h : (FileName.text name).Legal) :
    find? m searchPath (Path.ofText name) = findNamed? m searchPath (.text name) := by
  have hcomponents := components_of_legal h
  have hdot : (Path.ofName (.text name)).beginsWithDot = false := by
    rw [Path.beginsWithDot, hcomponents]
    rfl
  rw [ofText_of_bare (h.noSlash name rfl), find?, if_neg (by simp [Path.ofName, Path.isAbsolute]), hdot, hcomponents]
  rfl

/-- The first directory of a search path with a program of a name. -/
def FirstWith (m : Machine) (searchPath name : Text) (directory : Path) : Prop :=
  m.HasProgram (directory.joinName (.text name)) ∧
    ∃ before after, (searchPath.splitOn ':').map Path.ofText = before ++ directory :: after ∧
      ∀ other ∈ before, ¬m.HasProgram (other.joinName (.text name))

/-- What is listed is found: in the first directory with a program of this name. -/
theorem find?_of_mem_programs (h : m.files.Legal) (hname : name ∈ programs m searchPath) :
    ∃ directory, FirstWith m searchPath name directory ∧
      find? m searchPath (Path.ofText name) = some (directory.joinName (.text name)) := by
  obtain ⟨listed, hmem, -, hexecutable⟩ := mem_programs.1 hname
  have hsome : ((directories searchPath).find? fun directory =>
      m.isExecutable (directory.joinName (.text name))).isSome := by
    rw [List.find?_isSome]
    exact ⟨listed, hmem, hexecutable⟩
  obtain ⟨directory, hfind⟩ := Option.isSome_iff_exists.1 hsome
  refine ⟨directory, ?_, ?_⟩
  · obtain ⟨hfound, before, after, hsplit, hbefore⟩ := List.find?_eq_some_iff_append.1 hfind
    refine ⟨isExecutable_iff.1 hfound, before, after, hsplit, ?_⟩
    intro other hother hprogram
    rw [← isExecutable_iff] at hprogram
    simpa [hprogram] using hbefore other hother
  · -- Looking up goes through the paths `directory/name`, and not through the directories.
    rw [find?_of_legal (legal_of_mem_programs h hname), findNamed?, List.find?_map]
    exact congrArg (Option.map (·.joinName (.text name))) hfind

end SearchPath

end PrefixShell
