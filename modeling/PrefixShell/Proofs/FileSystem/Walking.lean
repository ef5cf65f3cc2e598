import PrefixShell.FileSystem.Walk
import PrefixShell.Proofs.FileSystem.Joining

/-!
# Where a walk leads

A walk goes through directories.  So whatever stands at its end, what stands before its last name is
a directory, and the last name is the name of an entry of it.  That is what joins the two ways in
which a directory is used: to read its entries, and to follow a path that has one more name.

A location is `Passable` if it is a directory and if all that hold it are.

## Main results

* `walk_split`: a walk up to its last name comes to a directory.
* `walk_invariant`: what is true of the root and kept by single steps is true of where a walk leads.
* `mem_entries?_of_joinName`: what is found by a name joined to a directory is an entry of it.
-/

namespace PrefixShell.FileSystem

variable {fs : FileSystem} {followLast : Bool} {links : Nat} {l l' : Location}
  {name : FileName} {names ns rest : List FileName}

/-! ## One step -/

theorem walk_nil : fs.walk followLast links l [] = .ok l := by
  rw [walk]

theorem walk_dot : fs.walk followLast links l (.dot :: rest) = fs.walk followLast links l rest := by
  rw [walk, if_pos rfl]

theorem walk_dotDot :
    fs.walk followLast links l (.dotDot :: rest) = fs.walk followLast links l.parent rest := by
  rw [walk, if_neg (by decide), if_pos rfl]

/-- A name that is followed as the name of an entry. -/
structure Followable (name : FileName) : Prop where
  ne_dot : name ≠ .dot
  ne_dotDot : name ≠ .dotDot
  length_le : name.toBytes.length ≤ maxNameLength

theorem walk_directory (hname : Followable name)
    (hnode : fs.node? (l ++ [name]) = some .directory) :
    fs.walk followLast links l (name :: rest) = fs.walk followLast links (l ++ [name]) rest := by
  rw [walk, if_neg hname.ne_dot, if_neg hname.ne_dotDot, if_neg (Nat.not_lt.2 hname.length_le),
    hnode]

theorem walk_link {target : Path} (hname : Followable name)
    (hnode : fs.node? (l ++ [name]) = some (.link target)) :
    fs.walk true (links + 1) l (name :: rest) =
      fs.walk true links (if target.isAbsolute then [] else l) (target.steps ++ rest) := by
  rw [walk, if_neg hname.ne_dot, if_neg hname.ne_dotDot, if_neg (Nat.not_lt.2 hname.length_le),
    hnode]
  simp

theorem walk_file {f : File} (hname : Followable name)
    (hnode : fs.node? (l ++ [name]) = some (.file f)) :
    fs.walk followLast links l [name] = .ok (l ++ [name]) := by
  rw [walk, if_neg hname.ne_dot, if_neg hname.ne_dotDot, if_neg (Nat.not_lt.2 hname.length_le),
    hnode]
  rfl

/-- A single name leads to an entry. -/
theorem isSome_of_walk_singleton (hdot : name ≠ .dot) (hdotDot : name ≠ .dotDot)
    (h : fs.walk true links l [name] = .ok l') : (fs.node? (l ++ [name])).isSome := by
  rw [walk, if_neg hdot, if_neg hdotDot] at h
  split at h
  · cases h
  · cases hnode : fs.node? (l ++ [name]) with
    | none =>
        rw [hnode] at h
        cases h
    | some node => rfl

/-! ## Directories on the way -/

/-- A location is a directory, and so are all that hold it. -/
def Passable (fs : FileSystem) (l : Location) : Prop :=
  ∀ l', l' <+: l → fs.node? l' = some .directory

theorem passable_root : fs.Passable [] := by
  intro l' h
  rw [List.prefix_nil.1 h]
  rfl

theorem Passable.node?_eq (h : fs.Passable l) : fs.node? l = some .directory :=
  h l (List.prefix_refl l)

theorem Passable.parent (h : fs.Passable l) : fs.Passable l.parent := by
  intro l' hway
  exact h l' (hway.trans (List.dropLast_prefix l))

theorem Passable.concat (h : fs.Passable l) (hnode : fs.node? (l ++ [name]) = some .directory) :
    fs.Passable (l ++ [name]) := by
  intro l' hway
  rcases List.prefix_concat_iff.1 hway with rfl | hway
  · exact hnode
  · exact h l' hway

/-- Up to its last name, a walk goes through directories alone, and comes to one. From there any
names could be followed. -/
theorem walk_split (hl : fs.Passable l) (h : fs.walk true links l names = .ok l') (ns : List FileName)
    (last : FileName) (hnames : names = ns ++ [last]) :
    ∃ links' m, fs.Passable m ∧
      ∀ more, fs.walk true links l (ns ++ more) = fs.walk true links' m more := by
  -- By induction on the walk. With one name left the walk has come to the directory; before that
  -- the first name is `.`, `..`, a directory or a link, and each of them leads to a directory.
  fun_induction fs.walk true links l names generalizing ns with
  | case1 links l => simp at hnames
  | case2 links l rest ih =>
      rcases List.cons_eq_append_iff.1 hnames with ⟨rfl, -⟩ | ⟨ns, rfl, hrest⟩
      · exact ⟨links, l, hl, fun more => rfl⟩
      · obtain ⟨links', m, hm, hmore⟩ := ih hl h ns hrest
        exact ⟨links', m, hm, fun more => walk_dot.trans (hmore more)⟩
  | case3 links l rest _ ih =>
      rcases List.cons_eq_append_iff.1 hnames with ⟨rfl, -⟩ | ⟨ns, rfl, hrest⟩
      · exact ⟨links, l, hl, fun more => rfl⟩
      · obtain ⟨links', m, hm, hmore⟩ := ih hl.parent h ns hrest
        exact ⟨links', m, hm, fun more => walk_dotDot.trans (hmore more)⟩
  | case6 links l name rest hdot hdotDot hlength hnode ih =>
      rcases List.cons_eq_append_iff.1 hnames with ⟨rfl, -⟩ | ⟨ns, rfl, hrest⟩
      · exact ⟨links, l, hl, fun more => rfl⟩
      · have hname : Followable name := ⟨hdot, hdotDot, Nat.not_lt.1 hlength⟩
        obtain ⟨links', m, hm, hmore⟩ := ih (hl.concat hnode) h ns hrest
        exact ⟨links', m, hm, fun more => (walk_directory hname hnode).trans (hmore more)⟩
  | case7 links l name =>
      rcases List.cons_eq_append_iff.1 hnames with ⟨rfl, -⟩ | ⟨ns, rfl, hrest⟩
      · exact ⟨links, l, hl, fun more => rfl⟩
      · simp at hrest
  | case11 l name rest hdot hdotDot hlength target hnode hfollow links ih =>
      rcases List.cons_eq_append_iff.1 hnames with ⟨rfl, -⟩ | ⟨ns, rfl, rfl⟩
      · exact ⟨links + 1, l, hl, fun more => rfl⟩
      · have hname : Followable name := ⟨hdot, hdotDot, Nat.not_lt.1 hlength⟩
        have hstart : fs.Passable (if target.isAbsolute then [] else l) := by
          split
          · exact passable_root
          · exact hl
        obtain ⟨links', m, hm, hmore⟩ := ih hstart h (target.steps ++ ns) (List.append_assoc ..).symm
        refine ⟨links', m, hm, ?_⟩
        intro more
        rw [List.cons_append, walk_link hname hnode, ← List.append_assoc]
        exact hmore more
  | case9 links l name rest _ _ _ target _ hstay => cases hstay.2
  | case4 | case5 | case8 | case10 => cases h

/-- A walk that leads to a directory leads there with a `.` after it, too. -/
theorem walk_concat_dot (h : fs.walk true links l names = .ok l')
    (hdirectory : fs.node? l' = some .directory) :
    fs.walk true links l (names ++ [.dot]) = .ok l' := by
  fun_induction fs.walk true links l names with
  | case1 links l =>
      rw [List.nil_append, walk_dot, walk_nil]
      exact h
  | case2 links l rest ih =>
      rw [List.cons_append, walk_dot]
      exact ih h
  | case3 links l rest _ ih =>
      rw [List.cons_append, walk_dotDot]
      exact ih h
  | case6 links l name rest hdot hdotDot hlength hnode ih =>
      rw [List.cons_append, walk_directory ⟨hdot, hdotDot, Nat.not_lt.1 hlength⟩ hnode]
      exact ih h
  | case7 links l name _ _ _ f hnode =>
      cases h
      rw [hnode] at hdirectory
      cases hdirectory
  | case11 l name rest hdot hdotDot hlength target hnode hfollow links ih =>
      rw [List.cons_append, walk_link ⟨hdot, hdotDot, Nat.not_lt.1 hlength⟩ hnode,
        ← List.append_assoc]
      exact ih h
  | case9 links l name rest _ _ _ target _ hstay => cases hstay.2
  | case4 | case5 | case8 | case10 => cases h

/-- What is true of the root, and kept by a step to an entry and by a step outward, is true of where a
walk leads, or of the directory there if the walk leads to a file. -/
theorem walk_invariant {P : Location → Prop} (root : P []) (outward : ∀ l, P l → P l.parent)
    (inward : ∀ l name, P l → name ≠ .empty → Followable name →
      fs.node? (l ++ [name]) = some .directory → P (l ++ [name]))
    (hl : P l) (hnames : ∀ name ∈ names, name ≠ .empty)
    (h : fs.walk true links l names = .ok l') :
    P l' ∨ ∃ m name f, l' = m ++ [name] ∧ P m ∧ name ≠ .empty ∧ Followable name ∧
      fs.node? l' = some (.file f) := by
  fun_induction fs.walk true links l names with
  | case1 links l =>
      cases h
      exact .inl hl
  | case2 links l rest ih => exact ih hl (List.forall_mem_cons.1 hnames).2 h
  | case3 links l rest _ ih => exact ih (outward l hl) (List.forall_mem_cons.1 hnames).2 h
  | case6 links l name rest hdot hdotDot hlength hentry ih =>
      obtain ⟨hempty, hrest⟩ := List.forall_mem_cons.1 hnames
      exact ih (inward l name hl hempty ⟨hdot, hdotDot, Nat.not_lt.1 hlength⟩ hentry) hrest h
  | case7 links l name hdot hdotDot hlength f hentry =>
      cases h
      exact .inr ⟨l, name, f, rfl, hl, hnames name List.mem_cons_self,
        ⟨hdot, hdotDot, Nat.not_lt.1 hlength⟩, hentry⟩
  | case11 l name rest hdot hdotDot hlength target hentry hfollow links ih =>
      refine ih ?_ ?_ h
      · split
        · exact root
        · exact hl
      · intro next hnext
        rcases List.mem_append.1 hnext with htarget | hrest
        · exact target.ne_empty_of_mem_steps htarget
        · exact hnames next (List.mem_cons_of_mem name hrest)
  | case9 links l name rest _ _ _ target _ hstay => cases hstay.2
  | case4 | case5 | case8 | case10 => cases h

/-! ## From a site -/

variable {s s' : Site} {workingDirectory : Site} {p : Path}

theorem nodeAt?_of_passable (h : fs.Passable s.location) : fs.nodeAt? s = some .directory := by
  rw [nodeAt?]
  split
  · exact h.node?_eq
  · rfl

theorem follow_inTree :
    fs.follow followLast (.inTree l) names =
      (fs.walk followLast maxLinks l names).map .inTree := by
  cases names with
  | nil =>
      rw [follow, walk_nil]
      rfl
  | cons name names =>
      rw [follow]
      exact if_pos rfl

theorem follow_dot (h : s.lost ≠ []) :
    fs.follow followLast s (.dot :: rest) = fs.follow followLast s rest := by
  rw [follow, if_neg h, if_pos rfl]

theorem follow_dotDot (h : s.lost ≠ []) :
    fs.follow followLast s (.dotDot :: rest) = fs.follow followLast s.outward rest := by
  rw [follow, if_neg h, if_neg (by decide), if_pos rfl]

/-- Up to their last, the names lead to a directory that is in the tree, or to one that is out of
it. -/
theorem follow_split (hs : fs.Passable s.location) (h : fs.follow true s names = .ok s')
    (ns : List FileName) (last : FileName) (hnames : names = ns ++ [last]) :
    (∃ links m, fs.Passable m ∧
      ∀ more, fs.follow true s (ns ++ more) = (fs.walk true links m more).map .inTree) ∨
    ∃ m : Site, m.lost ≠ [] ∧ fs.Passable m.location ∧
      ∀ more, fs.follow true s (ns ++ more) = fs.follow true m more := by
  fun_induction fs.follow true s names generalizing ns with
  | case1 s => simp at hnames
  | case2 s name rest hlost =>
      obtain ⟨l, lost⟩ := s
      obtain rfl : lost = [] := hlost
      cases hwalk : fs.walk true maxLinks l (name :: rest) with
      | error cause =>
          rw [hwalk] at h
          cases h
      | ok l' =>
          obtain ⟨links, m, hm, hmore⟩ := walk_split hs hwalk ns last hnames
          refine .inl ⟨links, m, hm, ?_⟩
          intro more
          rw [← hmore]
          exact follow_inTree
  | case3 s rest hlost ih =>
      rcases List.cons_eq_append_iff.1 hnames with ⟨rfl, -⟩ | ⟨ns, rfl, hrest⟩
      · exact .inr ⟨s, hlost, hs, fun more => rfl⟩
      · have hsplit := ih hs h ns hrest
        simp only [List.cons_append, follow_dot hlost]
        exact hsplit
  | case4 s rest hlost _ ih =>
      rcases List.cons_eq_append_iff.1 hnames with ⟨rfl, -⟩ | ⟨ns, rfl, hrest⟩
      · exact .inr ⟨s, hlost, hs, fun more => rfl⟩
      · have hsplit := ih hs h ns hrest
        simp only [List.cons_append, follow_dotDot hlost]
        exact hsplit
  | case5 => cases h

/-- An entry is found in a directory to which the names before it lead, and would lead also with a
`.` after them. -/
theorem entry_of_follow (hs : fs.Passable s.location) (hdot : name ≠ .dot)
    (hdotDot : name ≠ .dotDot) (h : fs.follow true s (ns ++ [name]) = .ok s') :
    ∃ m, fs.Passable m ∧ (fs.node? (m ++ [name])).isSome ∧
      fs.follow true s ns = .ok (.inTree m) ∧
      fs.follow true s (ns ++ [.dot]) = .ok (.inTree m) := by
  rcases follow_split hs h ns name rfl with ⟨links, m, hm, hmore⟩ | ⟨m, hlost, hm, hmore⟩
  · rw [hmore] at h
    cases hwalk : fs.walk true links m [name] with
    | error cause =>
        rw [hwalk] at h
        cases h
    | ok l' =>
        have hhere := hmore []
        have hstay := hmore [.dot]
        rw [List.append_nil, walk_nil] at hhere
        rw [walk_dot, walk_nil] at hstay
        exact ⟨m, hm, isSome_of_walk_singleton hdot hdotDot hwalk, hhere, hstay⟩
  · -- A directory out of the tree has no entries.
    rw [hmore, follow, if_neg hlost, if_neg hdot, if_neg hdotDot] at h
    cases h

/-- Names that end in `.` or `..` lead to a directory. -/
theorem directory_of_follow (hs : fs.Passable s.location) (hname : name = .dot ∨ name = .dotDot)
    (h : fs.follow true s (ns ++ [name]) = .ok s') : fs.nodeAt? s' = some .directory := by
  rcases follow_split hs h ns name rfl with ⟨links, m, hm, hmore⟩ | ⟨m, hlost, hm, hmore⟩
  · rw [hmore] at h
    rcases hname with rfl | rfl
    · rw [walk_dot, walk_nil] at h
      cases h
      exact nodeAt?_of_passable hm
    · rw [walk_dotDot, walk_nil] at h
      cases h
      exact nodeAt?_of_passable hm.parent
  · rw [hmore] at h
    rcases hname with rfl | rfl
    · rw [follow_dot hlost, follow] at h
      cases h
      exact nodeAt?_of_passable hm
    · rw [follow_dotDot hlost, follow] at h
      cases h
      exact nodeAt?_of_passable hm

theorem follow_concat_dot (h : fs.follow true s names = .ok s')
    (hdirectory : fs.nodeAt? s' = some .directory) :
    fs.follow true s (names ++ [.dot]) = .ok s' := by
  fun_induction fs.follow true s names with
  | case1 s =>
      by_cases hlost : s.lost = []
      · obtain ⟨l, lost⟩ := s
        obtain rfl : lost = [] := hlost
        rw [List.nil_append, follow, if_pos rfl, walk_dot, walk_nil]
        exact h
      · rw [List.nil_append, follow_dot hlost, follow]
        exact h
  | case2 s name rest hlost =>
      obtain ⟨l, lost⟩ := s
      obtain rfl : lost = [] := hlost
      cases hwalk : fs.walk true maxLinks l (name :: rest) with
      | error cause =>
          rw [hwalk] at h
          cases h
      | ok l' =>
          rw [hwalk] at h
          cases h
          show fs.follow true (.inTree l) _ = _
          rw [follow_inTree, walk_concat_dot hwalk hdirectory]
          rfl
  | case3 s rest hlost ih =>
      rw [List.cons_append, follow_dot hlost]
      exact ih h
  | case4 s rest hlost _ ih =>
      rw [List.cons_append, follow_dotDot hlost]
      exact ih h
  | case5 => cases h

/-! ## By a path -/

theorem locate_eq_ok_iff :
    fs.locate workingDirectory followLast p = .ok s ↔
      p.hasNul = false ∧ p.byteLength ≤ maxPathLength ∧ p.isEmpty = false ∧
        fs.follow followLast (if p.isAbsolute then .root else workingDirectory) p.steps = .ok s := by
  rw [locate, locateAny]
  cases p.hasNul <;> cases p.isEmpty <;> by_cases hlength : p.byteLength > maxPathLength <;>
    simp [hlength]
  all_goals omega

/-- An empty name joined to the path of a directory leads to the directory, or nowhere. -/
theorem locate_joinName_empty (h : fs.locate workingDirectory true p = .ok s)
    (hdirectory : fs.nodeAt? s = some .directory)
    (hjoined : fs.locate workingDirectory true (p.joinName .empty) = .ok s') : s' = s := by
  obtain ⟨-, -, hempty, hfollow⟩ := locate_eq_ok_iff.1 h
  obtain ⟨-, -, -, hfollow'⟩ := locate_eq_ok_iff.1 hjoined
  rw [Path.isAbsolute_joinName hempty] at hfollow'
  rcases Path.steps_joinName_empty hempty with hsteps | hsteps
  · rw [hsteps, hfollow] at hfollow'
    exact (Except.ok.inj hfollow').symm
  · rw [hsteps, follow_concat_dot hfollow hdirectory] at hfollow'
    exact (Except.ok.inj hfollow').symm

/-- What is found by a name joined to the path of a directory is an entry of this directory. -/
theorem mem_entries?_of_joinName (hwd : fs.Passable workingDirectory.location)
    (hp : p.isEmpty = false) (hempty : name ≠ .empty) (hdot : name ≠ .dot)
    (hdotDot : name ≠ .dotDot) (h : fs.locate workingDirectory true (p.joinName name) = .ok s) :
    name ∈ (fs.entries? workingDirectory p).getD [] := by
  obtain ⟨hnul, hlength, -, hfollow⟩ := locate_eq_ok_iff.1 h
  rw [Path.steps_joinName p hempty, Path.isAbsolute_joinName hp] at hfollow
  have hstart : fs.Passable
      (if p.isAbsolute then Site.root else workingDirectory).location := by
    split
    · exact passable_root
    · exact hwd
  obtain ⟨m, hm, hentry, hhere, hstay⟩ := entry_of_follow hstart hdot hdotDot hfollow
  -- A slash at the end of a path asks for a directory, and `m` is one.
  have hdirectory : fs.locate workingDirectory true p = .ok (.inTree m) := by
    refine locate_eq_ok_iff.2 ⟨Path.hasNul_joinName hp hnul,
      Nat.le_trans (Path.byteLength_le_joinName hp) hlength, hp, ?_⟩
    rw [Path.steps]
    cases p.endsInSlash with
    | true => exact hstay
    | false => simpa using hhere
  have hsite : fs.directory? workingDirectory p = some (.inTree m) := by
    rw [directory?, hdirectory]
    exact Option.filter_eq_some_iff.2
      ⟨rfl, decide_eq_true (nodeAt?_of_passable (s := .inTree m) hm)⟩
  rw [entries?, hsite]
  exact mem_children.2 hentry

end PrefixShell.FileSystem
