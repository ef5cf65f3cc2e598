import PrefixShell.Proofs.FileSystem.Canonical
import PrefixShell.Proofs.Shell.Effect

/-!
# The two working directories

A session knows its working directory by a path, and the process is in a directory of its own.  `pwd`,
`cd` and the start of a program go by the path; patterns and the look-up of a relative path go by the
process.  Only `cd` changes the one or the other, and where it succeeds it changes both.  A program can
do what it likes to the files, but the shell stays where it is.  So lines alone never part them.

What can part them comes from outside.  If the directory that the process is in is taken away, the
process stays in it, while the path leads to whatever is made there next.

## Main results

* `Builtin.arrives_of_cdResult`: where `cd` comes to.
* `directories_execute`: a line leaves both directories as they are, or succeeds as `cd`.
* `Changed.undisturbed_or`: what can part the two directories.
* `directories_of_course`: the two directories in the course of lines and of changes from outside.
-/

namespace PrefixShell

namespace Session

/-- The directory that the session knows by its path is that of the process. -/
def InStep (s : Session) : Prop :=
  ∃ l, s.machine.workingDirectory = .inTree l ∧ s.environment.currentDirectory = l.toPath

/-- From one state to another, neither directory has changed. -/
structure Stays (s s' : Session) : Prop where
  workingDirectory_eq : s'.machine.workingDirectory = s.machine.workingDirectory
  currentDirectory_eq : s'.environment.currentDirectory = s.environment.currentDirectory

/-- From one state to another, both directories have become the canonical path of the directory that
a text leads to, taken from the present directory of the session. -/
structure Arrives (s s' : Session) (t : Text) (l : Location) : Prop where
  leads : s.machine.files.locateAny s.machine.workingDirectory true
    (s.environment.currentDirectory.join (Path.ofText t)) = .ok (.inTree l)
  canonical : s.machine.files.Canonical l
  workingDirectory_eq : s'.machine.workingDirectory = .inTree l
  currentDirectory_eq : s'.environment.currentDirectory = l.toPath

variable {s s' : Session} {t : Text} {l : Location}

theorem InStep.isAbsolute (h : s.InStep) : s.environment.currentDirectory.isAbsolute = true := by
  obtain ⟨l, -, hcurrent⟩ := h
  rw [hcurrent]
  exact l.isAbsolute_toPath

theorem Stays.inStep (h : s.Stays s') (hs : s.InStep) : s'.InStep := by
  obtain ⟨l, hworking, hcurrent⟩ := hs
  exact ⟨l, h.workingDirectory_eq.trans hworking, h.currentDirectory_eq.trans hcurrent⟩

theorem Arrives.inStep (h : s.Arrives s' t l) : s'.InStep :=
  ⟨l, h.workingDirectory_eq, h.currentDirectory_eq⟩

end Session

namespace Builtin

variable {s : Session} {e : Environment} {args : List Text} {target : Path} {l : Location}
  {m : Machine}

/-- The text that `cd` goes by: its one argument, or `HOME` where there is none or an empty one. -/
inductive Destination (e : Environment) : List Text → Text → Prop
  | given {t : Text} (h : t ≠ []) : Destination e [t] t
  | home {args : List Text} {t : Text} (h : args = [] ∨ args = [[]])
      (hhome : e.get? "HOME".toList = some t) : Destination e args t

theorem destination_of_cdTarget? (hargs : args.length ≤ 1) (h : cdTarget? e args = some target) :
    ∃ t, Destination e args t ∧ target = e.currentDirectory.join (Path.ofText t) := by
  obtain ⟨t, ht, rfl⟩ := Option.map_eq_some_iff.1 h
  refine ⟨t, ?_, rfl⟩
  match args with
  | [] => exact .home (.inl rfl) ht
  | [[]] => exact .home (.inr rfl) ht
  | [c :: rest] =>
      cases ht
      exact .given (List.cons_ne_nil c rest)
  | _ :: _ :: _ => simp at hargs

theorem cdResult_eq_ok_iff :
    cdResult s args = .ok (l, m) ↔ ∃ target, cdTarget? s.environment args = some target ∧
      s.machine.files.canonical s.machine.workingDirectory target = .ok l ∧
      s.machine.changeDirectory l.toPath = .ok m := by
  constructor
  · intro h
    rw [cdResult] at h
    split at h
    · cases h
    · rename_i target htarget
      split at h
      · cases h
      · rename_i l' hcanonical
        split at h
        · cases h
        · rename_i m' hchange
          cases h
          exact ⟨target, htarget, hcanonical, hchange⟩
  · rintro ⟨target, htarget, hcanonical, hchange⟩
    rw [cdResult, htarget]
    simp only [hcanonical, hchange]

/-- Where `cd` comes to, both directories are the canonical path of what it goes by. -/
theorem arrives_of_cdResult (habsolute : s.environment.currentDirectory.isAbsolute = true)
    (hargs : args.length ≤ 1) (h : cdResult s args = .ok (l, m)) :
    ∃ t, Destination s.environment args t ∧
      s.Arrives { s with
        machine := m
        environment := { s.environment with currentDirectory := l.toPath } } t l := by
  obtain ⟨target, htarget, hcanonical, hchange⟩ := cdResult_eq_ok_iff.1 h
  obtain ⟨t, hdestination, rfl⟩ := destination_of_cdTarget? hargs htarget
  have hnames : (Path.ofText t).names ≠ [] := by
    simp [Path.ofText]
  obtain ⟨hl, hm⟩ := Machine.changeDirectory_canonical
    (Path.isAbsolute_join habsolute hnames) hcanonical hchange
  refine ⟨t, hdestination, FileSystem.locateAny_of_canonical hcanonical, hl, ?_, rfl⟩
  show m.workingDirectory = .inTree l
  rw [hm]

/-- A built-in command leaves both directories as they are, or it is `cd` and succeeds. -/
theorem directories_run (b : Builtin) (c : Command) (w : Writer)
    (habsolute : s.environment.currentDirectory.isAbsolute = true) :
    s.Stays (b.run c s w).session ∨
      b = cd ∧ (b.run c s w).result = .ok 0 ∧
        ∃ t l, Destination s.environment c.args t ∧ s.Arrives (b.run c s w).session t l := by
  rcases b.run_cases c s w with
    ⟨status, text, h⟩ | ⟨hb, hargs, l, m, hresult, h⟩ | ⟨-, h⟩ | ⟨-, h⟩
  · rw [h.session_eq]
    exact .inl ⟨rfl, rfl⟩
  · obtain ⟨t, hdestination, harrives⟩ := arrives_of_cdResult habsolute hargs hresult
    rw [h]
    exact .inr ⟨hb, rfl, t, l, hdestination, harrives⟩
  · rw [h]
    exact .inl ⟨rfl, rfl⟩
  · rw [h.session_eq]
    exact .inl ⟨rfl, rfl⟩

end Builtin

namespace Shell

variable {allowed : Machine → Machine → Prop} {start sh sh' : Shell}

/-! ## One line -/

/-- A line that is carried out as `cd`, succeeds, and comes to the directory that `cd` goes by. -/
def Moves (sh : Shell) (line : Text) (w : Writer) : Prop :=
  ∃ c t l, sh.command? line = some c ∧ c.target = Builtin.cd.name ∧
    (sh.execute line w).result = .ok 0 ∧
    Builtin.Destination sh.session.environment c.args t ∧
    sh.session.Arrives (sh.execute line w).session t l

/-- A line leaves both directories as they are, or succeeds as `cd`. -/
theorem directories_execute (hsh : sh.factories = Builtin.factories)
    (habsolute : sh.session.environment.currentDirectory.isAbsolute = true) (line : Text)
    (w : Writer) : sh.session.Stays (sh.execute line w).session ∨ sh.Moves line w := by
  rcases execute_effect hsh line w with hidle | ⟨c, b, hc, hb, hexecute, -⟩
  · exact .inl ⟨hidle.workingDirectory_eq, congrArg (·.currentDirectory) hidle.environment_eq⟩
  · rcases b.directories_run c w habsolute with hstays | ⟨rfl, hresult, t, l, hdestination, harrives⟩
    · rw [hexecute]
      exact .inl hstays
    · rw [← hexecute] at hresult harrives
      exact .inr ⟨c, t, l, hc, hb, hresult, hdestination, harrives⟩

/-! ## The course of a session -/

/-- One turn in the course of a session: a line is carried out, or the files change from outside, in
one of the ways that are allowed. -/
inductive Turn (allowed : Machine → Machine → Prop) (sh : Shell) : Shell → Prop
  | line (line : Text) (w : Writer) : Turn allowed sh (sh.after (sh.execute line w))
  | world {machine : Machine} (h : allowed sh.session.machine machine) :
      Turn allowed sh { sh with session := { sh.session with machine } }

/-- The states that turns lead to, one after another. -/
def Course (allowed : Machine → Machine → Prop) : Shell → Shell → Prop :=
  Relation.ReflTransGen (Turn allowed)

theorem Turn.step (h : Turn allowed sh sh') : Step sh sh' := by
  cases h with
  | line line w => exact .line line w
  | world _ => exact .world _

theorem Course.later (h : Course allowed start sh) : Later start sh :=
  Relation.ReflTransGen.mono (fun _ _ => Turn.step) _ _ h

/-- With the built-in commands, what every turn keeps is true throughout. -/
theorem Course.invariant {P : Shell → Prop} (h : Course allowed start sh)
    (hstart : start.factories = Builtin.factories) (hP : P start)
    (hturn : ∀ sh sh', sh.factories = Builtin.factories → Turn allowed sh sh' → P sh → P sh') :
    P sh := by
  induction h with
  | refl => exact hP
  | tail hcourse hlast ih =>
      exact hturn _ _ ((Course.later hcourse).factories_eq.trans hstart) hlast ih

theorem Turn.isAbsolute (h : Turn allowed sh sh') (hsh : sh.factories = Builtin.factories)
    (habsolute : sh.session.environment.currentDirectory.isAbsolute = true) :
    sh'.session.environment.currentDirectory.isAbsolute = true := by
  cases h with
  | line line w =>
      show (sh.execute line w).session.environment.currentDirectory.isAbsolute = true
      rcases directories_execute hsh habsolute line w with hstays | ⟨c, t, l, -, -, -, -, harrives⟩
      · rwa [hstays.currentDirectory_eq]
      · rw [harrives.currentDirectory_eq]
        exact l.isAbsolute_toPath
  | world _ => exact habsolute

/-- The path that the session knows is absolute throughout. -/
theorem Course.isAbsolute (h : Course allowed start sh) (hstart : start.factories = Builtin.factories)
    (habsolute : start.session.environment.currentDirectory.isAbsolute = true) :
    sh.session.environment.currentDirectory.isAbsolute = true :=
  h.invariant hstart habsolute fun _ _ hsh hturn ih => hturn.isAbsolute hsh ih

/-- A change from outside that leaves the process where it is. -/
def Undisturbed (m m' : Machine) : Prop := m'.workingDirectory = m.workingDirectory

/-- The changes from outside that put something somewhere or take something away. -/
inductive Changed (m : Machine) : Machine → Prop
  | put (directory : Location) (p : Path) (n : Node) : Changed m (m.put directory p n)
  | remove (directory : Location) (p : Path) : Changed m (m.remove directory p)

/-- Nothing disturbs the process but to take away its directory, or one that holds it. -/
theorem Changed.undisturbed_or {m m' : Machine} (h : Changed m m') :
    Undisturbed m m' ∨ ∃ l, l ≠ [] ∧ l <+: m.workingDirectory.location ∧
      m'.workingDirectory = m.workingDirectory.without l := by
  cases h with
  | put directory p n => exact .inl rfl
  | remove directory p =>
      rw [Undisturbed, Machine.remove]
      split
      · rename_i s _
        by_cases hway : s.location ≠ [] ∧ s.location.isPrefixOf m.workingDirectory.location
        · exact .inr ⟨s.location, hway.1, List.isPrefixOf_iff_prefix.1 hway.2, rfl⟩
        · exact .inl (if_neg hway)
      · exact .inl rfl

theorem Turn.inStep (h : Turn Undisturbed sh sh') (hsh : sh.factories = Builtin.factories)
    (hs : sh.session.InStep) : sh'.session.InStep := by
  cases h with
  | line line w =>
      rcases directories_execute hsh hs.isAbsolute line w with
        hstays | ⟨c, t, l, -, -, -, -, harrives⟩
      · exact hstays.inStep hs
      · exact harrives.inStep
  | world hundisturbed =>
      have hstays : sh.session.Stays { sh.session with machine := _ } := ⟨hundisturbed, rfl⟩
      exact hstays.inStep hs

theorem Course.inStep (h : Course Undisturbed start sh)
    (hstart : start.factories = Builtin.factories) (hs : start.session.InStep) :
    sh.session.InStep :=
  h.invariant hstart hs fun _ _ hsh hturn ih => hturn.inStep hsh ih

/-- From a beginning at which the two directories are the same, they stay the same as long as the
process is left where it is, whatever else is done to the files. And whatever is done, a line leaves
both as they are, or succeeds as `cd` and makes both the canonical path of the directory asked for. -/
theorem directories_of_course (hstart : start.factories = Builtin.factories)
    (hs : start.session.InStep) :
    (∀ sh, Course Undisturbed start sh → sh.session.InStep) ∧
      ∀ sh, Course (fun _ _ => True) start sh →
        ∀ line w, sh.session.Stays (sh.execute line w).session ∨ sh.Moves line w := by
  refine ⟨fun sh h => h.inStep hstart hs, ?_⟩
  intro sh h line w
  exact directories_execute (h.later.factories_eq.trans hstart)
    (h.isAbsolute hstart hs.isAbsolute) line w

/-- A shell at the root of a tree in which there is an empty directory `d` and nothing else. -/
def atRoot : Shell :=
  Shell.start .default ⟨.empty, .root, false, []⟩
    { files := ⟨[(.text ['d'], .emptyDirectory)]⟩, workingDirectory := .root } Builtin.factories

theorem execute_cd_d (w : Writer) :
    atRoot.execute "cd d".toList w =
      { result := .ok 0
        session := { atRoot.session with
          machine := { atRoot.session.machine with workingDirectory := .inTree [.text ['d']] }
          environment := { atRoot.session.environment with
            currentDirectory := ⟨[.empty, .text ['d']]⟩ } }
        writer := w } := by
  let c : Command :=
    { name := "cd".toList, items := [.argument ['d'] false], rawInput := "cd d".toList }
  have hread : atRoot.read "cd d".toList = .ok (some c) := by
    show Command.parseLine ⟨Variables.empty.get?, [], true⟩
      (Glob.Place.lookUp ⟨⟨[(.text ['d'], .emptyDirectory)]⟩, .root⟩) "cd d".toList = _
    cbv
  have hcanonical : FileSystem.canonical ⟨[(.text ['d'], .emptyDirectory)]⟩ .root
      ⟨[.empty, .text ['d']]⟩ = .ok [.text ['d']] := by
    cbv
  have hchange : Machine.changeDirectory
      { files := ⟨[(.text ['d'], .emptyDirectory)]⟩, workingDirectory := .root }
      (Location.toPath [.text ['d']]) =
        .ok { files := ⟨[(.text ['d'], .emptyDirectory)]⟩
              workingDirectory := .inTree [.text ['d']] } := by
    cbv
  have hcd : Builtin.cdResult atRoot.session [['d']] = .ok ([.text ['d']], _) :=
    Builtin.cdResult_eq_ok_iff.2 ⟨⟨[.empty, .text ['d']]⟩, by decide, hcanonical, hchange⟩
  rw [execute_of_builtin rfl .cd hread rfl (resolve_builtin_start _ _ _ .cd)]
  show Builtin.runCd [['d']] atRoot.session w = _
  rw [Builtin.runCd, hcd]
  rfl

/-- At the root of this tree, the two directories are the same, and stay so until the process is
disturbed; and `cd d` changes them. -/
theorem directories_atRoot :
    atRoot.session.InStep ∧ (∀ sh, Course Undisturbed atRoot sh → sh.session.InStep) ∧
      atRoot.Moves "cd d".toList .steady := by
  have hfactories : atRoot.factories = Builtin.factories := rfl
  have hstart : atRoot.session.InStep := ⟨[], rfl, rfl⟩
  obtain ⟨hinStep, hlines⟩ := directories_of_course hfactories hstart
  refine ⟨hstart, hinStep, ?_⟩
  rcases hlines atRoot .refl "cd d".toList .steady with hstays | hmoves
  · have hsame := hstays.workingDirectory_eq
    rw [execute_cd_d] at hsame
    cases hsame
  · exact hmoves

/-- The shell at the root after `cd d`. -/
def inD : Shell := atRoot.after (atRoot.execute "cd d".toList .steady)

/-- The machine after the directory `d` has been taken away, and another one made in its place with an
entry `new`. -/
def replaced : Machine :=
  (inD.session.machine.remove [] ⟨[.text ['d']]⟩).put [] ⟨[.text ['d'], .text "new".toList]⟩
    (.file ⟨0o644, .data⟩)

theorem replaced_eq :
    replaced = {
      files := ⟨[(.text ['d'], ⟨.directory, [(.text "new".toList, ⟨.file ⟨0o644, .data⟩, []⟩)]⟩)]⟩
      workingDirectory := ⟨[], [.text ['d']]⟩ } := by
  have hmachine : inD.session.machine = {
      files := ⟨[(.text ['d'], .emptyDirectory)]⟩
      workingDirectory := .inTree [.text ['d']] } := by
    rw [inD, execute_cd_d]
    rfl
  rw [replaced, hmachine]
  cbv

/-- Once the directory of the process is replaced, the two are not the same any more: the path of the
session leads to the new directory, and the process is in the old one, which has no entries. -/
theorem parted_by_removal :
    let sh : Shell := { inD with session := { inD.session with machine := replaced } }
    let s := (sh.execute [] .steady).session
    atRoot.factories = Builtin.factories ∧ atRoot.session.InStep ∧ Course Changed atRoot sh ∧
      ¬s.InStep ∧
      s.machine.files.entries? s.machine.workingDirectory s.environment.currentDirectory =
        some [.text "new".toList] ∧
      s.machine.files.entries? s.machine.workingDirectory .dot = some [] := by
  intro sh s
  have hcourse : Course Changed atRoot sh :=
    .tail (.tail (.single (.line "cd d".toList .steady)) (.world (.remove [] ⟨[.text ['d']]⟩)))
      (.world (.put [] ⟨[.text ['d'], .text "new".toList]⟩ (.file ⟨0o644, .data⟩)))
  have hpath : inD.session.environment.currentDirectory = ⟨[.empty, .text ['d']]⟩ := by
    rw [inD, execute_cd_d]
    rfl
  have hblank : sh.execute [] .steady =
      { result := .ok 0, session := sh.session, writer := .steady } := by
    refine execute_of_blank ?_ .steady
    rw [read, Command.parseLine, Token.ofLine, Token.tokensFrom_nil]
    rfl
  have hs : s = sh.session := congrArg (·.session) hblank
  rw [hs]
  refine ⟨rfl, ⟨[], rfl, rfl⟩, hcourse, ?_, ?_, ?_⟩
  · rintro ⟨l, hl, -⟩
    have hlost : replaced.workingDirectory.lost = [] := congrArg Site.lost hl
    rw [replaced_eq] at hlost
    cases hlost
  · show replaced.files.entries? replaced.workingDirectory inD.session.environment.currentDirectory =
      _
    rw [hpath, replaced_eq]
    cbv
  · show replaced.files.entries? replaced.workingDirectory .dot = _
    rw [replaced_eq]
    cbv

end Shell

end PrefixShell
