import PrefixShell.Proofs.SearchPath.Agreement
import PrefixShell.Proofs.Shell.Directory

/-!
# Which line may touch what

Each part of the state has one built-in command that may change it.  Only `exit` asks to leave, only
`cd` changes the directory, and only `rehash` changes the known names.  Which of them a line is
carried out as is told by its target, the name that its command resolves to; however the line is
spelled, and whatever programs there are of that name, it is the target that counts.  The variables,
the settings and whether names may be abbreviated are not touched by any line.

After `rehash` the known names are those of the built-in commands and, if programs are to be known by
name, of the programs that are then on the search path of the start.  They are so whether or not the
count is taken that it writes; but where it is, it is their number.

## Main results

* `Builtin.touches_run`: what each built-in command may touch.
* `touches_execute`: what a line may touch, by its target.
* `relearns_execute`: what is known after `rehash`.
* `framed_of_course`: all of this in the course of lines and of changes from outside.
-/

namespace PrefixShell

/-- From one state of a session to another, nothing is touched but what some of the built-in commands
may touch. -/
structure Session.Touches (may : Builtin → Prop) (s s' : Session) : Prop where
  vars_eq : s'.environment.vars = s.environment.vars
  registry_eq : s'.registry = s.registry
  abbreviations_eq : s'.resolver.abbreviations = s.resolver.abbreviations
  /-- The wish to leave is never taken back, and nothing but `exit` makes it. -/
  shouldExit_iff : s'.environment.shouldExit = true ↔
    s.environment.shouldExit = true ∨ may .exit
  currentDirectory_eq : ¬may .cd → s'.environment.currentDirectory = s.environment.currentDirectory
  resolver_eq : ¬may .rehash → s'.resolver = s.resolver

/-- Where nothing is changed but files, nothing is touched. -/
theorem Session.Idle.touches {may : Builtin → Prop} {s s' : Session} (h : s.Idle s')
    (hexit : ¬may .exit) : s.Touches may s' where
  vars_eq := congrArg (·.vars) h.environment_eq
  registry_eq := h.registry_eq
  abbreviations_eq := congrArg (·.abbreviations) h.resolver_eq
  shouldExit_iff := by rw [h.environment_eq, or_iff_left hexit]
  currentDirectory_eq _ := congrArg (·.currentDirectory) h.environment_eq
  resolver_eq _ := h.resolver_eq

/-- Each built-in command touches what it is for, and nothing else. -/
theorem Builtin.touches_run (b : Builtin) (c : Command) (s : Session) (w : Writer) :
    s.Touches (· = b) (b.run c s w).session := by
  cases b with
  | pwd | echo | help =>
      exact (Session.Idle.of_eq (finish_ends _ s w).session_eq).touches (by decide)
  | exit =>
      exact
        { vars_eq := rfl
          registry_eq := rfl
          abbreviations_eq := rfl
          shouldExit_iff := iff_of_true rfl (.inr rfl)
          currentDirectory_eq := fun _ => rfl
          resolver_eq := fun _ => rfl }
  | rehash =>
      have hsession : (rehash.run c s w).session = s.refresh := (finish_ends _ s.refresh w).session_eq
      rw [hsession]
      exact
        { vars_eq := rfl
          registry_eq := rfl
          abbreviations_eq := rfl
          shouldExit_iff := (or_iff_left (by decide)).symm
          currentDirectory_eq := fun _ => rfl
          resolver_eq := fun h => absurd rfl h }
  | cd =>
      rcases cd.run_cases c s w with ⟨status, text, h⟩ | ⟨-, -, l, m, -, h⟩ | ⟨h, -⟩ | ⟨h, -⟩
      · exact (Session.Idle.of_eq h.session_eq).touches (by decide)
      · rw [h]
        exact
          { vars_eq := rfl
            registry_eq := rfl
            abbreviations_eq := rfl
            shouldExit_iff := (or_iff_left (by decide)).symm
            currentDirectory_eq := fun h => absurd rfl h
            resolver_eq := fun _ => rfl }
      · cases h
      · cases h

namespace Shell

variable {sh : Shell} {line : Text}

/-- A line touches what the command may touch that is its target. -/
theorem touches_execute (hsh : sh.factories = Builtin.factories) (line : Text) (w : Writer) :
    sh.session.Touches (sh.Targets line) (sh.execute line w).session := by
  by_cases htarget : ∃ b, sh.Targets line b
  · obtain ⟨b, hb⟩ := htarget
    obtain ⟨c, hexecute⟩ := hb.execute_eq hsh w
    have hmay : sh.Targets line = (· = b) := funext fun b' => propext (hb.iff_eq b')
    rw [hmay, hexecute]
    exact b.touches_run c sh.session w
  · have hnone : ∀ b, ¬sh.Targets line b := fun b hb => htarget ⟨b, hb⟩
    rcases execute_effect hsh line w with hidle | ⟨c, b, hc, hb, -⟩
    · exact hidle.touches (hnone .exit)
    · exact absurd ⟨c, hc, hb⟩ (hnone b)

/-! ## Learning the known names anew -/

/-- The names of the built-in commands and, if programs are to be known by name, of the programs that
the directories on the search path have: files that somebody may start. -/
def Available (config : Config) (environment : Environment) (m : Machine) (name : Text) : Prop :=
  (∃ b : Builtin, b.name = name) ∨
    config.includePath = true ∧ ∃ searchPath, environment.get? "PATH".toList = some searchPath ∧
      ∃ t ∈ searchPath.splitOn ':', m.Offers (Path.ofText t) name

/-- What it is for an outcome to have learned the known names anew, and to say how many there are. -/
structure Relearns (config : Config) (environment : Environment) (m : Machine) (w : Writer)
    (o : Outcome) : Prop where
  /-- The known names are in order, and so there is none twice. -/
  known_sorted : o.session.resolver.known.Pairwise (· < ·)
  mem_known : ∀ name, name ∈ o.session.resolver.known ↔ Available config environment m name
  /-- What is written, if it is taken, is their number in decimal digits. -/
  output_eq : w.Took o.writer →
    o.output = Nat.toDigits 10 o.session.resolver.known.length ++ " commands\n".toList

section

variable {config : Config} {environment : Environment} {machine m : Machine} {r : Registry}

/-- What the registry of the start lists are the available names, each of them not empty. -/
theorem mem_list_start (hregistry : r = (Shell.start config environment machine
      Builtin.factories).session.registry) {name : Text} :
    name ∈ (r.list m).toFinset.erase [] ↔ Available config environment m name := by
  have hbuiltin : name ∈ Builtin.factories.flatMap (·.names) ↔ ∃ b : Builtin, b.name = name := by
    simp only [List.mem_flatMap, Builtin.mem_factories, exists_exists_eq_and]
    exact exists_congr fun b => List.mem_singleton.trans eq_comm
  have hlisted : name ∈ r.list m ↔ Available config environment m name := by
    rw [Registry.mem_list, hregistry, Available, ← hbuiltin]
    simp only [SearchPath.mem_programs_iff_offers]
    refine or_congr_right ?_
    show (∃ searchPath ∈ if config.includePath then environment.get? "PATH".toList else none, _) ↔ _
    cases config.includePath with
    | true => simp
    | false => simp
  have hnamed : Available config environment m name → name ≠ [] := by
    rintro (⟨b, rfl⟩ | ⟨-, searchPath, -, hoffers⟩)
    · cases b <;> decide
    · rintro rfl
      exact SearchPath.nil_notMem_programs (SearchPath.mem_programs_iff_offers.2 hoffers)
  rw [Finset.mem_erase, List.mem_toFinset, hlisted]
  exact and_iff_right_of_imp hnamed

/-- A line whose target is `rehash` learns the known names anew. -/
theorem relearns_execute (hsh : sh.factories = Builtin.factories)
    (hregistry : sh.session.registry = (Shell.start config environment machine
      Builtin.factories).session.registry) (htarget : sh.Targets line .rehash) (w : Writer) :
    Relearns config environment sh.session.machine w (sh.execute line w) := by
  obtain ⟨c, hexecute⟩ := htarget.execute_eq hsh w
  have hloaded : Resolver.Loaded sh.session.refresh.resolver
      ((sh.session.registry.list sh.session.machine).toFinset.erase [])
      sh.session.resolver.abbreviations := by
    obtain ⟨hwf, hnames⟩ := Trie.ofList_names (sh.session.registry.list sh.session.machine)
    exact ⟨hwf, hnames, rfl⟩
  have hends := Builtin.finish_ends
    [Builtin.line (Text.ofNat sh.session.refresh.resolver.count ++ " commands".toList)]
    sh.session.refresh w
  have hsession : (sh.execute line w).session = sh.session.refresh := by
    rw [hexecute]
    exact hends.session_eq
  refine ⟨?_, ?_, ?_⟩
  · rw [hsession]
    exact hloaded.refines.known_sorted
  · intro name
    rw [hsession]
    exact (hloaded.refines.mem_known name).trans (mem_list_start hregistry)
  · intro htook
    rw [hsession, Resolver.length_known hloaded.wellFormed]
    rw [hexecute] at htook ⊢
    refine (hends.of_took htook).2.trans ?_
    rw [List.flatten_singleton, Builtin.line, List.append_assoc]
    rfl

/-! ## The course of a session -/

/-- What holds of a shell whose session began with some settings and some environment. -/
structure Framed (config : Config) (environment : Environment) (sh : Shell) : Prop where
  config_eq : sh.config = config
  vars_eq : sh.session.environment.vars = environment.vars
  abbreviations_eq : sh.session.resolver.abbreviations = config.abbreviations
  /-- A line touches what its target is for. -/
  touches : ∀ line w, sh.session.Touches (sh.Targets line) (sh.execute line w).session
  /-- With `rehash` for its target, it learns the known names anew. -/
  relearns : ∀ line w, sh.Targets line .rehash →
    Relearns config environment sh.session.machine w (sh.execute line w)

/-- From one state of a shell to another, what no line touches has not changed. -/
structure Settled (start sh : Shell) : Prop where
  config_eq : sh.config = start.config
  vars_eq : sh.session.environment.vars = start.session.environment.vars
  registry_eq : sh.session.registry = start.session.registry
  abbreviations_eq : sh.session.resolver.abbreviations = start.session.resolver.abbreviations

theorem Turn.settled {allowed : Machine → Machine → Prop} {start sh' : Shell}
    (h : Turn allowed sh sh') (hsh : sh.factories = Builtin.factories) (ih : Settled start sh) :
    Settled start sh' := by
  cases h with
  | line line w =>
      have htouches := touches_execute hsh line w
      exact
        { config_eq := ih.config_eq
          vars_eq := htouches.vars_eq.trans ih.vars_eq
          registry_eq := htouches.registry_eq.trans ih.registry_eq
          abbreviations_eq := htouches.abbreviations_eq.trans ih.abbreviations_eq }
  | world _ => exact ⟨ih.config_eq, ih.vars_eq, ih.registry_eq, ih.abbreviations_eq⟩

theorem Course.settled {allowed : Machine → Machine → Prop} {start : Shell}
    (h : Course allowed start sh) (hstart : start.factories = Builtin.factories) :
    Settled start sh :=
  h.invariant hstart ⟨rfl, rfl, rfl, rfl⟩ fun _ _ hsh hturn ih => hturn.settled hsh ih

/-- In the course of lines, and of whatever happens to the files, the settings, the variables and
whether names may be abbreviated are those of the start, a line touches what its target is for and
nothing else, and after `rehash` the known names are those that are available. -/
theorem framed_of_course
    (h : Course (fun _ _ => True) (Shell.start config environment machine Builtin.factories) sh) :
    Framed config environment sh := by
  have hsh : sh.factories = Builtin.factories := h.later.factories_eq
  have hsettled := h.settled rfl
  exact
    { config_eq := hsettled.config_eq
      vars_eq := hsettled.vars_eq
      abbreviations_eq := hsettled.abbreviations_eq
      touches := touches_execute hsh
      relearns := fun line w htarget => relearns_execute hsh hsettled.registry_eq htarget w }

/-- A machine with a program `/bin/tool`. -/
def toolMachine : Machine where
  files := FileSystem.empty.put [.text "bin".toList, .text "tool".toList]
    (.file ⟨0o755, .program [] (.exit 3)⟩)
  workingDirectory := .root

/-- The shell that begins with an empty tree, and with `/bin` for a search path. -/
def toolless : Shell :=
  Shell.start .default ⟨.ofList [("PATH".toList, "/bin".toList)], .root, false, []⟩
    { files := .empty, workingDirectory := .root } Builtin.factories

/-- Once `/bin/tool` has come to be there, it learns of it by `rehash`. -/
theorem framed_toolless :
    let sh : Shell := { toolless with session := { toolless.session with machine := toolMachine } }
    Course (fun _ _ => True) toolless sh ∧ sh.Targets "rehash".toList .rehash ∧
      "tool".toList ∈ (sh.execute "rehash".toList .steady).session.resolver.known := by
  intro sh
  have hcourse : Course (fun _ _ => True) toolless sh := .single (.world trivial)
  let c : Command := { name := "rehash".toList, items := [], rawInput := "rehash".toList }
  have hread : sh.read "rehash".toList = .ok (some c) := by
    rw [read]
    generalize sh.matching = matching
    generalize sh.expansion = e
    cbv
  have htarget : sh.Targets "rehash".toList .rehash :=
    targets_of_read .rehash hread rfl (resolve_builtin_start _ _ _ .rehash)
  have hprograms : SearchPath.programs toolMachine "/bin".toList = ["tool".toList] := by cbv
  have hoffers := SearchPath.mem_programs_iff_offers.1
    (hprograms ▸ List.mem_singleton_self "tool".toList)
  have hrelearns := (framed_of_course hcourse).relearns _ .steady htarget
  exact ⟨hcourse, htarget, (hrelearns.mem_known _).2 (.inr ⟨rfl, "/bin".toList, rfl, hoffers⟩)⟩

end

end Shell

end PrefixShell
