import Mathlib.Data.List.Basic
import PrefixShell.Shell

/-!
# Who carries out a command

A command goes to the first factory that makes it, and if none does, to the program that its name
refers to.  Factories and programs look at the resolved name and at the items of a command; how the
name was typed is told to nobody but the user, in the report that there is no such command.

For a shell with the built-in commands there are three cases: a built-in command, a program, and
nothing.  Statements about what a line does go through these cases and do not unfold the commands.

A built-in command writes last, when it has done what it does to the session.  So a write that fails
changes how the command ends, and not the session that it leaves.

## Main results

* `run_congr`: commands with one target and the same items come to the same.
* `run_cases`: the three cases of a shell with the built-in commands.
* `Builtin.finish_ends`, `Builtin.complain_ends`: how a command ends, by what is taken of its text.
* `Builtin.run_cases`: what a built-in command does to the session.
* `launch_starts`: what the system is asked to start, and what comes of it.
* `execute_cases`: a line is carried out as a command, or leaves the session as it is.
-/

namespace PrefixShell

/-! ## Factories -/

namespace Factory

/-- A factory that makes a command exactly if it is for one of its names. Its commands can change
the session, but not where the known names come from. -/
structure Lawful (f : Factory) : Prop where
  made_iff : ∀ s c, (f.create? s c).isSome ↔ c.target ∈ f.names
  registry_eq : ∀ s c action, f.create? s c = some action →
    ∀ s' w, (action s' w).session.registry = s'.registry

/-- A factory that sees the target and the items of a command, and nothing else. -/
def Discreet (f : Factory) : Prop :=
  ∀ s c c', c.target = c'.target → c.items = c'.items → f.create? s c = f.create? s c'

end Factory

namespace Builtin

theorem mem_all (b : Builtin) : b ∈ all := by
  cases b <;> decide

theorem name_injective {b b' : Builtin} (h : b.name = b'.name) : b = b' := by
  cases b <;> cases b' <;> first | rfl | exact absurd h (by decide)

theorem run_congr (b : Builtin) {c c' : Command} (h : c.items = c'.items) : b.run c = b.run c' := by
  have hargs : c.args = c'.args := congrArg (List.filterMap Item.argument?) h
  have hargv : c.argv = c'.argv := congrArg (List.map Item.word) h
  cases b with
  | cd => exact congrArg runCd hargs
  | echo => exact congrArg runEcho hargv
  | help => exact congrArg runHelp hargs
  | pwd | exit | rehash => rfl

theorem factory_discreet (b : Builtin) : b.factory.Discreet := by
  intro s c c' htarget hitems
  show (if c.target = b.name then some (b.run c) else none) = _
  rw [htarget, b.run_congr hitems]
  rfl

/-! ### How they end -/

/-- How a built-in command ends that has come to a session: with a status, all its text being taken; or
with 1, when it could write a part of the text and the reason why not all of it; or without a status,
when it could not write the reason either. -/
inductive Ends (s : Session) (w : Writer) (status : Int) (text : Text) : Outcome → Prop
  | taken {w' : Writer} (h : w.Took w') :
      Ends s w status text { result := .ok status, output := text, session := s, writer := w' }
  | told {part cause : Text} {w' : Writer} (hpart : part <+: text) (h : w'.failures < w.failures) :
      Ends s w status text
        { result := .ok 1, output := part ++ line cause, session := s, writer := w' }
  | untold {output cause : Text} {w' : Writer} (h : w'.failures < w.failures) :
      Ends s w status text
        { result := .error (.unwritten cause), output, session := s, writer := w' }

theorem complain_ends (status : Int) (report : Text) (s : Session) (w : Writer) :
    Ends s w status (line report) (complain status report s w) := by
  rw [complain]
  have hwrites := w.write_cases (line report)
  generalize w.write (line report) = written at hwrites
  cases hwrites with
  | whole h => exact .taken h
  | part _ h => exact .untold h

theorem finish_ends (texts : List Text) (s : Session) (w : Writer) :
    Ends s w 0 texts.flatten (finish texts s w) := by
  rw [finish]
  have hwrites := w.writeAll_cases texts
  generalize w.writeAll texts = written at hwrites
  cases hwrites with
  | whole h => exact .taken h
  | @part taken cause w' hpart h =>
      -- The reason is written to what is left of the writer, and that may fail as well.
      show Ends s w 0 texts.flatten { complain 1 cause s w' with
        output := taken ++ (complain 1 cause s w').output }
      rw [complain]
      have hreports := w'.write_cases (line cause)
      generalize w'.write (line cause) = reported at hreports
      cases hreports with
      | whole h' => exact .told hpart (h' ▸ h)
      | part _ h' => exact .untold (Nat.lt_trans h' h)

namespace Ends

variable {s : Session} {w : Writer} {status : Int} {text : Text} {o : Outcome}

theorem session_eq (h : Ends s w status text o) : o.session = s := by
  cases h <;> rfl

/-- Where all is taken, there is the status, and the text is written. -/
theorem of_took (h : Ends s w status text o) (htook : w.Took o.writer) :
    o.result = .ok status ∧ o.output = text := by
  cases h with
  | taken _ => exact ⟨rfl, rfl⟩
  | told _ h => exact absurd htook (Nat.ne_of_lt h)
  | untold h => exact absurd htook (Nat.ne_of_lt h)

/-- There is no status only where a write has failed. -/
theorem error_cases (h : Ends s w status text o) {failure : Failure}
    (hfailure : o.result = .error failure) :
    (∃ cause, failure = .unwritten cause) ∧ ¬w.Took o.writer := by
  cases h with
  | taken _ => cases hfailure
  | told _ _ => cases hfailure
  | @untold _ cause _ h => exact ⟨⟨cause, (Except.error.inj hfailure).symm⟩, Nat.ne_of_lt h⟩

end Ends

/-! ### What they do to the session -/

/-- What a built-in command does to the session: it leaves it as it is, unless it changes the
directory, ends the session or learns the known names anew. -/
theorem run_cases (b : Builtin) (c : Command) (s : Session) (w : Writer) :
    (∃ status text, Ends s w status text (b.run c s w)) ∨
    (b = cd ∧ c.args.length ≤ 1 ∧ ∃ l m, cdResult s c.args = .ok (l, m) ∧
      b.run c s w = {
        result := .ok 0
        session := { s with
          machine := m
          environment := { s.environment with currentDirectory := l.toPath } }
        writer := w }) ∨
    (b = exit ∧ b.run c s w = {
      result := .ok 0
      session := { s with environment := { s.environment with shouldExit := true } }
      writer := w }) ∨
    (b = rehash ∧ Ends s.refresh w 0
      (line (Text.ofNat s.refresh.resolver.count ++ " commands".toList)) (b.run c s w)) := by
  cases b with
  | pwd | echo | help => exact .inl ⟨_, _, finish_ends _ s w⟩
  | exit => exact .inr (.inr (.inl ⟨rfl, rfl⟩))
  | rehash =>
      have hends := finish_ends
        [line (Text.ofNat s.refresh.resolver.count ++ " commands".toList)] s.refresh w
      rw [List.flatten_singleton] at hends
      exact .inr (.inr (.inr ⟨rfl, hends⟩))
  | cd =>
      rw [run, runCd]
      -- With too many arguments, or without a directory to go to, it only says so.
      by_cases hmany : c.args.length > 1
      · rw [if_pos hmany]
        exact .inl ⟨_, _, complain_ends _ _ s w⟩
      · rw [if_neg hmany]
        cases hresult : cdResult s c.args with
        | error report => exact .inl ⟨_, _, complain_ends _ _ s w⟩
        | ok found =>
            obtain ⟨l, m⟩ := found
            exact .inr (.inl ⟨rfl, Nat.not_lt.1 hmany, l, m, rfl, rfl⟩)

/-- A built-in command comes to no status only where a write fails. -/
theorem failure_run {b : Builtin} {c : Command} {s : Session} {w : Writer} {failure : Failure}
    (h : (b.run c s w).result = .error failure) :
    (∃ cause, failure = .unwritten cause) ∧ ¬w.Took (b.run c s w).writer := by
  rcases b.run_cases c s w with
    ⟨status, text, hends⟩ | ⟨-, -, l, m, -, hrun⟩ | ⟨-, hrun⟩ | ⟨-, hends⟩
  · exact hends.error_cases h
  · rw [hrun] at h
    cases h
  · rw [hrun] at h
    cases h
  · exact hends.error_cases h

theorem registry_run (b : Builtin) (c : Command) (s : Session) (w : Writer) :
    (b.run c s w).session.registry = s.registry := by
  rcases b.run_cases c s w with
    ⟨status, text, h⟩ | ⟨rfl, -, l, m, -, h⟩ | ⟨rfl, h⟩ | ⟨rfl, h⟩
  · rw [h.session_eq]
  · rw [h]
  · rw [h]
  · rw [h.session_eq]
    rfl

theorem create?_eq_some_iff {b : Builtin} {s : Session} {c : Command} {action : Action} :
    b.factory.create? s c = some action ↔ c.target = b.name ∧ b.run c = action := by
  show (if c.target = b.name then some (b.run c) else none) = some action ↔ _
  rw [Option.ite_none_right_eq_some, Option.some.injEq]

theorem mem_factories {f : Factory} : f ∈ factories ↔ ∃ b : Builtin, b.factory = f := by
  rw [factories, List.mem_map]
  exact exists_congr fun b => and_iff_right b.mem_all

theorem factory_lawful (b : Builtin) : b.factory.Lawful where
  made_iff s c := by
    rw [create?_isSome_iff]
    exact List.mem_singleton.symm
  registry_eq := by
    intro s c action hmade s' w
    rw [← (create?_eq_some_iff.1 hmade).2]
    exact b.registry_run c s' w

theorem factories_lawful : ∀ f ∈ factories, f.Lawful := by
  intro f hf
  obtain ⟨b, rfl⟩ := mem_factories.1 hf
  exact b.factory_lawful

theorem factories_discreet : ∀ f ∈ factories, f.Discreet := by
  intro f hf
  obtain ⟨b, rfl⟩ := mem_factories.1 hf
  exact b.factory_discreet

end Builtin

namespace Shell

variable {sh : Shell}

/-! ## The target and the items -/

/-- The program that a name refers to at present. -/
def program? (s : Session) (name : Text) : Option Path :=
  SearchPath.find? s.machine ((s.environment.get? "PATH".toList).getD []) (Path.ofText name)

theorem external?_eq (s : Session) (c : Command) :
    external? s c = (program? s c.target).map fun p => launch p c := rfl

theorem launch_congr (p : Path) {c c' : Command} (h : c.items = c'.items) :
    launch p c = launch p c' := by
  have hargv : c.argv = c'.argv := congrArg (List.map Item.word) h
  funext s w
  rw [launch, launch, hargv]

/-- What comes of asking the system to start a program: how the program ends and what it writes, in
the machine that it leaves, or the reason why it has not been started. -/
inductive Starts (s : Session) (w : Writer) (request : Launch) : Outcome → Prop
  | started {run : Run} (h : s.machine.start request = .ok run) :
      Starts s w request {
        result := .ok run.status
        console := run.output
        complaint := run.complaint
        request
        session := { s with machine := run.machine }
        writer := w }
  | notStarted {cause : SystemFailure} (h : s.machine.start request = .error cause) :
      Starts s w request {
        result := .error (.notStarted request.program cause)
        request
        session := s
        writer := w }

/-- A program is started with the words of the command line, the variables of the session and its
directory. -/
theorem launch_starts (p : Path) (c : Command) (s : Session) (w : Writer) :
    Starts s w ⟨p, c.argv, s.environment.vars, s.environment.currentDirectory⟩
      (launch p c s w) := by
  rw [launch]
  split
  · rename_i cause hcause
    exact .notStarted hcause
  · rename_i run hrun
    exact .started hrun

theorem action?_congr (hf : ∀ f ∈ sh.factories, f.Discreet) {c c' : Command}
    (htarget : c.target = c'.target) (hitems : c.items = c'.items) :
    sh.action? c = sh.action? c' := by
  have hlaunch : ∀ p, launch p c = launch p c' := fun p => launch_congr p hitems
  have hfactories : (sh.factories.findSome? fun f => f.create? sh.session c) =
      sh.factories.findSome? fun f => f.create? sh.session c' := by
    rw [← List.head?_filterMap, ← List.head?_filterMap]
    refine congrArg List.head? (List.filterMap_congr fun f hmem => ?_)
    exact hf f hmem sh.session c c' htarget hitems
  rw [action?, action?, hfactories, external?_eq, external?_eq, htarget]
  simp only [hlaunch]

/-- The first factory that makes a command has it; if none does, a program may. -/
theorem action?_cases (sh : Shell) (c : Command) :
    (∃ f ∈ sh.factories, ∃ before after action, sh.factories = before ++ f :: after ∧
      (∀ g ∈ before, g.create? sh.session c = none) ∧ f.create? sh.session c = some action ∧
      sh.action? c = some action) ∨
    (∀ f ∈ sh.factories, f.create? sh.session c = none) ∧
      sh.action? c = (program? sh.session c.target).map fun p => launch p c := by
  cases hfirst : sh.factories.findSome? fun f => f.create? sh.session c with
  | some action =>
      obtain ⟨before, f, after, hsplit, hmade, hbefore⟩ := List.findSome?_eq_some_iff.1 hfirst
      have hf : f ∈ sh.factories := by
        rw [hsplit]
        exact List.mem_append_right before List.mem_cons_self
      refine .inl ⟨f, hf, before, after, action, hsplit, hbefore, hmade, ?_⟩
      rw [action?, hfirst]
      rfl
  | none =>
      refine .inr ⟨List.findSome?_eq_none_iff.1 hfirst, ?_⟩
      rw [action?, hfirst, external?_eq]
      rfl

theorem run_of_action? {c : Command} {action : Action} (h : sh.action? c = some action)
    (w : Writer) : sh.run c w = action sh.session w := by
  rw [run, h]

theorem run_of_none {c : Command} (h : sh.action? c = none) (w : Writer) :
    sh.run c w = sh.refuse (.commandNotFound c.name) w := by
  rw [run, h]

/-- Commands with one target and the same items come to the same, unless there is nothing that
carries them out. -/
theorem run_congr (hf : ∀ f ∈ sh.factories, f.Discreet) {c c' : Command}
    (htarget : c.target = c'.target) (hitems : c.items = c'.items) (w : Writer) :
    sh.run c w = sh.run c' w ∨ sh.action? c = none ∧ sh.action? c' = none := by
  have hsame := action?_congr hf htarget hitems
  cases h : sh.action? c with
  | none => exact .inr ⟨rfl, hsame.symm.trans h⟩
  | some action =>
      refine .inl ?_
      rw [run_of_action? h, run_of_action? (hsame.symm.trans h)]

/-- A command is carried out by a factory, by a program, or not at all. -/
theorem run_made (sh : Shell) (c : Command) (w : Writer) :
    (∃ f ∈ sh.factories, ∃ action, f.create? sh.session c = some action ∧
      sh.run c w = action sh.session w) ∨
    (∃ p, sh.run c w = launch p c sh.session w) ∨
      sh.run c w = sh.refuse (.commandNotFound c.name) w := by
  rcases action?_cases sh c with
    ⟨f, hf, before, after, action, -, -, hmade, haction⟩ | ⟨-, haction⟩
  · exact .inl ⟨f, hf, action, hmade, run_of_action? haction w⟩
  · cases hprogram : program? sh.session c.target with
    | some p =>
        rw [hprogram] at haction
        exact .inr (.inl ⟨p, run_of_action? haction w⟩)
    | none =>
        rw [hprogram] at haction
        exact .inr (.inr (run_of_none haction w))

/-! ## The built-in commands first -/

section Builtins

variable (hsh : sh.factories = Builtin.factories) (c : Command)

include hsh

theorem action?_of_builtin {b : Builtin} (hb : c.target = b.name) :
    sh.action? c = some (b.run c) := by
  rcases action?_cases sh c with
    ⟨f, hf, before, after, action, -, -, hmade, haction⟩ | ⟨hnone, -⟩
  · rw [hsh] at hf
    obtain ⟨b', rfl⟩ := Builtin.mem_factories.1 hf
    obtain ⟨hb', rfl⟩ := Builtin.create?_eq_some_iff.1 hmade
    rw [haction, Builtin.name_injective (hb.symm.trans hb')]
  · have hmem : b.factory ∈ sh.factories := by
      rw [hsh]
      exact Builtin.mem_factories.2 ⟨b, rfl⟩
    have hmade : b.factory.create? sh.session c = some (b.run c) :=
      Builtin.create?_eq_some_iff.2 ⟨hb, rfl⟩
    rw [hnone b.factory hmem] at hmade
    cases hmade

theorem action?_of_other (hother : ∀ b : Builtin, c.target ≠ b.name) :
    sh.action? c = (program? sh.session c.target).map fun p => launch p c := by
  rcases action?_cases sh c with
    ⟨f, hf, before, after, action, -, -, hmade, -⟩ | ⟨-, haction⟩
  · rw [hsh] at hf
    obtain ⟨b, rfl⟩ := Builtin.mem_factories.1 hf
    exact absurd (Builtin.create?_eq_some_iff.1 hmade).1 (hother b)
  · exact haction

/-- A command is a built-in one, or a program, or there is no such command. -/
theorem run_cases (w : Writer) :
    (∃ b : Builtin, c.target = b.name ∧ sh.run c w = b.run c sh.session w) ∨
    (∀ b : Builtin, c.target ≠ b.name) ∧
      ((∃ p, program? sh.session c.target = some p ∧ sh.run c w = launch p c sh.session w) ∨
        program? sh.session c.target = none ∧
          sh.run c w = sh.refuse (.commandNotFound c.name) w) := by
  by_cases hb : ∃ b : Builtin, c.target = b.name
  · obtain ⟨b, hb⟩ := hb
    exact .inl ⟨b, hb, run_of_action? (action?_of_builtin hsh c hb) w⟩
  · have hother : ∀ b : Builtin, c.target ≠ b.name := fun b h => hb ⟨b, h⟩
    have haction := action?_of_other hsh c hother
    refine .inr ⟨hother, ?_⟩
    cases hp : program? sh.session c.target with
    | some p =>
        rw [hp] at haction
        exact .inl ⟨p, rfl, run_of_action? haction w⟩
    | none =>
        rw [hp] at haction
        exact .inr ⟨rfl, run_of_none haction w⟩

end Builtins

/-! ## Lines -/

theorem execute_of_command {line : Text} {c : Command} (h : sh.read line = .ok (some c))
    (w : Writer) : sh.execute line w = sh.dispatch c w := by
  rw [execute, h]

theorem dispatch_of_path {c : Command} (hslash : '/' ∈ c.name) (w : Writer) :
    sh.dispatch c w = sh.run c w := by
  rw [dispatch, if_pos (by simpa using hslash)]

theorem dispatch_of_ok {c : Command} {name : Text} (hslash : '/' ∉ c.name)
    (h : sh.session.resolver.resolve c.name = .ok name) (w : Writer) :
    sh.dispatch c w = sh.run { c with resolved := some name } w := by
  rw [dispatch, if_neg (by simpa using hslash), Resolver.resolveCommand_ok h]

theorem dispatch_of_error {c : Command} {error : ShellError} (hslash : '/' ∉ c.name)
    (h : sh.session.resolver.resolve c.name = .error error) (w : Writer) :
    sh.dispatch c w = sh.refuse error w := by
  rw [dispatch, if_neg (by simpa using hslash), Resolver.resolveCommand_error h]

/-- The command that a line is carried out as, with its name resolved, if there is one. -/
def command? (sh : Shell) (line : Text) : Option Command :=
  match sh.read line with
  | .ok (some c) =>
    if c.name.contains '/' then some c
    else
      match sh.session.resolver.resolveCommand c with
      | (none, c') => some c'
      | (some _, _) => none
  | _ => none

/-- A line is carried out as a command, or it is refused, or it is blank. -/
theorem execute_cases (sh : Shell) (line : Text) (w : Writer) :
    (∃ c, sh.command? line = some c ∧ sh.execute line w = sh.run c w) ∨
    (sh.command? line = none ∧ ∃ error, sh.execute line w = sh.refuse error w) ∨
    (sh.read line = .ok none ∧ sh.command? line = none ∧
      sh.execute line w = { result := .ok 0, session := sh.session, writer := w }) := by
  rw [command?]
  cases hread : sh.read line with
  | error error => exact .inr (.inl ⟨rfl, error, execute_of_error hread w⟩)
  | ok read =>
      cases read with
      | none => exact .inr (.inr ⟨rfl, rfl, execute_of_blank hread w⟩)
      | some c =>
          rw [execute_of_command hread]
          by_cases hslash : '/' ∈ c.name
          · refine .inl ⟨c, if_pos ?_, dispatch_of_path hslash w⟩
            simpa using hslash
          · have hbare : ¬c.name.contains '/' = true := by simpa using hslash
            simp only [if_neg hbare]
            cases hresolve : sh.session.resolver.resolve c.name with
            | ok name =>
                refine .inl ⟨_, ?_, dispatch_of_ok hslash hresolve w⟩
                rw [Resolver.resolveCommand_ok hresolve]
            | error error =>
                refine .inr (.inl ⟨?_, error, dispatch_of_error hslash hresolve w⟩)
                rw [Resolver.resolveCommand_error hresolve]

/-- A line leaves the session that its command leaves, or the one that there was. -/
theorem session_execute (sh : Shell) (line : Text) (w : Writer) :
    (∃ c, sh.command? line = some c ∧ (sh.execute line w).session = (sh.run c w).session) ∨
      (sh.execute line w).session = sh.session := by
  rcases execute_cases sh line w with ⟨c, hc, hrun⟩ | ⟨-, error, hrefuse⟩ | ⟨-, -, hblank⟩
  · exact .inl ⟨c, hc, congrArg (·.session) hrun⟩
  · exact .inr (congrArg (·.session) hrefuse)
  · exact .inr (congrArg (·.session) hblank)

theorem execute_of_command? {line : Text} {c : Command} (h : sh.command? line = some c)
    (w : Writer) : sh.execute line w = sh.run c w := by
  rcases execute_cases sh line w with ⟨c', hc', hrun⟩ | ⟨hnone, -⟩ | ⟨-, hnone, -⟩
  · rw [hc'] at h
    rw [hrun, Option.some.inj h]
  · rw [hnone] at h
    cases h
  · rw [hnone] at h
    cases h

/-! ## The target of a line -/

variable {line : Text}

/-- The line is carried out as a command whose target is the name of a built-in one. -/
def Targets (sh : Shell) (line : Text) (b : Builtin) : Prop :=
  ∃ c, sh.command? line = some c ∧ c.target = b.name

theorem Targets.iff_eq {b : Builtin} (h : sh.Targets line b) (b' : Builtin) :
    sh.Targets line b' ↔ b' = b := by
  constructor
  · intro h'
    obtain ⟨c, hc, hb⟩ := h
    obtain ⟨c', hc', hb'⟩ := h'
    rw [hc] at hc'
    cases hc'
    exact Builtin.name_injective (hb'.symm.trans hb)
  · rintro rfl
    exact h

theorem targets_of_read {c : Command} (b : Builtin) (hread : sh.read line = .ok (some c))
    (hname : c.name = b.name) (hknown : sh.session.resolver.resolve b.name = .ok b.name) :
    sh.Targets line b := by
  have hslash : ¬c.name.contains '/' = true := by
    rw [hname]
    cases b <;> decide
  refine ⟨{ c with resolved := some b.name }, ?_, rfl⟩
  rw [command?, hread]
  simp only [if_neg hslash]
  rw [← hname] at hknown
  rw [Resolver.resolveCommand_ok hknown, hname]

/-- A line whose target is a built-in command is carried out as this command. -/
theorem Targets.execute_eq (hsh : sh.factories = Builtin.factories) {b : Builtin}
    (h : sh.Targets line b) (w : Writer) : ∃ c, sh.execute line w = b.run c sh.session w := by
  obtain ⟨c, hc, hb⟩ := h
  refine ⟨c, ?_⟩
  rw [execute_of_command? hc, run_of_action? (action?_of_builtin hsh c hb)]

end Shell

end PrefixShell
