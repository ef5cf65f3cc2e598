import Mathlib.Logic.Relation
import PrefixShell.Proofs.Resolver.Refinement
import PrefixShell.Proofs.Shell.Dispatch

/-!
# The states of a shell

A shell begins with some settings, some environment and some files, and from then on lines and
commands are carried out, its resolver is called, and files come and go without its doing.  What is
true at the start and is kept by each of these is true in all states.

## Main results

* `Later.registry_eq`: the known names come from where they came from at the start.
* `resolver_run`: only `rehash` changes the known names.
* `Reached.wellFormed`: with the built-in commands, the known names are always a set.
-/

namespace PrefixShell

theorem Registry.mem_list {r : Registry} {m : Machine} {name : Text} :
    name ∈ r.list m ↔
      name ∈ r.names ∨ ∃ searchPath ∈ r.searchPath, name ∈ SearchPath.programs m searchPath := by
  rw [Registry.list]
  cases r.searchPath with
  | none => simp
  | some searchPath => simp

namespace Shell

/-- One thing that happens to a shell, and the state after it. -/
inductive Step (sh : Shell) : Shell → Prop
  | line (line : Text) (w : Writer) : Step sh (sh.after (sh.execute line w))
  | command (c : Command) (w : Writer) : Step sh (sh.after (sh.run c w))
  | call (call : Resolver.Call) :
      Step sh { sh with session := { sh.session with resolver := sh.session.resolver.call call } }
  /-- Whatever happens to the files, and to the directory of the process. -/
  | world (machine : Machine) : Step sh { sh with session := { sh.session with machine } }

/-- The states that a shell comes to from a given one. -/
def Later : Shell → Shell → Prop := Relation.ReflTransGen Step

/-- The states of a shell with the given factories, from any beginning. -/
def Reached (factories : List Factory) (sh : Shell) : Prop :=
  ∃ config environment machine, Later (Shell.start config environment machine factories) sh

variable {start sh sh' : Shell}

theorem Step.factories_eq (h : Step sh sh') : sh'.factories = sh.factories := by
  cases h <;> rfl

theorem Later.factories_eq (h : Later start sh) : sh.factories = start.factories := by
  induction h with
  | refl => rfl
  | tail _ hstep ih => exact hstep.factories_eq.trans ih

/-! ## Where the known names come from -/

/-- A program that is started changes nothing in the session but, perhaps, the files. -/
theorem session_launch (p : Path) (c : Command) (s : Session) (w : Writer) :
    ∃ machine, (launch p c s w).session = { s with machine } ∧
      machine.workingDirectory = s.machine.workingDirectory := by
  have hstarts := launch_starts p c s w
  generalize launch p c s w = o at hstarts
  cases hstarts with
  | started h => exact ⟨_, rfl, Machine.start_workingDirectory h⟩
  | notStarted h => exact ⟨_, rfl, rfl⟩

theorem registry_run (hlawful : ∀ f ∈ sh.factories, f.Lawful) (c : Command) (w : Writer) :
    (sh.run c w).session.registry = sh.session.registry := by
  rcases run_made sh c w with ⟨f, hf, action, hmade, hrun⟩ | ⟨p, hrun⟩ | hrun
  · rw [hrun]
    exact (hlawful f hf).registry_eq sh.session c action hmade sh.session w
  · obtain ⟨machine, hsession, -⟩ := session_launch p c sh.session w
    rw [hrun, hsession]
  · rw [hrun]
    rfl

theorem registry_execute (hlawful : ∀ f ∈ sh.factories, f.Lawful) (line : Text) (w : Writer) :
    (sh.execute line w).session.registry = sh.session.registry := by
  rcases session_execute sh line w with ⟨c, -, hrun⟩ | hsame
  · rw [hrun]
    exact registry_run hlawful c w
  · rw [hsame]

theorem Step.registry_eq (h : Step sh sh') (hlawful : ∀ f ∈ sh.factories, f.Lawful) :
    sh'.session.registry = sh.session.registry := by
  cases h with
  | line line w => exact registry_execute hlawful line w
  | command c w => exact registry_run hlawful c w
  | call _ | world _ => rfl

/-- The known names come from where they came from at the start. -/
theorem Later.registry_eq (h : Later start sh) (hlawful : ∀ f ∈ start.factories, f.Lawful) :
    sh.session.registry = start.session.registry := by
  induction h with
  | refl => rfl
  | tail hlater hstep ih =>
      have hfactories := Later.factories_eq hlater
      exact (hstep.registry_eq (hfactories ▸ hlawful)).trans ih

/-! ## The known names -/

/-- Only `rehash` changes the known names, and it learns them anew. -/
theorem resolver_run (hsh : sh.factories = Builtin.factories) (c : Command) (w : Writer) :
    (sh.run c w).session.resolver = sh.session.resolver ∨
      c.target = Builtin.rehash.name ∧
        (sh.run c w).session.resolver = sh.session.refresh.resolver := by
  rcases run_cases hsh c w with ⟨b, hb, hrun⟩ | ⟨-, ⟨p, -, hrun⟩ | ⟨-, hrun⟩⟩
  · rw [hrun]
    rcases b.run_cases c sh.session w with
      ⟨status, text, h⟩ | ⟨rfl, -, l, m, -, h⟩ | ⟨rfl, h⟩ | ⟨rfl, h⟩
    · exact .inl (congrArg (·.resolver) h.session_eq)
    · exact .inl (congrArg (·.session.resolver) h)
    · exact .inl (congrArg (·.session.resolver) h)
    · exact .inr ⟨hb, congrArg (·.resolver) h.session_eq⟩
  · obtain ⟨machine, hsession, -⟩ := session_launch p c sh.session w
    rw [hrun, hsession]
    exact .inl rfl
  · rw [hrun]
    exact .inl rfl

theorem wellFormed_run (hsh : sh.factories = Builtin.factories)
    (h : sh.session.resolver.names.WellFormed) (c : Command) (w : Writer) :
    (sh.run c w).session.resolver.names.WellFormed := by
  rcases resolver_run hsh c w with hrun | ⟨-, hrun⟩
  · rw [hrun]
    exact h
  · rw [hrun]
    exact (Trie.ofList_names _).1

theorem wellFormed_execute (hsh : sh.factories = Builtin.factories)
    (h : sh.session.resolver.names.WellFormed) (line : Text) (w : Writer) :
    (sh.execute line w).session.resolver.names.WellFormed := by
  rcases session_execute sh line w with ⟨c, -, hrun⟩ | hsame
  · rw [hrun]
    exact wellFormed_run hsh h c w
  · rw [hsame]
    exact h

theorem wellFormed_call {r : Resolver} (h : r.names.WellFormed) (call : Resolver.Call) :
    (r.call call).names.WellFormed := by
  have hloaded : Resolver.Loaded r r.names.names r.abbreviations := ⟨h, rfl, rfl⟩
  cases call with
  | register name => exact (hloaded.register name).wellFormed
  | refresh listed => exact (hloaded.refresh listed).wellFormed
  | setAbbreviations accepted => exact (hloaded.setAbbreviations accepted).wellFormed

theorem Step.wellFormed (h : Step sh sh') (hsh : sh.factories = Builtin.factories)
    (hwf : sh.session.resolver.names.WellFormed) : sh'.session.resolver.names.WellFormed := by
  cases h with
  | line line w => exact wellFormed_execute hsh hwf line w
  | command c w => exact wellFormed_run hsh hwf c w
  | call call => exact wellFormed_call hwf call
  | world _ => exact hwf

theorem Later.wellFormed (h : Later start sh) (hstart : start.factories = Builtin.factories)
    (hwf : start.session.resolver.names.WellFormed) : sh.session.resolver.names.WellFormed := by
  induction h with
  | refl => exact hwf
  | tail hlater hstep ih => exact hstep.wellFormed ((Later.factories_eq hlater).trans hstart) ih

theorem Reached.factories_eq {factories : List Factory} (h : Reached factories sh) :
    sh.factories = factories := by
  obtain ⟨config, environment, machine, hlater⟩ := h
  exact hlater.factories_eq

/-- With the built-in commands, the known names are always a set. -/
theorem Reached.wellFormed (h : Reached Builtin.factories sh) :
    sh.session.resolver.names.WellFormed := by
  obtain ⟨config, environment, machine, hlater⟩ := h
  exact hlater.wellFormed rfl (Trie.ofList_names _).1

end Shell

end PrefixShell
