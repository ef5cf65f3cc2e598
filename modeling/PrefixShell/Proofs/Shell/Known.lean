import Mathlib
import PrefixShell.Proofs.SearchPath.Lookup
import PrefixShell.Proofs.Shell.Listed

/-!
# What resolves can be carried out

Just after the known names have been listed, a command whose name resolves has something that
carries it out.  It is the first factory with the resolved name or, where no factory has it, the
first program of this name on the search path.

The factories can be any that make commands exactly for their names.

## Main results

* `goesTo_of_fresh`: who carries out a command for a name that has just been listed.
* `dispatch_known`: what resolves is carried out.
-/

namespace PrefixShell.Shell

section

variable {factories : List Factory} {sh : Shell}

/-- Who carries out a command with a resolved name, and what comes of it. The first factory with this
name does what its command does; and only where there is none, the system is asked to start the first
program of this name on the search path, with the words of the command line, the variables and the
directory of the session. -/
inductive GoesTo (sh : Shell) (name : Text) (c : Command) (w : Writer) (o : Outcome) : Prop
  | factory {before : List Factory} {f : Factory} {after : List Factory} {action : Action}
      (hfactories : sh.factories = before ++ f :: after) (hbefore : ∀ g ∈ before, name ∉ g.names)
      (hname : name ∈ f.names) (hmade : f.create? sh.session c = some action)
      (houtcome : o = action sh.session w)
  | program {searchPath : Text} {directory : Path} (hnone : ∀ f ∈ sh.factories, name ∉ f.names)
      (hpath : sh.session.environment.get? "PATH".toList = some searchPath)
      (hfirst : SearchPath.FirstWith sh.session.machine searchPath name directory)
      (hstarts : Starts sh.session w
        { program := directory.joinName (.text name)
          arguments := c.argv
          vars := sh.session.environment.vars
          directory := sh.session.environment.currentDirectory } o)

/-- A program that is started is not refused, whatever comes of it. -/
theorem Starts.ne_refused {s : Session} {w : Writer} {request : Launch} {o : Outcome}
    (h : Starts s w request o) (error : ShellError) : o.result ≠ .error (.refused error) := by
  cases h <;> simp

/-- A name that has just been listed is one of a factory, or of a program that is found. -/
theorem goesTo_of_fresh (hlawful : ∀ f ∈ factories, f.Lawful) (h : Fresh factories sh)
    (hlegal : sh.session.machine.files.Legal) {x name : Text}
    (hresolve : sh.session.resolver.resolve x = .ok name) {c : Command}
    (htarget : c.target = name) (w : Writer) :
    ∃ action, sh.action? c = some action ∧ GoesTo sh name c w (action sh.session w) := by
  have hmade : ∀ f ∈ sh.factories, (f.create? sh.session c).isSome ↔ name ∈ f.names := by
    intro f hf
    rw [h.factories_eq] at hf
    rw [(hlawful f hf).made_iff, htarget]
  rcases action?_cases sh c with
    ⟨f, hf, before, after, action, hsplit, hbefore, hf', haction⟩ | ⟨hnone, haction⟩
  · refine ⟨action, haction, .factory hsplit ?_ ((hmade f hf).1 ?_) hf' rfl⟩
    · intro g hg hname
      have hmem : g ∈ sh.factories := by
        rw [hsplit]
        exact List.mem_append_left _ hg
      have hsome := (hmade g hmem).2 hname
      rw [hbefore g hg] at hsome
      cases hsome
    · rw [hf']
      rfl
  · -- No factory has the name, so it has been listed as a program; and what is listed is found.
    have hothers : ∀ f ∈ sh.factories, name ∉ f.names := by
      intro f hf
      rw [← hmade f hf, hnone f hf]
      exact Bool.false_ne_true
    rcases h.cases hresolve with ⟨f, hf, hname⟩ | ⟨searchPath, hpath, hprogram⟩
    · exact absurd hname (hothers f hf)
    · obtain ⟨directory, hfirst, hfind⟩ := SearchPath.find?_of_mem_programs hlegal hprogram
      refine ⟨_, ?_, .program hothers hpath hfirst (launch_starts _ c sh.session w)⟩
      rw [haction, htarget, program?, hpath, Option.getD_some, hfind]
      rfl

/-- Just after the known names have been listed, whatever resolves is carried out, by the first
factory that has the name or else by the first program of this name. It is not refused, unless by
the command that the factory makes. -/
theorem dispatch_known (hlawful : ∀ f ∈ factories, f.Lawful) (hsh : Listed factories sh)
    (hlegal : sh.session.machine.files.Legal) {c : Command} (hslash : '/' ∉ c.name) {name : Text}
    (hresolve : sh.session.resolver.resolve c.name = .ok name) (w : Writer) :
    ∃ action, sh.action? { c with resolved := some name } = some action ∧
      sh.dispatch c w = action sh.session w ∧
      GoesTo sh name { c with resolved := some name } w (sh.dispatch c w) ∧
      ∀ error, (sh.dispatch c w).result = .error (.refused error) →
        ∃ f ∈ sh.factories,
          f.create? sh.session { c with resolved := some name } = some action := by
  obtain ⟨action, haction, hgoes⟩ := goesTo_of_fresh hlawful (hsh.fresh hlawful) hlegal hresolve
    (c := { c with resolved := some name }) rfl w
  have hdispatch : sh.dispatch c w = action sh.session w :=
    (dispatch_of_ok hslash hresolve w).trans (run_of_action? haction w)
  rw [← hdispatch] at hgoes
  refine ⟨action, haction, hdispatch, hgoes, ?_⟩
  intro error herror
  rcases action?_cases sh { c with resolved := some name } with
    ⟨f, hf, before, after, action', -, -, hmade, haction'⟩ | ⟨hnone, -⟩
  · rw [haction] at haction'
    cases haction'
    exact ⟨f, hf, hmade⟩
  · cases hgoes with
    | @factory before f after _ hfactories _ _ hmade _ =>
        have hf : f ∈ sh.factories := by
          rw [hfactories]
          exact List.mem_append_right before List.mem_cons_self
        rw [hnone f hf] at hmade
        cases hmade
    | program _ _ _ hstarts => exact absurd herror (hstarts.ne_refused error)

/-- At the start, with the program `/bin/tool` on the search path, `to` goes to it. -/
theorem dispatch_to :
    let m : Machine := {
      files := FileSystem.empty.put [.text "bin".toList, .text "tool".toList]
        (.file ⟨0o755, .program [] (.exit 3)⟩)
      workingDirectory := .root }
    let sh := Shell.start .default ⟨.ofList [("PATH".toList, "/bin".toList)], .root, false, []⟩ m
      Builtin.factories
    let c : Command := { name := "to".toList, items := [], rawInput := "to".toList }
    ∃ action, sh.action? { c with resolved := some "tool".toList } = some action ∧
      sh.dispatch c .steady = action sh.session .steady ∧
      GoesTo sh "tool".toList { c with resolved := some "tool".toList } .steady
        (sh.dispatch c .steady) ∧
      ∀ error, (sh.dispatch c .steady).result = .error (.refused error) →
        ∃ f ∈ sh.factories,
          f.create? sh.session { c with resolved := some "tool".toList } = some action := by
  intro m sh c
  have hlegal : m.files.Legal := by
    refine FileSystem.legal_put FileSystem.legal_empty ?_ _
    intro name hname
    rcases List.mem_cons.1 hname with rfl | hname
    · exact ⟨by decide, by decide, by decide, by rintro t ⟨⟩; decide⟩
    · rw [List.mem_singleton.1 hname]
      exact ⟨by decide, by decide, by decide, by rintro t ⟨⟩; decide⟩
  have hprograms : SearchPath.programs m "/bin".toList = ["tool".toList] := by cbv
  have hlist : sh.session.registry.list m =
      Builtin.factories.flatMap (·.names) ++ ["tool".toList] :=
    congrArg (Builtin.factories.flatMap (·.names) ++ ·) hprograms
  have hloaded := Resolver.ofList_loaded (sh.session.registry.list m) true
  rw [hlist] at hloaded
  have hresolve : sh.session.resolver.resolve "to".toList = .ok "tool".toList := by
    show (Resolver.ofList (sh.session.registry.list m) true).resolve "to".toList = _
    rw [hlist]
    exact Resolver.resolve_of_singleton hloaded.wellFormed (by rw [hloaded.names_eq]; decide) rfl
      (by rw [hloaded.names_eq]; decide)
  exact dispatch_known (c := c) Builtin.factories_lawful (.start _ _ _) hlegal (by decide) hresolve
    .steady

end

end PrefixShell.Shell
