import PrefixShell.Proofs.Shell.Reached

/-!
# The known names, just after they have been listed

A shell lists its names when it starts, and again for `rehash`: those of its factories and, if
programs are to be known by name, those of the programs on the search path.  It is the search path
of the start that is listed every time.  So a listing tells what there is as long as the variable
for the search path is what it was at the start.

## Main results

* `Listed.fresh`: just after a listing, the known names are what there is.
* `Fresh.cases`: a known name is one of a factory, or of a program on the search path.
-/

namespace PrefixShell

namespace Shell

/-- What is carried out as `rehash`: a command of this name, where the built-in factory is the first
with the name. -/
structure Rehashes (sh : Shell) (c : Command) : Prop where
  target_eq : c.target = Builtin.rehash.name
  first : ∃ before after, sh.factories = before ++ Builtin.rehash.factory :: after ∧
    ∀ f ∈ before, Builtin.rehash.name ∉ f.names

/-- The states of a shell with the given factories in which the known names have just been listed:
at the start, and after a line that is carried out as `rehash`, with the search path that there was
at the start, whatever is taken of the count that it writes. -/
inductive Listed (factories : List Factory) : Shell → Prop
  | start (config : Config) (environment : Environment) (machine : Machine) :
      Listed factories (Shell.start config environment machine factories)
  | rehash {config : Config} {environment : Environment} {machine : Machine} {sh : Shell}
      (h : Later (Shell.start config environment machine factories) sh)
      (hpath : sh.session.environment.get? "PATH".toList = environment.get? "PATH".toList)
      {line : Text} {c : Command} (hline : sh.command? line = some c) (hc : sh.Rehashes c)
      (w : Writer) : Listed factories (sh.after (sh.execute line w))

/-- The known names are those of the factories and, perhaps, those on the search path. -/
structure Fresh (factories : List Factory) (sh : Shell) : Prop where
  factories_eq : sh.factories = factories
  loaded : sh.session.resolver.names = .ofList (sh.session.registry.list sh.session.machine)
  names_eq : sh.session.registry.names = factories.flatMap (·.names)
  searchPath_eq : ∀ searchPath ∈ sh.session.registry.searchPath,
    sh.session.environment.get? "PATH".toList = some searchPath

theorem fresh_start (config : Config) (environment : Environment) (machine : Machine)
    (factories : List Factory) :
    Fresh factories (Shell.start config environment machine factories) where
  factories_eq := rfl
  loaded := rfl
  names_eq := rfl
  searchPath_eq := by
    intro searchPath hpath
    have hpath : (if config.includePath then environment.get? "PATH".toList else none) =
        some searchPath := hpath
    split at hpath
    · exact hpath
    · cases hpath

section

variable {factories : List Factory} {sh : Shell}

theorem action?_of_rehashes (hlawful : ∀ f ∈ sh.factories, f.Lawful) {c : Command}
    (hc : sh.Rehashes c) : sh.action? c = some Builtin.runRehash := by
  obtain ⟨htarget, before, after, hsplit, hbefore⟩ := hc
  have hmade : Builtin.rehash.factory.create? sh.session c = some Builtin.runRehash :=
    Builtin.create?_eq_some_iff.2 ⟨htarget, rfl⟩
  have hfirst : (sh.factories.findSome? fun f => f.create? sh.session c) =
      some Builtin.runRehash := by
    refine List.findSome?_eq_some_iff.2 ⟨before, _, after, hsplit, hmade, ?_⟩
    intro f hf
    have hmem : f ∈ sh.factories := by
      rw [hsplit]
      exact List.mem_append_left _ hf
    rw [← Option.not_isSome_iff_eq_none, (hlawful f hmem).made_iff, htarget]
    exact hbefore f hf
  rw [action?, hfirst]
  rfl

/-- Just after they have been listed, the known names are what there is. -/
theorem Listed.fresh (hlawful : ∀ f ∈ factories, f.Lawful) (h : Listed factories sh) :
    Fresh factories sh := by
  cases h with
  | start config environment machine => exact fresh_start config environment machine factories
  | @rehash config environment machine sh h hpath line c hline hc w =>
      -- The line runs `rehash`, which lists by the registry. The registry is that of the start, so
      -- it lists the search path of the start, and this is what the variable still says.
      have hfactories : sh.factories = factories := h.factories_eq
      have hregistry := h.registry_eq hlawful
      have hrun : sh.run c w = Builtin.runRehash sh.session w :=
        run_of_action? (action?_of_rehashes (hfactories ▸ hlawful) hc) w
      have hsession : (sh.execute line w).session = sh.session.refresh := by
        rw [execute_of_command? hline, hrun]
        exact (Builtin.finish_ends _ _ w).session_eq
      have hstart := fresh_start config environment machine factories
      rw [after, hsession]
      exact
        { factories_eq := hfactories
          loaded := rfl
          names_eq := by
            show sh.session.registry.names = _
            rw [hregistry]
            exact hstart.names_eq
          searchPath_eq := by
            show ∀ searchPath ∈ sh.session.registry.searchPath,
              sh.session.environment.get? "PATH".toList = some searchPath
            rw [hregistry, hpath]
            exact hstart.searchPath_eq }

/-- A known name is one of a factory, or of a program on the search path. -/
theorem Fresh.cases (h : Fresh factories sh) {x name : Text}
    (hresolve : sh.session.resolver.resolve x = .ok name) :
    (∃ f ∈ sh.factories, name ∈ f.names) ∨
      ∃ searchPath, sh.session.environment.get? "PATH".toList = some searchPath ∧
        name ∈ SearchPath.programs sh.session.machine searchPath := by
  obtain ⟨hwf, hnames⟩ := Trie.ofList_names (sh.session.registry.list sh.session.machine)
  rw [← h.loaded] at hwf hnames
  have hknown := Resolver.mem_of_resolve hwf hresolve
  rw [hnames, Finset.mem_erase, List.mem_toFinset, Registry.mem_list, h.names_eq] at hknown
  rcases hknown.2 with hfactory | ⟨searchPath, hpath, hprogram⟩
  · obtain ⟨f, hf, hname⟩ := List.mem_flatMap.1 hfactory
    exact .inl ⟨f, h.factories_eq ▸ hf, hname⟩
  · exact .inr ⟨searchPath, h.searchPath_eq searchPath hpath, hprogram⟩

end

end Shell

end PrefixShell
