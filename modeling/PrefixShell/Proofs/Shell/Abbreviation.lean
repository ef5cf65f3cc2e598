import PrefixShell.Proofs.Command.Leading
import PrefixShell.Proofs.Shell.Reached

/-!
# Abbreviations are transparent

A line that begins with an abbreviation does what the line does that begins with the full name: it
ends in the same way, writes the same, starts the same program with the same arguments, and leaves
the same session.  For whoever carries out a command looks at the name it resolves to and at its
items, and both are the same for the two lines.

There is one difference that can be seen.  If the name is known and yet there is no such command any
more, the report names what was typed.

## Main results

* `execute_abbreviated`: a line does the same under an abbreviation as under the full name.
-/

namespace PrefixShell

namespace Shell

/-- A name that is one word of its own, stands for itself, and is not the path of a program. -/
structure Bare (sh : Shell) (x : Text) : Prop where
  plain : Command.Plain sh.expansion x
  noSlash : '/' ∉ x

/-- What a line comes to under a typed name and under the full name, with one writer to write to: the
same, unless the full name is known and there is nothing behind it any more. -/
inductive SameBut (sh : Shell) (typed name : Text) (w : Writer) : Outcome → Outcome → Prop
  | same (o : Outcome) : SameBut sh typed name w o o
  | gone (hknown : sh.session.resolver.contains name = true)
      (hbuiltin : ∀ b : Builtin, name ≠ b.name) (hprogram : program? sh.session name = none) :
      SameBut sh typed name w (sh.refuse (.commandNotFound typed) w)
        (sh.refuse (.commandNotFound name) w)

variable {sh : Shell} {p n rest : Text}

/-- Commands that resolve to one name and have the same items come to the same, however the name
was typed. -/
theorem run_sameBut (hsh : sh.factories = Builtin.factories)
    (hknown : sh.session.resolver.contains n = true) {c c' : Command} (htarget : c.target = n)
    (hfull : c'.name = n ∧ c'.target = n) (hitems : c.items = c'.items) (w : Writer) :
    SameBut sh c.name n w (sh.run c w) (sh.run c' w) := by
  obtain ⟨hname', htarget'⟩ := hfull
  have hdiscreet : ∀ f ∈ sh.factories, f.Discreet := by
    rw [hsh]
    exact Builtin.factories_discreet
  rcases run_congr hdiscreet (htarget.trans htarget'.symm) hitems w with hsame | ⟨hnone, hnone'⟩
  · rw [hsame]
    exact .same _
  · have hother : ∀ b : Builtin, c.target ≠ b.name := by
      intro b hb
      rw [action?_of_builtin hsh c hb] at hnone
      cases hnone
    have hprogram : program? sh.session c.target = none := by
      rw [action?_of_other hsh c hother] at hnone
      exact Option.map_eq_none_iff.1 hnone
    rw [htarget] at hother hprogram
    rw [run_of_none hnone, run_of_none hnone', hname']
    exact .gone hknown hother hprogram

/-- A line does the same under an abbreviation as under the full name, up to the name in the report
that the command is gone. -/
theorem execute_abbreviated (hsh : Reached Builtin.factories sh)
    (hresolve : sh.session.resolver.resolve p = .ok n) (hp : sh.Bare p) (hn : sh.Bare n)
    (hrest : ∀ c ∈ rest.head?, c = ' ' ∨ c = '\t')
    (hread : ∀ error, sh.read (p ++ rest) ≠ .error error) (w : Writer) :
    SameBut sh p n w (sh.execute (p ++ rest) w) (sh.execute (n ++ rest) w) := by
  have hwf := hsh.wellFormed
  obtain ⟨items, hreadp, hreadn⟩ :=
    Command.parseLine_append_of_plain sh.matching hp.plain hn.plain hrest hread
  have hknown : sh.session.resolver.contains n = true :=
    (Resolver.contains_iff hwf n).2 (Resolver.mem_of_resolve hwf hresolve)
  rw [execute_of_command hreadp, execute_of_command hreadn, dispatch_of_ok hp.noSlash hresolve,
    dispatch_of_ok hn.noSlash (Resolver.resolve_idem hwf hresolve)]
  let full : Command := { name := n, resolved := some n, items, rawInput := n ++ rest }
  have hfull : full.name = n ∧ full.target = n := ⟨rfl, rfl⟩
  exact run_sameBut (c := { name := p, resolved := some n, items, rawInput := p ++ rest })
    hsh.factories_eq hknown rfl hfull rfl w

/-- At the start `ech` is short for `echo`. -/
theorem execute_ech :
    let sh := Shell.start .default ⟨.empty, .root, false, []⟩
      { files := .empty, workingDirectory := .root } Builtin.factories
    SameBut sh "ech".toList "echo".toList .steady
      (sh.execute ("ech".toList ++ " 'a b' c".toList) .steady)
      (sh.execute ("echo".toList ++ " 'a b' c".toList) .steady) := by
  intro sh
  have hp : sh.Bare "ech".toList := by
    show sh.Bare ['e', 'c', 'h']
    refine ⟨Command.plain_of_ordinary (by decide) (by decide) ?_, by decide⟩
    simp [Lexeme.endsWord, Lexeme.isBlank]
  have hn : sh.Bare "echo".toList := by
    show sh.Bare ['e', 'c', 'h', 'o']
    refine ⟨Command.plain_of_ordinary (by decide) (by decide) ?_, by decide⟩
    simp [Lexeme.endsWord, Lexeme.isBlank]
  have hloaded := Resolver.ofList_loaded (Builtin.factories.flatMap (·.names)) true
  have hresolve : sh.session.resolver.resolve "ech".toList = .ok "echo".toList :=
    Resolver.resolve_of_singleton hloaded.wellFormed (by rw [hloaded.names_eq]; decide) rfl
      (by rw [hloaded.names_eq]; decide)
  have hrest : Text.Parted " 'a b' c".toList := by
    intro c hc
    obtain rfl : ' ' = c := Option.some.inj hc
    exact .inl rfl
  have hread := Command.parseLine_append sh.matching hp.plain hrest (by cbv)
  refine execute_abbreviated ⟨_, _, _, Relation.ReflTransGen.refl⟩ hresolve hp hn hrest ?_ .steady
  intro error herror
  rw [read, hread] at herror
  cases herror

end Shell

end PrefixShell
