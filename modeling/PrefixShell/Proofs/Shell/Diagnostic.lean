import PrefixShell.Proofs.Command.Placement
import PrefixShell.Proofs.Command.Verdict
import PrefixShell.Proofs.Shell.Known
import PrefixShell.Proofs.Word.Substitution

/-!
# Diagnostics of one line

The report of an error is one line of text, with one exception.  A name that is not found is shown as it
is, and a name can hold a line break: between quotes a line break stands for itself, between `"` it can
also be written as an escape, and the value of a variable can hold one as well.

The other errors cannot show any.  What a syntax error says is fixed but for two numbers, and an
ambiguous name is the beginning of a known name.

## Main results

* `error_of_refused`: what a line can be refused for.
* `name_singleLine`: where no line break is read and no value holds one, the name holds none.
* `diagnosed_execute`: when the report of an error is one line of text.
* `broken_diagnostic`: a report that is not.
-/

namespace PrefixShell

/-! ## Texts of one line -/

/-- The text has no line break. -/
def Text.SingleLine (t : Text) : Prop := '\n' ∉ t

instance (t : Text) : Decidable t.SingleLine := inferInstanceAs (Decidable ('\n' ∉ t))

namespace Text

theorem singleLine_append {s t : Text} : (s ++ t).SingleLine ↔ s.SingleLine ∧ t.SingleLine := by
  rw [SingleLine, List.mem_append, not_or]
  rfl

theorem singleLine_flatMap {α : Type} {f : α → Text} {xs : List α}
    (h : ∀ x ∈ xs, (f x).SingleLine) : SingleLine (xs.flatMap f) := by
  intro hbreak
  obtain ⟨x, hx, hmem⟩ := List.mem_flatMap.1 hbreak
  exact h x hx hmem

theorem singleLine_intercalate {s : Text} {ts : List Text} (hs : s.SingleLine)
    (hts : ∀ t ∈ ts, t.SingleLine) : SingleLine (List.intercalate s ts) := by
  induction ts with
  | nil => exact List.not_mem_nil
  | cons t ts ih =>
      obtain ⟨ht, hts⟩ := List.forall_mem_cons.1 hts
      cases ts with
      | nil =>
          rw [List.intercalate_singleton]
          exact ht
      | cons u ts =>
          rw [List.intercalate_cons_cons]
          exact singleLine_append.2 ⟨singleLine_append.2 ⟨ht, hs⟩, ih hts⟩

theorem singleLine_ofNat (n : Nat) : (ofNat n).SingleLine := by
  intro hbreak
  have hdigit := Nat.isDigit_of_mem_toDigits (by decide) (by decide) hbreak
  exact absurd hdigit (by decide)

end Text

/-! ## Messages -/

namespace ShellError

theorem singleLine_malformed (cause : Fault) (p : Position) :
    (malformed cause.message p).message.SingleLine := by
  have hplace : Text.SingleLine (Position.message p) :=
    Text.singleLine_append.2 ⟨Text.singleLine_append.2 ⟨Text.singleLine_append.2
      ⟨by decide, Text.singleLine_ofNat p.line⟩, by decide⟩, Text.singleLine_ofNat p.column⟩
  have hdetail : Text.SingleLine cause.message := by
    cases cause <;> decide
  show Text.SingleLine ("syntax error at ".toList ++ p.message ++ ": ".toList ++ cause.message)
  simp only [Text.singleLine_append]
  exact ⟨⟨⟨by decide, hplace⟩, by decide⟩, hdetail⟩

theorem singleLine_commandNotFound {name : Text} :
    (commandNotFound name).message.SingleLine ↔ name.SingleLine := by
  show Text.SingleLine ("command not found: ".toList ++ name) ↔ _
  rw [Text.singleLine_append]
  exact and_iff_right (by decide)

theorem singleLine_ambiguousCommand {name : Text} {alternatives : List Text}
    (hname : name.SingleLine) (halternatives : ∀ t ∈ alternatives, t.SingleLine) :
    (ambiguousCommand name alternatives).message.SingleLine := by
  show Text.SingleLine ("ambiguous command '".toList ++ name ++ "': could be ".toList ++
    List.intercalate ", ".toList alternatives)
  simp only [Text.singleLine_append]
  exact ⟨⟨⟨by decide, hname⟩, by decide⟩, Text.singleLine_intercalate (by decide) halternatives⟩

end ShellError

/-! ## Names -/

namespace Expansion

/-- What variables and `~` stand for are texts of one line. -/
structure SingleLine (e : Expansion) : Prop where
  value : ∀ name, ∀ value ∈ e.value? name, value.SingleLine
  fallbackHome : e.fallbackHome.SingleLine

variable {e : Expansion}

theorem SingleLine.tilde (h : e.SingleLine) {t : Text} (ht : t.SingleLine) :
    (e.tilde t).SingleLine := by
  have hhome : e.home.SingleLine := by
    rw [home]
    cases hvalue : e.value? "HOME".toList with
    | none => exact h.fallbackHome
    | some value => exact h.value _ value hvalue
  rw [Expansion.tilde]
  cases hrest : afterTilde? t with
  | none => exact ht
  | some rest =>
      rw [(afterTilde?_eq_some_iff.1 hrest).1] at ht
      exact Text.singleLine_append.2 ⟨hhome, fun hbreak => ht (List.mem_cons_of_mem _ hbreak)⟩

theorem SingleLine.piece (h : e.SingleLine) (leading : Bool) {t : Token}
    (ht : t.literal.SingleLine) : (e.piece leading t).SingleLine := by
  rw [Expansion.piece]
  split
  · rw [Expansion.value]
    cases hvalue : e.value? t.literal with
    | none => exact List.not_mem_nil
    | some value => exact h.value _ value hvalue
  -- A piece that is typed stands for itself or, in front of the word, for what `~` makes of it.
  all_goals first
    | exact List.not_mem_nil
    | split
      · exact h.tilde ht
      · exact ht

theorem SingleLine.word (h : e.SingleLine) {w : Word} (hw : ∀ t ∈ w, t.literal.SingleLine) :
    (e.word w).SingleLine := by
  cases w with
  | nil => exact List.not_mem_nil
  | cons t w =>
      obtain ⟨ht, hw⟩ := List.forall_mem_cons.1 hw
      exact Text.singleLine_append.2
        ⟨h.piece true ht, Text.singleLine_flatMap fun u hu => h.piece false (hw u hu)⟩

end Expansion

namespace Command

variable {e : Expansion} {matching : Text → List Text} {line : Text}

/-- The name of a command is what its first word stands for, or else that word as it was typed.  Where
no line break is read, and none is in a value, there is none in the name. -/
theorem name_singleLine {c : Command} (h : parseLine e matching line = .ok (some c))
    (he : e.SingleLine) (hline : ∀ t ∈ readable (Token.ofLine line),
      t.raw.SingleLine ∧ t.literal.SingleLine) : c.name.SingleLine := by
  obtain ⟨w, hw, hname, -⟩ := exists_name h
  have hmem := (Word.mem_of_mem_ofTokens hw).2
  rw [hname, nameOf]
  split
  · exact Text.singleLine_flatMap fun t ht => (hline t (hmem t ht).1).1
  · exact he.word fun t ht => (hline t (hmem t ht).1).2

end Command

/-! ## Refusals -/

/-- A factory whose commands are not refused any more, once they are made. -/
def Factory.Committed (f : Factory) : Prop :=
  ∀ s c action, f.create? s c = some action →
    ∀ s' w error, (action s' w).result ≠ .error (.refused error)

namespace Builtin

theorem result_ne_refused (b : Builtin) (c : Command) (s : Session) (w : Writer)
    (error : ShellError) : (b.run c s w).result ≠ .error (.refused error) := by
  intro h
  obtain ⟨⟨cause, hcause⟩, -⟩ := failure_run h
  cases hcause

theorem factories_committed : ∀ f ∈ factories, f.Committed := by
  intro f hf s c action hmade s' w error
  obtain ⟨b, rfl⟩ := mem_factories.1 hf
  rw [← (create?_eq_some_iff.1 hmade).2]
  exact b.result_ne_refused c s' w error

end Builtin

namespace Shell

variable {sh : Shell} {line : Text} {w : Writer} {error : ShellError}

section

variable (hcommitted : ∀ f ∈ sh.factories, f.Committed)

include hcommitted

theorem error_of_run {c : Command} (h : (sh.run c w).result = .error (.refused error)) :
    error = .commandNotFound c.name := by
  rcases run_made sh c w with ⟨f, hf, action, hmade, hrun⟩ | ⟨p, hrun⟩ | hrun
  · rw [hrun] at h
    exact absurd h (hcommitted f hf _ _ _ hmade _ w error)
  · rw [hrun] at h
    exact absurd h ((launch_starts p c _ w).ne_refused error)
  · rw [hrun] at h
    cases h
    rfl

/-- A line is refused because it cannot be read, because its name does not resolve, or because there
is nothing behind the name. -/
theorem error_of_refused (h : (sh.execute line w).result = .error (.refused error)) :
    sh.read line = .error error ∨
      ∃ c, sh.read line = .ok (some c) ∧
        (error = .commandNotFound c.name ∨ sh.session.resolver.resolve c.name = .error error) := by
  cases hread : sh.read line with
  | error error' =>
      rw [execute_of_error hread] at h
      cases h
      exact .inl rfl
  | ok read =>
      cases read with
      | none =>
          rw [execute_of_blank hread] at h
          cases h
      | some c =>
          refine .inr ⟨c, rfl, ?_⟩
          rw [execute_of_command hread] at h
          by_cases hslash : '/' ∈ c.name
          · rw [dispatch_of_path hslash] at h
            exact .inl (error_of_run hcommitted h)
          · cases hresolve : sh.session.resolver.resolve c.name with
            | ok name =>
                rw [dispatch_of_ok hslash hresolve] at h
                have hgone := error_of_run hcommitted h
                exact .inl hgone
            | error error' =>
                rw [dispatch_of_error hslash hresolve] at h
                cases h
                exact .inr rfl

end

/-! ## Reports of one line -/

/-- Nothing that is read of the line holds a line break, and nothing that variables and `~` stand
for. -/
structure Breakless (sh : Shell) (line : Text) : Prop where
  tokens : ∀ t ∈ Command.readable (Token.ofLine line), t.raw.SingleLine ∧ t.literal.SingleLine
  expansion : sh.expansion.SingleLine

/-- When the report of an error is one line of text. -/
structure Diagnosed (sh : Shell) (line : Text) (error : ShellError) : Prop where
  /-- Always but where a name is not found that holds a line break. -/
  singleLine_iff : error.message.SingleLine ↔
    ∀ c, sh.read line = .ok (some c) → error = .commandNotFound c.name → c.name.SingleLine
  /-- In particular where there is nowhere for a line break to come from. -/
  singleLine : sh.Breakless line → error.message.SingleLine

/-- A report is one line of text, unless it is of a name that is not found, and that holds a line
break. -/
theorem singleLine_message (hcommitted : ∀ f ∈ sh.factories, f.Committed)
    (hwf : sh.session.resolver.names.WellFormed)
    (hknown : ∀ name ∈ sh.session.resolver.known, name.SingleLine)
    (h : (sh.execute line w).result = .error (.refused error)) :
    error.message.SingleLine ∨
      ∃ c, sh.read line = .ok (some c) ∧ error = .commandNotFound c.name := by
  rcases error_of_refused hcommitted h with hread | ⟨c, hread, rfl | hresolve⟩
  · obtain ⟨t, cause, -, rfl⟩ := Command.parseLine_eq_error_iff.1 hread
    exact .inl (ShellError.singleLine_malformed cause t.position)
  · exact .inr ⟨c, hread, rfl⟩
  · rcases Resolver.error_of_resolve hwf hresolve with rfl | ⟨rfl, hmany⟩
    · exact .inr ⟨c, hread, rfl⟩
    · -- An ambiguous name is the beginning of a known one.
      have hcandidate : ∀ name ∈ sh.session.resolver.candidates c.name,
          name.SingleLine ∧ c.name <+: name := by
        intro name hname
        obtain ⟨hmem, hbegins⟩ :=
          Resolver.mem_extensions.1 ((Resolver.mem_candidates hwf c.name name).1 hname)
        refine ⟨hknown name ?_, hbegins⟩
        exact (Resolver.mem_candidates hwf [] name).2
          (Resolver.mem_extensions.2 ⟨hmem, List.nil_prefix⟩)
      obtain ⟨name, hname⟩ := List.exists_mem_of_length_pos (Nat.lt_of_lt_of_le Nat.two_pos hmany)
      obtain ⟨hsingle, hbegins⟩ := hcandidate name hname
      exact .inl (ShellError.singleLine_ambiguousCommand
        (fun hbreak => hsingle (hbegins.subset hbreak)) fun name hname => (hcandidate name hname).1)

/-- With known names of one line each, the report of an error is one line of text, unless it is of a
name that is not found and holds a line break itself. -/
theorem diagnosed_execute (hcommitted : ∀ f ∈ sh.factories, f.Committed)
    (hwf : sh.session.resolver.names.WellFormed)
    (hknown : ∀ name ∈ sh.session.resolver.known, name.SingleLine)
    (h : (sh.execute line w).result = .error (.refused error)) : sh.Diagnosed line error := by
  have hreport := singleLine_message hcommitted hwf hknown h
  have hiff : error.message.SingleLine ↔
      ∀ c, sh.read line = .ok (some c) → error = .commandNotFound c.name → c.name.SingleLine := by
    constructor
    · rintro hsingle c - rfl
      exact ShellError.singleLine_commandNotFound.1 hsingle
    · intro hname
      rcases hreport with hsingle | ⟨c, hread, rfl⟩
      · exact hsingle
      · exact ShellError.singleLine_commandNotFound.2 (hname c hread rfl)
  refine ⟨hiff, ?_⟩
  intro hbreakless
  refine hiff.2 ?_
  intro c hread _
  exact Command.name_singleLine hread hbreakless.expansion hbreakless.tokens

/-! ## A report of two lines -/

/-- A shell with the built-in commands and an empty search path. -/
def pathless : Shell :=
  Shell.start .default ⟨.ofList [("PATH".toList, [])], .root, false, []⟩
    { files := .empty, workingDirectory := .root } Builtin.factories

/-- It knows the built-in commands, and no other. -/
theorem loaded_pathless :
    pathless.session.resolver.Loaded ((Builtin.factories.flatMap (·.names)).toFinset.erase [])
      true := by
  let m : Machine := { files := .empty, workingDirectory := .root }
  have hprograms : SearchPath.programs m [] = [] := by cbv
  have hlist : pathless.session.registry.list m = Builtin.factories.flatMap (·.names) := by
    show Builtin.factories.flatMap (·.names) ++ SearchPath.programs m [] = _
    rw [hprograms, List.append_nil]
  show (Resolver.ofList (pathless.session.registry.list m) true).Loaded _ _
  rw [hlist]
  exact Resolver.ofList_loaded _ true

theorem singleLine_of_known_pathless :
    ∀ name ∈ pathless.session.resolver.known, name.SingleLine := by
  have hbuiltin : ∀ name ∈ (Builtin.factories.flatMap (·.names)).toFinset.erase [],
      Text.SingleLine name := by
    decide
  intro name hname
  exact hbuiltin name ((loaded_pathless.refines.mem_known name).1 hname)

/-- The line `"a\nb"`, in which the `\n` is an escape. -/
def brokenLine : Text := ['"', 'a', '\\', 'n', 'b', '"']

/-- Its name has a line break, and there is no such command. -/
theorem execute_brokenLine (w : Writer) :
    pathless.execute brokenLine w = pathless.refuse (.commandNotFound ['a', '\n', 'b']) w := by
  let t : Token := ⟨.quoted .double, brokenLine, ['a', '\n', 'b'], .start⟩
  have hlexemes : (Lexeme.ofText brokenLine).map (·.at .start) = [t] := by
    rw [brokenLine, Lexeme.ofText_cons, Lexeme.first_double]
    show [_] ++ (Lexeme.ofText []).map _ = _
    rw [Lexeme.ofText_nil]
    rfl
  have hsolid : ∀ x ∈ [t], x.endsLine = false ∧ x.fault? = none := by
    intro x hx
    rw [List.mem_singleton.1 hx]
    exact ⟨rfl, rfl⟩
  have hwords : Word.ofTokens [t] = [[t]] := rfl
  have hread := Command.parseLine_of_lexemes pathless.expansion pathless.matching hlexemes hsolid
    hwords
  rw [Part.ofWords_nil] at hread
  have hresolve : pathless.session.resolver.resolve ['a', '\n', 'b'] =
      .error (.commandNotFound ['a', '\n', 'b']) := by
    refine Resolver.resolve_of_none loaded_pathless.wellFormed ?_ (.inr ?_)
    · rw [loaded_pathless.names_eq]
      decide
    · rw [loaded_pathless.names_eq]
      decide
  rw [execute_of_command hread, dispatch_of_error (by decide) hresolve]

theorem diagnosed_brokenLine :
    pathless.Diagnosed brokenLine (.commandNotFound ['a', '\n', 'b']) := by
  have hrefused : (pathless.execute brokenLine .steady).result =
      .error (.refused (.commandNotFound ['a', '\n', 'b'])) := by
    rw [execute_brokenLine]
    rfl
  exact diagnosed_execute Builtin.factories_committed loaded_pathless.wellFormed
    singleLine_of_known_pathless hrefused

/-- Though all known names are of one line, the report of this line is of two. -/
theorem broken_diagnostic :
    (∀ name ∈ pathless.session.resolver.known, name.SingleLine) ∧
      (pathless.execute brokenLine .steady).result =
        .error (.refused (.commandNotFound ['a', '\n', 'b'])) ∧
      ¬(ShellError.commandNotFound ['a', '\n', 'b']).message.SingleLine := by
  refine ⟨singleLine_of_known_pathless, ?_, ?_⟩
  · rw [execute_brokenLine]
    rfl
  · rw [ShellError.singleLine_commandNotFound]
    decide

end Shell

end PrefixShell
