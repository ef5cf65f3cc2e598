import PrefixShell.Proofs.Command.Arguments
import PrefixShell.Proofs.Command.Shape

/-!
# What a matcher is asked for

A matcher need not be a function.  It looks at files, and what it finds may change while a line is
read; so it matters what it is asked for, in which order and how often, and not only what it answers.
`parseWith` reads a line with a matcher that acts in some monad.  With a matcher that just answers it
is `parse`, and with one that keeps a record of what it is asked for it leaves `askedPatterns` there.

A matcher is asked for the arguments that are wild and for nothing else, once each and in order, and
what it answers makes a difference to the arguments alone.

## Main results

* `parseWith_pure`, `run_parseWith_recording`: a line read with a matcher that acts.
* `ofPart_positional`: what becomes of an argument.
* `filterMap_pattern?`: what a matcher is asked for.
* `parse_alike`: what a matcher answers makes a difference to the arguments alone.
* `parseLine_asking`: the patterns that a matcher is asked for, and what comes of its answers.
-/

namespace PrefixShell

/-! ## Wild words -/

/-- A word without quotes in which a wildcard was typed. -/
def Word.Wild (w : Word) : Prop :=
  (∀ t ∈ w, t.isQuoted = false) ∧ ∃ t ∈ w,
    (t.kind = .word ∨ t.kind = .equals ∨ t.kind = .option) ∧
      ∃ c ∈ t.literal, c = '*' ∨ c = '?' ∨ c = '['

theorem Word.wild_iff {w : Word} : (!w.isQuoted && w.hasTypedWildcard) = true ↔ w.Wild := by
  simp only [isQuoted, hasTypedWildcard, isTyped, Glob.hasWildcard, Glob.isWildcard, Wild,
    Bool.and_eq_true, Bool.not_eq_true', List.any_eq_false, List.any_eq_true, Bool.or_eq_true,
    decide_eq_true_eq, Bool.not_eq_true, or_assoc]

instance (w : Word) : Decidable w.Wild := decidable_of_iff _ Word.wild_iff

namespace Expansion

variable (e : Expansion) (matching : Text → List Text) {w : Word}

/-- There is a pattern for the words that are wild. -/
theorem pattern?_eq (w : Word) : e.pattern? w = if w.Wild then some (e.pattern w) else none := by
  rw [pattern?]
  simp only [Word.wild_iff]

/-- The texts that an argument becomes, given the paths that match it. -/
def found (w : Word) (paths : List Text) : List Text :=
  if paths = [] then [e.word w] else paths

/-- The texts that an argument becomes. -/
def texts (w : Word) : List Text :=
  if w.Wild then e.found w (matching (e.pattern w)) else [e.word w]

end Expansion

theorem Word.Wild.isQuoted {w : Word} (h : w.Wild) : w.isQuoted = false := by
  rw [Word.isQuoted, List.any_eq_false]
  exact fun t ht => by simp [h.1 t ht]

/-! ## Matchers that act -/

namespace Item

/-- The items that a part becomes, where a matcher is asked for the paths. -/
def ofPartWith {m : Type → Type} [Monad m] (e : Expansion) (ask : Text → m (List Text)) :
    Part → m (List Item)
  | .positional w =>
    match e.pattern? w with
    | some pattern => (fun paths => (e.found w paths).map (.argument · false)) <$> ask pattern
    | none => pure [.argument (e.word w) w.isQuoted]
  | part => pure [plain e part]

variable (e : Expansion) (matching : Text → List Text)

/-- An argument becomes arguments, quoted if it was. -/
theorem ofPart_positional (w : Word) :
    ofPart e matching (.positional w) =
      (e.texts matching w).map (.argument · w.isQuoted) := by
  rw [ofPart, e.pattern?_eq, Expansion.texts]
  by_cases hwild : w.Wild
  · simp only [if_pos hwild, Option.map_some, Expansion.found, hwild.isQuoted]
    cases matching (e.pattern w) with
    | nil => rfl
    | cons path paths => rfl
  · simp only [if_neg hwild, Option.map_none]
    rfl

end Item

namespace Command

/-- Reads a command from tokens, where a matcher is asked for the paths. -/
def parseWith {m : Type → Type} [Monad m] (e : Expansion) (ask : Text → m (List Text))
    (ts : List Token) : m (Except ShellError (Option Command)) :=
  match firstFault? (readable ts) with
  | some error => pure (.error error)
  | none =>
    match Word.ofTokens (readable ts) with
    | [] => pure (.ok none)
    | first :: rest => do
      let items ← (Part.ofWords rest).mapM (Item.ofPartWith e ask)
      pure (.ok (some {
        name := nameOf e first
        items := items.flatten
        rawInput := Token.rawText ts }))

/-- A matcher that keeps a record of the patterns that it is asked for. -/
def recording (matching : Text → List Text) (pattern : Text) : StateM (List Text) (List Text) :=
  fun record => (matching pattern, record ++ [pattern])

variable (e : Expansion) (matching : Text → List Text)

theorem ofPartWith_pure {m : Type → Type} [Monad m] [LawfulMonad m] (part : Part) :
    Item.ofPartWith (m := m) e (fun p => pure (matching p)) part =
      pure (Item.ofPart e matching part) := by
  cases part with
  | positional w =>
      rw [Item.ofPartWith, Item.ofPart_positional, Expansion.texts, e.pattern?_eq]
      by_cases hwild : w.Wild
      · simp only [if_pos hwild, map_pure, hwild.isQuoted]
      · simp only [if_neg hwild]
        rfl
  | binding | flag | endOfOptions => rfl

/-- A matcher that just answers makes no difference. -/
theorem parseWith_pure {m : Type → Type} [Monad m] [LawfulMonad m] (ts : List Token) :
    parseWith (m := m) e (fun p => pure (matching p)) ts = pure (parse e matching ts) := by
  unfold parseWith parse
  cases firstFault? (readable ts) with
  | some error => rfl
  | none =>
      cases Word.ofTokens (readable ts) with
      | nil => rfl
      | cons first rest =>
          have hparts : Item.ofPartWith (m := m) e (fun p => pure (matching p)) =
              fun part => pure (Item.ofPart e matching part) :=
            funext (ofPartWith_pure e matching)
          simp only [hparts, List.mapM_pure, pure_bind, List.flatMap_def]

theorem run_ofPartWith_recording (part : Part) (record : List Text) :
    (Item.ofPartWith e (recording matching) part).run record =
      (Item.ofPart e matching part, record ++ (part.pattern? e).toList) := by
  cases part with
  | positional w =>
      rw [Item.ofPartWith, Item.ofPart_positional, Expansion.texts, Part.pattern?, e.pattern?_eq]
      by_cases hwild : w.Wild
      · simp only [if_pos hwild, hwild.isQuoted]
        rfl
      · simp only [if_neg hwild]
        exact Prod.ext rfl (List.append_nil record).symm
  | binding | flag | endOfOptions => exact Prod.ext rfl (List.append_nil record).symm

/-- Part after part, the record grows by what the parts are looked up for. -/
theorem run_mapM_recording (parts : List Part) (record : List Text) :
    (parts.mapM (Item.ofPartWith e (recording matching))).run record =
      (parts.map (Item.ofPart e matching), record ++ parts.filterMap (Part.pattern? e)) := by
  induction parts generalizing record with
  | nil => exact Prod.ext rfl (List.append_nil record).symm
  | cons part parts ih =>
      have hasked : (part :: parts).filterMap (Part.pattern? e) =
          (part.pattern? e).toList ++ parts.filterMap (Part.pattern? e) := by
        rw [List.filterMap_cons]
        cases part.pattern? e <;> rfl
      rw [List.mapM_cons, StateT.run_bind, run_ofPartWith_recording, hasked, ← List.append_assoc]
      exact congrArg (fun r => (Item.ofPart e matching part :: r.1, r.2)) (ih _)

/-- A matcher that keeps a record is asked for `askedPatterns`. -/
theorem run_parseWith_recording (ts : List Token) (record : List Text) :
    (parseWith e (recording matching) ts).run record =
      (parse e matching ts, record ++ askedPatterns e ts) := by
  unfold parseWith parse askedPatterns
  cases firstFault? (readable ts) with
  | some error => exact Prod.ext rfl (List.append_nil record).symm
  | none =>
      cases Word.ofTokens (readable ts) with
      | nil =>
          simp only [List.tail_nil, Part.ofWords_nil, List.filterMap_nil, List.append_nil]
          rfl
      | cons first rest =>
          simp only [StateT.run_bind, run_mapM_recording, List.tail_cons, List.flatMap_def]
          rfl

/-! ## What becomes of the answers -/

section Answers

variable (part : Part)

theorem filterMap_argument?_ofPart :
    (Item.ofPart e matching part).filterMap Item.argument? =
      part.argument?.toList.flatMap (e.texts matching) := by
  cases part with
  | positional w =>
      rw [Item.ofPart_positional, List.filterMap_map]
      exact List.filterMap_some.trans (List.flatMap_singleton _ _).symm
  | binding | flag | endOfOptions => rfl

theorem filterMap_quoting?_ofPart :
    (Item.ofPart e matching part).filterMap Item.quoting? =
      part.argument?.toList.flatMap fun w => (e.texts matching w).map fun _ => w.isQuoted := by
  cases part with
  | positional w =>
      rw [Item.ofPart_positional, List.filterMap_map]
      exact (congrFun (List.filterMap_eq_map' ) _).trans (List.flatMap_singleton _ _).symm
  | binding | flag | endOfOptions => rfl

/-- No answer of a matcher sets a flag. -/
theorem flatMap_flags_ofPart :
    (Item.ofPart e matching part).flatMap Item.flags = (Item.plain e part).flags := by
  cases part with
  | positional w =>
      rw [Item.ofPart_positional, List.flatMap_map]
      exact List.flatMap_eq_nil_iff.2 fun _ _ => rfl
  | binding | flag | endOfOptions => exact List.flatMap_singleton _ _

/-- No answer of a matcher binds an option. -/
theorem filterMap_binding?_ofPart :
    (Item.ofPart e matching part).filterMap Item.binding? =
      (Item.plain e part).binding?.toList := by
  cases part with
  | positional w =>
      rw [Item.ofPart_positional, List.filterMap_map]
      exact List.filterMap_eq_nil_iff.2 fun _ _ => rfl
  | binding | flag | endOfOptions => rfl

end Answers

/-- What a matcher is asked for on account of parts: the wild words among the arguments. -/
theorem filterMap_pattern? (parts : List Part) :
    parts.filterMap (Part.pattern? e) =
      ((parts.filterMap Part.argument?).filter (·.Wild)).map e.pattern := by
  induction parts with
  | nil => rfl
  | cons part parts ih =>
      cases part with
      | positional w =>
          rw [List.filterMap_cons, List.filterMap_cons, Part.pattern?, Part.argument?,
            e.pattern?_eq, ih, List.filter_cons]
          by_cases hwild : w.Wild
          · simp [hwild]
          · simp [hwild]
      | binding | flag | endOfOptions => exact ih

/-! ## Two matchers -/

/-- Two commands that differ at most in their arguments. -/
structure SameButArguments (c d : Command) : Prop where
  name : c.name = d.name
  flags : c.flags = d.flags
  optionNames : c.optionNames = d.optionNames
  option? : ∀ option, c.option? option = d.option? option
  optionValues : ∀ option, c.optionValues option = d.optionValues option
  resolved : c.resolved = d.resolved
  rawInput : c.rawInput = d.rawInput

/-- Commands with the same bindings and flags differ at most in their arguments. -/
theorem sameButArguments_of_bindings {c d : Command} (hname : c.name = d.name)
    (hflags : c.items.flatMap Item.flags = d.items.flatMap Item.flags)
    (hbindings : c.bindings = d.bindings) (hresolved : c.resolved = d.resolved)
    (hraw : c.rawInput = d.rawInput) : SameButArguments c d where
  name := hname
  flags := congrArg Text.sortedSet hflags
  optionNames := optionNames_congr hbindings
  option? := option?_congr hbindings
  optionValues := optionValues_congr hbindings
  resolved := hresolved
  rawInput := hraw

/-- Two readings that come to the same, up to the arguments of a command. -/
inductive Alike :
    Except ShellError (Option Command) → Except ShellError (Option Command) → Prop
  | refused (error : ShellError) : Alike (.error error) (.error error)
  | blank : Alike (.ok none) (.ok none)
  | command {c d : Command} (h : SameButArguments c d) : Alike (.ok (some c)) (.ok (some d))

variable {e}

theorem flatMap_flags_ofParts (parts : List Part) :
    (parts.flatMap (Item.ofPart e matching)).flatMap Item.flags =
      parts.flatMap fun part => (Item.plain e part).flags := by
  rw [List.flatMap_assoc]
  exact List.flatMap_congr fun part _ => flatMap_flags_ofPart e matching part

theorem filterMap_binding?_ofParts (parts : List Part) :
    (parts.flatMap (Item.ofPart e matching)).filterMap Item.binding? =
      parts.flatMap fun part => (Item.plain e part).binding?.toList := by
  rw [List.filterMap_flatMap]
  exact List.flatMap_congr fun part _ => filterMap_binding?_ofPart e matching part

/-- What a matcher answers makes a difference to the arguments alone. -/
theorem parse_alike (first second : Text → List Text) (ts : List Token) :
    Alike (parse e first ts) (parse e second ts) := by
  unfold parse
  cases firstFault? (readable ts) with
  | some error => exact .refused error
  | none =>
      cases Word.ofTokens (readable ts) with
      | nil => exact .blank
      | cons name rest =>
          let parts := Part.ofWords rest
          have hbindings : (parts.flatMap (Item.ofPart e first)).filterMap Item.binding? =
              (parts.flatMap (Item.ofPart e second)).filterMap Item.binding? :=
            (filterMap_binding?_ofParts first parts).trans
              (filterMap_binding?_ofParts second parts).symm
          have hflags : (parts.flatMap (Item.ofPart e first)).flatMap Item.flags =
              (parts.flatMap (Item.ofPart e second)).flatMap Item.flags :=
            (flatMap_flags_ofParts first parts).trans (flatMap_flags_ofParts second parts).symm
          exact .command (sameButArguments_of_bindings rfl hflags hbindings rfl rfl)

/-! ## The arguments of a line -/

/-- The words of a line that are arguments. -/
def argumentWords (line : Text) : List Word :=
  Word.Awaited.nothing.arguments (Word.ofTokens (readable (Token.ofLine line))).tail

/-- What it is for a command to come of the answers of a matcher. -/
structure Answers (c : Command) (e : Expansion) (matching : Text → List Text) (line : Text) :
    Prop where
  /-- The matcher is asked for the wild arguments, once each and in order. -/
  asked : (parseWith e (recording matching) (Token.ofLine line)).run [] =
    (.ok (some c), ((argumentWords line).filter (·.Wild)).map e.pattern)
  args : c.args = (argumentWords line).flatMap (e.texts matching)
  argQuoting : c.argQuoting =
    (argumentWords line).flatMap fun w => (e.texts matching w).map fun _ => w.isQuoted

/-- The arguments of a line are what its parts have as arguments. -/
theorem filterMap_argument?_eq_argumentWords {line : Text} {first : Word} {rest : List Word}
    (hfault : firstFault? (readable (Token.ofLine line)) = none)
    (hwords : Word.ofTokens (readable (Token.ofLine line)) = first :: rest) :
    (Part.ofWords rest).filterMap Part.argument? = argumentWords line := by
  rw [argumentWords, hwords]
  refine Part.filterMap_argument?_ofWords ?_
  intro w hw
  refine lexed_of_mem hfault ?_
  rw [hwords]
  exact List.mem_cons_of_mem first hw

/-- A matcher is asked for the wild arguments of a line, and what it answers takes their place; to
anything but the arguments it makes no difference which matcher it is. -/
theorem parseLine_asking (e : Expansion) (line : Text) :
    (∀ matching c, parseLine e matching line = .ok (some c) → c.Answers e matching line) ∧
      ∀ first second, Alike (parseLine e first line) (parseLine e second line) := by
  refine ⟨?_, fun first second => parse_alike first second _⟩
  intro matching c h
  have hrun := run_parseWith_recording e matching (Token.ofLine line) []
  have hread : parse e matching (Token.ofLine line) = .ok (some c) := h
  obtain ⟨hfault, first, rest, hwords, rfl⟩ := parse_eq_some_iff.1 h
  have harguments := filterMap_argument?_eq_argumentWords hfault hwords
  refine ⟨?_, ?_, ?_⟩
  · rw [hrun, hread, askedPatterns, hfault, hwords, List.tail_cons, filterMap_pattern?, harguments]
    rfl
  · rw [args, List.filterMap_flatMap, ← harguments, List.filterMap_eq_flatMap_toList,
      List.flatMap_assoc]
    exact List.flatMap_congr fun part _ => filterMap_argument?_ofPart e matching part
  · rw [argQuoting, List.filterMap_flatMap, ← harguments, List.filterMap_eq_flatMap_toList,
      List.flatMap_assoc]
    exact List.flatMap_congr fun part _ => filterMap_quoting?_ofPart e matching part

/-- A line with wildcards in the name, in arguments, in quotes, in a variable and in values. -/
def wildLine : Text := "*l a$V* -o *.y \"*\" =? $V --p = ? --q= *.z -5?".toList

/-- A matcher that finds two paths for one pattern, and none for any other. -/
def twoPaths (pattern : Text) : List Text :=
  if pattern = "a[*]*".toList then ["a*b".toList, "a*c".toList] else []

theorem parseLine_wildLine :
    ∃ c, parseLine ⟨fun _ => some ['*'], [], true⟩ twoPaths wildLine = .ok (some c) ∧
      c.Answers ⟨fun _ => some ['*'], [], true⟩ twoPaths wildLine ∧
      (parseWith ⟨fun _ => some ['*'], [], true⟩ (recording twoPaths) (Token.ofLine wildLine)).run []
        = (.ok (some c), ["a[*]*".toList, "*.y".toList, "=?".toList, "-5?".toList]) ∧
      c.args = ["a*b".toList, "a*c".toList, "*.y".toList, ['*'], "=?".toList, ['*'],
        "-5?".toList] := by
  obtain ⟨c, hread, hargs⟩ : ∃ c,
      parseLine ⟨fun _ => some ['*'], [], true⟩ twoPaths wildLine = .ok (some c) ∧
        c.args = ["a*b".toList, "a*c".toList, "*.y".toList, ['*'], "=?".toList, ['*'],
          "-5?".toList] :=
    ⟨_, by cbv, by cbv⟩
  have hwild : ((argumentWords wildLine).filter (·.Wild)).map
      (Expansion.pattern ⟨fun _ => some ['*'], [], true⟩) =
        ["a[*]*".toList, "*.y".toList, "=?".toList, "-5?".toList] := by
    decide +kernel
  have hanswers := (parseLine_asking ⟨fun _ => some ['*'], [], true⟩ wildLine).1 twoPaths c hread
  refine ⟨c, hread, hanswers, ?_, hargs⟩
  rw [hanswers.asked, hwild]

end Command

end PrefixShell
