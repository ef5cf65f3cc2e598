import PrefixShell.Command.Parse

/-!
# The shape of a command

Two readings of one line, with different values for its variables, differ in texts alone.  How many
arguments and words there are, which of them are quoted, which flags are set and to which options
something is bound, all this is in the line itself.

The outline of an item is the item without the text of its value.  It keeps what makes up the shape
of a command (`sameShape_of_outline`) and does not depend on what words stand for
(`outline_plain`).

## Main results

* `ofPart_unmatched`: where nothing matches, a part becomes one item.
* `sameShape_of_outline`: items with the same outlines make commands of the same shape.
* `parseLine_sameOutcome`: a line has one outcome, up to texts, whatever its variables stand for.
-/

namespace PrefixShell

namespace Item

/-- The item that a part becomes where no path matches it. -/
def plain (e : Expansion) : Part → Item
  | .positional w => .argument (e.word w) w.isQuoted
  | .binding option typed value => .binding option (typed ++ e.word value)
  | .flag spelling => .flag spelling
  | .endOfOptions => .endOfOptions

theorem ofPart_unmatched (e : Expansion) (part : Part) :
    ofPart e (fun _ => []) part = [plain e part] := by
  cases part with
  | positional w =>
      rw [ofPart]
      cases e.pattern? w <;> rfl
  | binding | flag | endOfOptions => rfl

theorem flatMap_ofPart_unmatched (e : Expansion) (parts : List Part) :
    parts.flatMap (ofPart e fun _ => []) = parts.map (plain e) := by
  induction parts with
  | nil => rfl
  | cons part parts ih =>
      rw [List.flatMap_cons, ih, ofPart_unmatched]
      rfl

/-! ## Outlines -/

/-- An item without the text of its value. -/
def outline : Item → Item
  | argument _ quoted => argument [] quoted
  | binding option _ => binding option []
  | flag spelling => flag spelling
  | endOfOptions => endOfOptions

/-- The outline of an item does not depend on what words stand for. -/
theorem outline_plain (e₁ e₂ : Expansion) (part : Part) :
    (plain e₁ part).outline = (plain e₂ part).outline := by
  cases part <;> rfl

theorem flags_outline (i : Item) : i.outline.flags = i.flags := by
  cases i <;> rfl

theorem quoting?_outline (i : Item) : i.outline.quoting? = i.quoting? := by
  cases i <;> rfl

theorem option_outline (i : Item) :
    i.outline.binding?.map (·.1) = i.binding?.map (·.1) := by
  cases i <;> rfl

end Item

namespace Command

/-! ## Shapes -/

/-- Two commands that differ at most in the texts of their names, arguments, option values and
words. -/
structure SameShape (c d : Command) : Prop where
  flags : c.flags = d.flags
  optionNames : c.optionNames = d.optionNames
  optionValues : ∀ option, (c.optionValues option).length = (d.optionValues option).length
  argQuoting : c.argQuoting = d.argQuoting
  args : c.args.length = d.args.length
  argv : c.argv.length = d.argv.length
  resolved : c.resolved = d.resolved
  rawInput : c.rawInput = d.rawInput

/-- Items with the same outlines make commands of the same shape. -/
theorem sameShape_of_outline {c d : Command}
    (hitems : c.items.map Item.outline = d.items.map Item.outline)
    (hresolved : c.resolved = d.resolved) (hraw : c.rawInput = d.rawInput) : SameShape c d := by
  have hflags : c.items.flatMap Item.flags = d.items.flatMap Item.flags := by
    have h := congrArg (List.flatMap Item.flags) hitems
    simpa only [List.flatMap_map, Item.flags_outline] using h
  have hoptions : c.bindings.map (·.1) = d.bindings.map (·.1) := by
    have h := congrArg (List.filterMap fun i => i.binding?.map (·.1)) hitems
    simpa only [List.filterMap_map, Function.comp_def, Item.option_outline, bindings,
      List.map_filterMap] using h
  have hquoting : c.argQuoting = d.argQuoting := by
    have h := congrArg (List.filterMap Item.quoting?) hitems
    simpa only [List.filterMap_map, Function.comp_def, Item.quoting?_outline, argQuoting] using h
  exact
    { flags := congrArg Text.sortedSet hflags
      optionNames := congrArg Text.sortedSet hoptions
      optionValues := fun option => by
        rw [length_optionValues, length_optionValues, hoptions]
      argQuoting := hquoting
      args := by
        rw [← length_argQuoting, ← length_argQuoting, hquoting]
      argv := by
        have h := congrArg List.length hitems
        simpa only [argv, List.length_map] using h
      resolved := hresolved
      rawInput := hraw }

/-! ## Two readings of one line -/

/-- Two readings that come to the same, up to the texts in a command. -/
inductive SameOutcome :
    Except ShellError (Option Command) → Except ShellError (Option Command) → Prop
  | refused (error : ShellError) : SameOutcome (.error error) (.error error)
  | blank : SameOutcome (.ok none) (.ok none)
  | command {c d : Command} (h : SameShape c d) : SameOutcome (.ok (some c)) (.ok (some d))

/-- What words stand for makes no difference to what tokens come to, up to texts. -/
theorem parse_sameOutcome (e₁ e₂ : Expansion) (ts : List Token) :
    SameOutcome (parse e₁ (fun _ => []) ts) (parse e₂ (fun _ => []) ts) := by
  unfold parse
  cases firstFault? (readable ts) with
  | some error => exact .refused error
  | none =>
      cases Word.ofTokens (readable ts) with
      | nil => exact .blank
      | cons first rest =>
          refine .command (sameShape_of_outline ?_ rfl rfl)
          simp only [Item.flatMap_ofPart_unmatched, List.map_map]
          exact List.map_congr_left fun part _ => Item.outline_plain e₁ e₂ part

/-- A line has one outcome, up to texts, whatever its variables stand for. -/
theorem parseLine_sameOutcome (e₁ e₂ : Expansion) (line : Text) :
    SameOutcome (parseLine e₁ (fun _ => []) line) (parseLine e₂ (fun _ => []) line) :=
  parse_sameOutcome e₁ e₂ (Token.ofLine line)

end Command

end PrefixShell
