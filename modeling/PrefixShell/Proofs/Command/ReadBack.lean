import Mathlib.Data.List.TakeWhile
import PrefixShell.Proofs.Command.Placement
import PrefixShell.Proofs.Command.Rendering

/-!
# What is written is read back

A written command (`Rendering.render`) is read as the command it was made of, whatever the variables
are bound to, whatever the matcher finds and whether or not `~` counts in quotes.

The line goes through the stages of the parser one after another: its words are those of the name
and of the entries (`ofTokens_parted`), none of the entries takes a word from the next one
(`ofWords_entries`), and none of them depends on variables or files (`ofPart_part`).

## Main results

* `ofTokens_parted`: words with blanks between them are told apart.
* `ofWords_entries`: the words of the entries are sorted as what they were written for.
* `parseLine_render`: a written command is read as the items it was made of.
* `parseLine_render_readsBack`: so it has the arguments, options, flags and words it was made of.
-/

namespace PrefixShell

/-! ## Words with blanks between them -/

namespace Word

private theorem splitOnP_parted {b : Token} (hb : b.kind = .blank) (w : Word) (ws : List Word)
    (h : ∀ v ∈ w :: ws, ∀ t ∈ v, decide (t.kind = .blank) = false) :
    (w ++ ws.flatMap (b :: ·)).splitOnP (·.kind = .blank) = w :: ws := by
  have hw := h w List.mem_cons_self
  induction ws generalizing w with
  | nil =>
      rw [List.flatMap_nil, List.append_nil]
      exact List.splitOnP_eq_singleton hw
  | cons v ws ih =>
      have hrest : ∀ u ∈ v :: ws, ∀ t ∈ u, decide (t.kind = .blank) = false :=
        fun u hu => h u (List.mem_cons_of_mem w hu)
      have hv := hrest v List.mem_cons_self
      rw [List.flatMap_cons, List.cons_append,
        List.splitOnP_append_cons_of_forall_mem hw b (decide_eq_true hb), ih v hrest hv]

/-- Words with a blank between them are told apart. -/
theorem ofTokens_parted {b : Token} (hb : b.kind = .blank) (w : Word) (ws : List Word)
    (h : ∀ v ∈ w :: ws, v ≠ [] ∧ ∀ t ∈ v, t.kind ≠ .blank) :
    ofTokens (w ++ ws.flatMap (b :: ·)) = w :: ws := by
  have hsolid : ∀ v ∈ w :: ws, ∀ t ∈ v, decide (t.kind = .blank) = false := by
    intro v hv t ht
    exact decide_eq_false ((h v hv).2 t ht)
  rw [ofTokens, splitOnP_parted hb w ws hsolid, List.filter_eq_self]
  intro v hv
  have hne : v ≠ [] := (h v hv).1
  simp [hne]

end Word

namespace Rendering

/-! ## What the parser makes of each entry -/

namespace Quotation

def word (q : Quotation) : Word := q.lexemes.map (·.at .start)

theorem isQuoted_word (q : Quotation) : q.word.isQuoted = true := rfl

/-- A quotation stands for its text: the first piece of the word is empty, and the second one does
not lead. -/
theorem expand_word (e : Expansion) (q : Quotation) : e.word q.word = q.text := by
  have hempty : (if true && e.tildeInQuotes then e.tilde [] else []) = [] := by
    cases e.tildeInQuotes <;> rfl
  show (if true && e.tildeInQuotes then e.tilde [] else []) ++ (q.text ++ []) = q.text
  rw [hempty, List.nil_append, List.append_nil]

/-- No file is looked up for a quotation. -/
theorem pattern?_word (e : Expansion) (q : Quotation) : e.pattern? q.word = none := by
  rw [Expansion.pattern?, q.isQuoted_word]
  rfl

end Quotation

theorem Spelling.equals_notMem (k : Spelling) : '=' ∉ k.text := by
  intro h
  cases k with
  | long name valid =>
      have hname : '=' ∈ name := by simpa [text] using h
      exact absurd (valid '=' hname) (by decide)
  | short first others valid =>
      have hcluster : '=' ∈ first :: others := by simpa [text] using h
      exact absurd (valid '=' hcluster) (by decide)

/-- The spelling holds no value of its own. -/
theorem Spelling.splitAtEquals?_text (k : Spelling) : Part.splitAtEquals? k.text = none :=
  Part.splitAtEquals?_eq_none k.equals_notMem

/-- A spelling sets the flags that its item sets. -/
theorem Spelling.flagsOf_text (k : Spelling) : Item.flagsOf k.text = k.flags := by
  cases k with
  | long name valid => cases name <;> rfl
  | short first others valid =>
      have hdash : first ≠ '-' :=
        Text.ne_of_isAlphanumeric (valid first List.mem_cons_self) (by decide)
      cases others with
      | nil => simp [text, Item.flagsOf, flags]
      | cons d others => simp [text, Item.flagsOf, flags, hdash]

namespace Entry

/-- The word that an entry is read as. -/
def word (x : Entry) : Word := x.lexemes.map (·.at .start)

/-- The part that its word is. -/
def part : Entry → Part
  | positional q => .positional q.word
  | binding k v => .binding k.text [] v.word
  | flag k _ => .flag k.text

/-- The item of the command that it stands for. -/
def item : Entry → Item
  | positional q => .argument q.text true
  | binding k v => .binding k.text v.text
  | flag k _ => .flag k.text

theorem word_ne_nil (x : Entry) : x.word ≠ [] := by
  cases x <;> exact List.cons_ne_nil _ _

/-- An entry is made of options, equals signs and quoted strings. -/
theorem kind_of_mem_word {x : Entry} {t : Token} (h : t ∈ x.word) :
    t.kind = .option ∨ t.kind = .equals ∨ t.isQuoted = true := by
  have hquotation (q : Quotation) : ∀ y ∈ q.lexemes, (y.at .start).isQuoted = true := by
    simp [Quotation.lexemes, Lexeme.at, Token.isQuoted]
  obtain ⟨y, hy, rfl⟩ := List.mem_map.1 h
  cases x with
  | positional q => exact .inr (.inr (hquotation q y hy))
  | binding k v =>
      rcases List.mem_cons.1 hy with rfl | hy
      · exact .inl rfl
      · rcases List.mem_cons.1 hy with rfl | hy
        · exact .inr (.inl rfl)
        · exact .inr (.inr (hquotation v y hy))
  | flag k valid =>
      rcases List.mem_singleton.1 hy with rfl
      exact .inl rfl

/-- No entry begins with `=`, so that an option before it takes no value from it. -/
theorem begins_equals_word (x : Entry) : Part.begins .equals x.word = false := by
  cases x <;> rfl

end Entry

/-! ## Stage by stage -/

private theorem ofOption_binding (k : Spelling) (v : Quotation) {e : Token} (he : e.kind = .equals)
    (ws : List Word) :
    Part.ofOption k.text (e :: v.word) ws = some (.binding k.text [] v.word, ws) := by
  rw [Part.ofOption_equals k.splitAtEquals?_text he]
  rfl

private theorem ofOption_flag (k : Spelling) (entries : List Entry) :
    Part.ofOption k.text [] (entries.map Entry.word) =
      some (.flag k.text, entries.map Entry.word) := by
  refine Part.ofOption_flag k.splitAtEquals?_text ?_
  intro w hw
  cases entries with
  | nil => cases hw
  | cons x entries =>
      cases hw
      exact x.begins_equals_word

/-- The words of the entries are sorted as what they were written for. -/
theorem ofWords_entries (entries : List Entry) :
    Part.ofWords (entries.map Entry.word) = entries.map Entry.part := by
  induction entries with
  | nil => exact Part.ofWords_nil
  | cons x entries ih =>
      rw [List.map_cons, List.map_cons, ← ih]
      cases x with
      | positional q => exact Part.ofWords_argument TokenKind.noConfusion
      | binding k v =>
          refine Part.ofWords_option rfl ?_ (ofOption_binding k v rfl _)
          rintro ⟨-, hglued⟩
          exact List.cons_ne_nil _ _ hglued
      | flag k valid =>
          refine Part.ofWords_option rfl ?_ (ofOption_flag k entries)
          rintro ⟨hliteral, -⟩
          exact valid hliteral

/-- What an entry stands for depends neither on variables nor on files. -/
theorem ofPart_part (e : Expansion) (matching : Text → List Text) (x : Entry) :
    Item.ofPart e matching x.part = [x.item] := by
  cases x with
  | positional q =>
      rw [Entry.part, Item.ofPart, q.pattern?_word, q.expand_word, q.isQuoted_word]
      rfl
  | binding k v =>
      rw [Entry.part, Item.ofPart, v.expand_word]
      rfl
  | flag k valid => rfl

def Name.word (n : Name) : Word := [n.lexeme.at .start]

/-- A name stands for itself: it is not empty, and no `~` leads it. -/
theorem nameOf_word (e : Expansion) (n : Name) : Command.nameOf e n.word = n.text := by
  have htilde : n.first ≠ '~' :=
    Text.ne_of_isAlphanumeric (n.valid n.first List.mem_cons_self) (by decide)
  have hafter : Expansion.afterTilde? n.text = none := Expansion.afterTilde?_of_ne htilde n.others
  have hword : e.word n.word = n.text := by
    show e.tilde n.text ++ [] = n.text
    rw [Expansion.tilde, hafter, List.append_nil]
  rw [Command.nameOf, hword]
  rfl

/-- The tokens of a written command, without their places: the word of its name, and the words of
its entries, each after a blank. -/
def tokens (name : Name) (entries : List Entry) : List Token :=
  name.word ++ (entries.map Entry.word).flatMap (blank.at .start :: ·)

theorem map_at_ofText_render (name : Name) (entries : List Entry) :
    (Lexeme.ofText (render name entries)).map (·.at .start) = tokens name entries := by
  rw [ofText_render, List.map_cons, List.map_flatMap, tokens, List.flatMap_map]
  rfl

theorem read_tokens (name : Name) (entries : List Entry) :
    ∀ t ∈ tokens name entries, t.endsLine = false ∧ t.fault? = none := by
  intro t ht
  rcases List.mem_append.1 ht with ht | ht
  · rcases List.mem_singleton.1 ht with rfl
    exact ⟨rfl, rfl⟩
  · obtain ⟨w, hw, htw⟩ := List.mem_flatMap.1 ht
    obtain ⟨x, -, rfl⟩ := List.mem_map.1 hw
    rcases List.mem_cons.1 htw with rfl | htx
    · exact ⟨rfl, rfl⟩
    · have hkind := Entry.kind_of_mem_word htx
      obtain ⟨kind, raw, literal, position⟩ := t
      cases kind <;> simp_all [Token.endsLine, Token.fault?, Token.isQuoted]

theorem ofTokens_tokens (name : Name) (entries : List Entry) :
    Word.ofTokens (tokens name entries) = name.word :: entries.map Entry.word := by
  refine Word.ofTokens_parted rfl name.word (entries.map Entry.word) ?_
  intro w hw
  rcases List.mem_cons.1 hw with rfl | hw
  · refine ⟨List.cons_ne_nil _ _, ?_⟩
    intro t ht
    rcases List.mem_singleton.1 ht with rfl
    exact TokenKind.noConfusion
  · obtain ⟨x, -, rfl⟩ := List.mem_map.1 hw
    refine ⟨x.word_ne_nil, ?_⟩
    intro t ht hblank
    have hkind := Entry.kind_of_mem_word ht
    simp [hblank, Token.isQuoted] at hkind

/-- The command that a written line is read as. -/
def command (name : Name) (entries : List Entry) : Command :=
  { name := name.text, items := entries.map Entry.item, rawInput := render name entries }

/-- A written command is read as the items it was made of. -/
theorem parseLine_render (e : Expansion) (matching : Text → List Text) (name : Name)
    (entries : List Entry) :
    Command.parseLine e matching (render name entries) = .ok (some (command name entries)) := by
  have hparts : (entries.map Entry.part).flatMap (Item.ofPart e matching) =
      entries.map Entry.item := by
    induction entries with
    | nil => rfl
    | cons x entries ih =>
        rw [List.map_cons, List.flatMap_cons, ih, ofPart_part]
        rfl
  rw [Command.parseLine_of_lexemes e matching (map_at_ofText_render name entries)
    (read_tokens name entries) (ofTokens_tokens name entries), ofWords_entries, hparts, nameOf_word]
  rfl

example :
    (Command.parseLine ⟨fun _ => none, ['/'], true⟩ (fun _ => [])
        "run \"\"\"a \\\"b\\\"\" -vx --key=\"\"'~/$x'".toList).toOption =
      some (some {
        name := "run".toList
        items := [.argument "a \"b\"".toList true, .flag "-vx".toList,
          .binding "--key".toList "~/$x".toList]
        rawInput := "run \"\"\"a \\\"b\\\"\" -vx --key=\"\"'~/$x'".toList }) := by
  cbv

/-! ## What is asked of the command -/

namespace Entry

def positional? : Entry → Option Text
  | positional q => some q.text
  | _ => none

/-- The value that an entry binds to an option. -/
def valueFor? (option : Text) : Entry → Option Text
  | binding k v => if k.text = option then some v.text else none
  | _ => none

def flags : Entry → List Text
  | flag k _ => k.flags
  | _ => []

/-- The word that is handed to a program. -/
def handed : Entry → Text
  | positional q => q.text
  | binding k v => k.text ++ '=' :: v.text
  | flag k _ => k.text

end Entry

/-- The values bound to an option, oldest first. -/
def values (entries : List Entry) (option : Text) : List Text :=
  entries.filterMap (Entry.valueFor? option)

section Views

variable (name : Name) (entries : List Entry)

theorem args_command : (command name entries).args = entries.filterMap Entry.positional? := by
  rw [Command.args, command, List.filterMap_map]
  congr 1
  funext x
  cases x <;> rfl

theorem argQuoting_command :
    (command name entries).argQuoting = (command name entries).args.map fun _ => true := by
  rw [Command.argQuoting, Command.args, command, List.filterMap_map, List.filterMap_map,
    List.map_filterMap]
  congr 1
  funext x
  cases x <;> rfl

theorem optionValues_command (option : Text) :
    (command name entries).optionValues option = values entries option := by
  rw [Command.optionValues, Command.bindings, command, values, List.filterMap_map]
  induction entries with
  | nil => rfl
  | cons x entries ih =>
      cases x with
      | positional q => exact ih
      | flag k valid => exact ih
      | binding k v =>
          by_cases h : k.text = option
          · simp [Entry.item, Item.binding?, Entry.valueFor?, h, ih]
          · simp [Entry.item, Item.binding?, Entry.valueFor?, h, ih]

theorem mem_flags_command (flag : Text) :
    flag ∈ (command name entries).flags ↔ ∃ x ∈ entries, flag ∈ x.flags := by
  have hflags (x : Entry) : x.item.flags = x.flags := by
    cases x with
    | positional q => rfl
    | binding k v => rfl
    | flag k valid => exact k.flagsOf_text
  rw [Command.flags, Text.mem_sortedSet, command, List.flatMap_map, List.mem_flatMap]
  simp only [hflags]

theorem argv_command : (command name entries).argv = entries.map Entry.handed := by
  rw [Command.argv, command, List.map_map]
  refine List.map_congr_left ?_
  intro x _
  cases x <;> rfl

end Views

/-- What it is for a command to be the one that was written. -/
structure ReadsBack (c : Command) (name : Name) (entries : List Entry) : Prop where
  name_eq : c.name = name.text
  resolved : c.resolved = none
  args : c.args = entries.filterMap Entry.positional?
  /-- Every argument counts as quoted. -/
  argQuoting : c.argQuoting = c.args.map fun _ => true
  optionValues : ∀ option, c.optionValues option = values entries option
  /-- An option has the value bound to it last, if any is. -/
  option? : ∀ option, c.option? option = (values entries option).getLast?
  optionNames : ∀ option, option ∈ c.optionNames ↔ values entries option ≠ []
  flags : ∀ flag, flag ∈ c.flags ↔ ∃ x ∈ entries, flag ∈ x.flags
  argv : c.argv = entries.map Entry.handed
  rawInput : c.rawInput = render name entries

theorem command_readsBack (name : Name) (entries : List Entry) :
    ReadsBack (command name entries) name entries where
  name_eq := rfl
  resolved := rfl
  args := args_command name entries
  argQuoting := argQuoting_command name entries
  optionValues := optionValues_command name entries
  option? := by
    intro option
    rw [Command.option?_eq_getLast?, optionValues_command]
  optionNames := by
    intro option
    rw [Command.mem_optionNames, optionValues_command]
  flags := mem_flags_command name entries
  argv := argv_command name entries
  rawInput := rfl

/-- A written command is read back, whatever variables and files there are. -/
theorem parseLine_render_readsBack (e : Expansion) (matching : Text → List Text) (name : Name)
    (entries : List Entry) :
    ∃ c, Command.parseLine e matching (render name entries) = .ok (some c) ∧
      ReadsBack c name entries := by
  refine ⟨command name entries, ?_, ?_⟩
  · exact parseLine_render e matching name entries
  · exact command_readsBack name entries

end Rendering

end PrefixShell
