import PrefixShell.Proofs.Command.Asking
import PrefixShell.Proofs.Command.TypedWords

/-!
# What follows a `--`

A lone `--` ends the options, and what follows it are arguments, whatever they look like.  Nothing that
stands before it reaches beyond it: an option that still awaits its value does not take the `--` for
it.  So the words before a `--` are sorted as if they were all, and the words after it not at all.

The same holds of lines.  A line, then a `--` between blanks, then any text: its command is that of the
line, with the words of the text for further arguments.

## Main results

* `ofWords_append`: words that begin with an option do not change what is before them.
* `ofWords_append_terminated`: after a `--` more words are more arguments.
* `typedWords?_terminated`: the words of a line, of the `--` and of the text behind it.
* `parseLine_terminated`: the command of a line that goes on after a `--`.
-/

namespace PrefixShell

/-- A list is split at the first element of a kind, if there is one. -/
theorem exists_split_at_first {α : Type} {p : α → Bool} {l : List α} (h : ∃ x ∈ l, p x = true) :
    ∃ before x after, l = before ++ x :: after ∧ p x = true ∧ ∀ y ∈ before, p y = false := by
  obtain ⟨x, hfirst⟩ := Option.isSome_iff_exists.1 (List.find?_isSome.2 h)
  obtain ⟨hx, before, after, hl, hbefore⟩ := List.find?_eq_some_iff_append.1 hfirst
  exact ⟨before, x, after, hl, hx, fun y hy => by simpa using hbefore y hy⟩

namespace Word

variable {w : Word}

theorem isTerminator_singleton_iff :
    isTerminator [w] = true ↔ ∃ t, w = [t] ∧ t.kind = .option ∧ t.literal = ['-', '-'] := by
  match w with
  | [] => simp [isTerminator]
  | [t] => simp [isTerminator]
  | t :: e :: glued => simp [isTerminator]

end Word

namespace Part

/-! ## Words before others -/

theorem begins_equals_of_begins_option {w : Word} (h : begins .option w = true) :
    begins .equals w = false := by
  cases w with
  | nil => rfl
  | cons t w =>
      have ht : t.kind = .option := by simpa [begins] using h
      simp [begins, ht]

/-- An option takes none of the words before it, or some. -/
theorem suffix_of_ofOption {spelling : Text} {glued : Word} {ws left : List Word} {part : Part}
    (h : ofOption spelling glued ws = some (part, left)) : left <:+ ws := by
  have hbound : ∀ option value (vs : List Word), (bound option value vs).2 <:+ vs := by
    intro option value vs
    obtain ⟨taken, hvs, -⟩ := takes_valueAfterEquals value vs
    exact ⟨taken, hvs.symm⟩
  unfold ofOption at h
  split at h
  · cases h
    exact List.suffix_rfl
  · split at h
    · split at h
      · obtain ⟨-, rfl⟩ := Prod.mk.inj (Option.some.inj h)
        exact hbound spelling _ _
      · cases h
    · split at h
      · split at h
        · obtain ⟨-, rfl⟩ := Prod.mk.inj (Option.some.inj h)
          exact (hbound spelling _ _).trans (List.suffix_cons _ _)
        · cases h
          exact List.suffix_rfl
      · cases h
        exact List.suffix_rfl

section Append

variable {tail : List Word} (htail : ∀ w ∈ tail.head?, begins .option w = true)

include htail

/-- An option is no value of another. -/
theorem separateValue_append (ws : List Word) :
    separateValue (ws ++ tail) = ((separateValue ws).1, (separateValue ws).2 ++ tail) := by
  cases ws with
  | nil =>
      cases tail with
      | nil => rfl
      | cons w tail =>
          have hw : begins .option w = true := htail w rfl
          show separateValue (w :: tail) = ([], w :: tail)
          rw [separateValue, hw, Bool.true_or, if_pos rfl]
  | cons w ws =>
      rw [List.cons_append, separateValue, separateValue]
      split <;> rfl

theorem bound_append (option : Text) (glued : Word) (ws : List Word) :
    bound option glued (ws ++ tail) =
      ((bound option glued ws).1, (bound option glued ws).2 ++ tail) := by
  cases glued with
  | nil =>
      simp only [bound, valueAfterEquals, List.isEmpty_nil, if_pos, separateValue_append htail]
  | cons t glued => rfl

/-- An option takes nothing of the words that begin with another option. -/
theorem ofOption_append (spelling : Text) (glued : Word) (ws : List Word) :
    ofOption spelling glued (ws ++ tail) =
      (ofOption spelling glued ws).map fun r => (r.1, r.2 ++ tail) := by
  cases hspelling : splitAtEquals? spelling with
  | some r => simp only [ofOption, hspelling, Option.map_some]
  | none =>
      cases glued with
      | cons t glued =>
          by_cases ht : t.kind = .equals
          · simp [ofOption, hspelling, ht, bound_append htail]
          · simp [ofOption, hspelling, ht]
      | nil =>
          cases ws with
          | nil =>
              have hnext : ∀ w ∈ tail.head?, begins .equals w = false :=
                fun w hw => begins_equals_of_begins_option (htail w hw)
              have hnone : ∀ w ∈ ([] : List Word).head?, begins .equals w = false := by simp
              rw [List.nil_append, ofOption_flag hspelling hnext, ofOption_flag hspelling hnone]
              rfl
          | cons w ws =>
              cases w with
              | nil => simp [ofOption, hspelling]
              | cons t value =>
                  by_cases ht : t.kind = .equals
                  · simp [ofOption, hspelling, ht, bound_append htail]
                  · simp [ofOption, hspelling, ht]

/-- Words that begin with an option are sorted by themselves, if the options before them are not
ended. -/
theorem ofWords_append {ws : List Word} (hopen : ∀ w ∈ ws, Word.isTerminator [w] = false) :
    ofWords (ws ++ tail) = ofWords ws ++ ofWords tail := by
  fun_induction ofWords ws with
  | case1 => rfl
  | case2 ws ih =>
      rw [List.cons_append, ofWords, ih fun w hw => hopen w (List.mem_cons_of_mem _ hw)]
      rfl
  | case3 t glued ws hkind ih =>
      rw [List.cons_append, ofWords_argument hkind,
        ih fun w hw => hopen w (List.mem_cons_of_mem _ hw)]
      rfl
  | case4 t glued ws hkind hend =>
      obtain ⟨hliteral, rfl⟩ := hend
      have hends : Word.isTerminator [[t]] = true :=
        Word.isTerminator_singleton_iff.2 ⟨t, rfl, Decidable.not_not.1 hkind, hliteral⟩
      rw [hopen [t] List.mem_cons_self] at hends
      cases hends
  | case5 t glued ws hkind hend part left h hle ih =>
      have hoption : ofOption t.literal glued (ws ++ tail) = some (part, left ++ tail) := by
        rw [ofOption_append htail, h]
        rfl
      rw [List.cons_append, ofWords_option (Decidable.not_not.1 hkind) hend hoption, ih]
      · rfl
      · exact fun w hw => hopen w (List.mem_cons_of_mem _ ((suffix_of_ofOption h).subset hw))
  | case6 t glued ws hkind hend h ih =>
      have hoption : ofOption t.literal glued (ws ++ tail) = none := by
        rw [ofOption_append htail, h]
        rfl
      rw [List.cons_append, ofWords_glued (Decidable.not_not.1 hkind) hend hoption,
        ih fun w hw => hopen w (List.mem_cons_of_mem _ hw)]
      rfl

end Append

variable {ws : List Word}

/-- A `--` is the end of the options, and what comes after it are arguments. -/
theorem ofWords_append_terminator {t : Token} (hopen : ∀ w ∈ ws, Word.isTerminator [w] = false)
    (hkind : t.kind = .option) (hliteral : t.literal = ['-', '-']) (tail : List Word) :
    ofWords (ws ++ [t] :: tail) = ofWords ws ++ .endOfOptions :: tail.map .positional := by
  have hbegins : ∀ w ∈ ([t] :: tail).head?, begins .option w = true := by
    rintro w ⟨⟩
    simp [begins, hkind]
  rw [ofWords_append hbegins hopen, ofWords_endOfOptions hkind hliteral]

/-- After a `--` more words are more arguments. -/
theorem ofWords_append_terminated (h : ∃ w ∈ ws, Word.isTerminator [w] = true)
    (tail : List Word) : ofWords (ws ++ tail) = ofWords ws ++ tail.map .positional := by
  obtain ⟨before, w, after, rfl, hw, hopen⟩ := exists_split_at_first h
  obtain ⟨t, rfl, hkind, hliteral⟩ := Word.isTerminator_singleton_iff.1 hw
  rw [List.append_assoc, List.cons_append, ofWords_append_terminator hopen hkind hliteral,
    ofWords_append_terminator hopen hkind hliteral, List.map_append, List.append_assoc,
    List.cons_append]

end Part

/-! ## The items of arguments -/

namespace Item

variable (e : Expansion) (matching : Text → List Text) (ws : List Word)

/-- The items that words become as arguments. -/
def ofArguments : List Item :=
  ws.flatMap fun w => (e.texts matching w).map (.argument · w.isQuoted)

theorem flatMap_ofPart_positional :
    (ws.map Part.positional).flatMap (ofPart e matching) = ofArguments e matching ws := by
  rw [List.flatMap_map]
  exact List.flatMap_congr fun w _ => ofPart_positional e matching w

theorem filterMap_argument?_ofArguments :
    (ofArguments e matching ws).filterMap argument? = ws.flatMap (e.texts matching) := by
  rw [ofArguments, List.filterMap_flatMap]
  refine List.flatMap_congr fun w _ => ?_
  rw [List.filterMap_map]
  exact List.filterMap_some

theorem filterMap_quoting?_ofArguments :
    (ofArguments e matching ws).filterMap quoting? =
      ws.flatMap fun w => (e.texts matching w).map fun _ => w.isQuoted := by
  rw [ofArguments, List.filterMap_flatMap]
  refine List.flatMap_congr fun w _ => ?_
  rw [List.filterMap_map]
  exact congrFun List.filterMap_eq_map' _

theorem filterMap_binding?_ofArguments : (ofArguments e matching ws).filterMap binding? = [] := by
  rw [ofArguments, List.filterMap_flatMap]
  refine List.flatMap_eq_nil_iff.2 fun w _ => ?_
  rw [List.filterMap_map]
  exact List.filterMap_eq_nil_iff.2 fun _ _ => rfl

theorem flatMap_flags_ofArguments : (ofArguments e matching ws).flatMap flags = [] := by
  rw [ofArguments, List.flatMap_assoc]
  refine List.flatMap_eq_nil_iff.2 fun w _ => ?_
  rw [List.flatMap_map]
  exact List.flatMap_eq_nil_iff.2 fun _ _ => rfl

theorem map_word_ofArguments :
    (ofArguments e matching ws).map word = ws.flatMap (e.texts matching) := by
  rw [ofArguments, List.map_flatMap]
  refine List.flatMap_congr fun w _ => ?_
  rw [List.map_map]
  exact List.map_id _

end Item

namespace Command

/-! ## Lines -/

/-- The words of a line, of a `--` between blanks and of the text behind it. -/
theorem typedWords?_terminated {s t : Text} {ws : List Word} (hs : typedWords? s = some ws)
    (hline : ∀ x ∈ Lexeme.ofText s, x.kind ≠ .newline) :
    typedWords? (s ++ " -- ".toList ++ t) = (typedWords? t).map fun vs =>
      ws ++ [⟨.option, ['-', '-'], ['-', '-'], .start⟩] :: vs := by
  have hbreaks : Text.Breaks (' ' :: t) := Text.breaks_cons_iff.2 (.inl rfl)
  have hfirst : Lexeme.first '-' ('-' :: ' ' :: t) =
      ⟨⟨.option, ['-', '-'], ['-', '-']⟩, ' ' :: t⟩ :=
    Lexeme.ofDash_long (List.forall_mem_nil _) (.cons (by decide) t)
  have hterminator : typedWords? (" -- ".toList ++ t) =
      (typedWords? t).map ([⟨.option, ['-', '-'], ['-', '-'], .start⟩] :: ·) := by
    show typedWords? (' ' :: '-' :: '-' :: ' ' :: t) = _
    rw [typedWords?_blank rfl, typedWords?_alone hfirst ⟨nofun, nofun⟩ nofun hbreaks,
      typedWords?_blank rfl]
    rfl
  have hblank : Text.Breaks (" -- ".toList ++ t) := Text.breaks_cons_iff.2 (.inl rfl)
  rw [List.append_assoc, typedWords?_append_breaks hs hblank (.inl hline), hterminator,
    Option.map_map]
  rfl

/-- What it is for a command to be another one that goes on, after a `--`, with words for
arguments. -/
structure Continues (d c : Command) (e : Expansion) (matching : Text → List Text)
    (ws : List Word) : Prop where
  name : d.name = c.name
  flags : d.flags = c.flags
  optionNames : d.optionNames = c.optionNames
  option? : ∀ option, d.option? option = c.option? option
  optionValues : ∀ option, d.optionValues option = c.optionValues option
  args : d.args = c.args ++ ws.flatMap (e.texts matching)
  argQuoting : d.argQuoting =
    c.argQuoting ++ ws.flatMap fun w => (e.texts matching w).map fun _ => w.isQuoted
  argv : d.argv = c.argv ++ ['-', '-'] :: ws.flatMap (e.texts matching)

variable {e : Expansion} {matching : Text → List Text}

theorem continues_of_items {c d : Command} {ws : List Word} (hname : d.name = c.name)
    (hitems : d.items = c.items ++ .endOfOptions :: Item.ofArguments e matching ws) :
    d.Continues c e matching ws := by
  have hbindings : d.bindings = c.bindings := by
    rw [bindings, hitems, List.filterMap_append, List.filterMap_cons_none rfl,
      Item.filterMap_binding?_ofArguments, List.append_nil, bindings]
  have hflags : d.items.flatMap Item.flags = c.items.flatMap Item.flags := by
    rw [hitems, List.flatMap_append, List.flatMap_cons, Item.flatMap_flags_ofArguments]
    exact List.append_nil _
  exact {
    name := hname
    flags := congrArg Text.sortedSet hflags
    optionNames := optionNames_congr hbindings
    option? := option?_congr hbindings
    optionValues := optionValues_congr hbindings
    args := by
      rw [args, hitems, List.filterMap_append, List.filterMap_cons_none rfl,
        Item.filterMap_argument?_ofArguments, args]
    argQuoting := by
      rw [argQuoting, hitems, List.filterMap_append, List.filterMap_cons_none rfl,
        Item.filterMap_quoting?_ofArguments, argQuoting]
    argv := by
      rw [argv, hitems, List.map_append, List.map_cons, Item.map_word_ofArguments, argv]
      rfl }

/-- Whatever is typed after a `--` is arguments, and what is typed before it is read as if it were all
of the line. -/
theorem parseLine_terminated {s t : Text} {c : Command}
    (hs : parseLine e matching s = .ok (some c))
    (hline : ∀ x ∈ Token.ofLine s, x.kind ≠ .newline)
    (hopen : ∀ w ∈ (Word.ofTokens (readable (Token.ofLine s))).tail,
      Word.isTerminator [w] = false)
    (ht : ∀ x ∈ readable (Token.ofLine t), x.fault? = none) :
    ∃ d, parseLine e matching (s ++ " -- ".toList ++ t) = .ok (some d) ∧
      d.Continues c e matching (Word.ofTokens (readable (Token.ofLine t))) := by
  obtain ⟨hfault, first, rest, hwords, rfl⟩ := parse_eq_some_iff.1 hs
  have hlexemes : ∀ x ∈ Lexeme.ofText s, x.kind ≠ .newline := by
    intro x hx
    obtain ⟨token, htoken, hkind⟩ := exists_token_of_mem_ofText hx
    exact hkind ▸ hline token htoken
  have hall := typedWords?_terminated (t := t) (typedWords?_of_faultless hfault) hlexemes
  rw [typedWords?_of_faultless (firstFault?_eq_none_iff.2 ht), hwords] at hall
  simp only [hwords, List.tail_cons] at hopen
  generalize Word.ofTokens (readable (Token.ofLine t)) = vs at hall ⊢
  let terminator : Token := ⟨.option, ['-', '-'], ['-', '-'], .start⟩
  have hread : typedWords? (s ++ " -- ".toList ++ t) =
      some ((first :: (rest ++ [terminator] :: vs)).map Word.unplaced) := by
    rw [hall]
    simp [terminator, Token.unplaced]
  have hparse := parseLine_of_words e matching hread
  rw [ofTypedWords_unplaced] at hparse
  refine ⟨_, hparse, continues_of_items rfl ?_⟩
  rw [Part.ofWords_append_terminator hopen rfl rfl, List.flatMap_append, List.flatMap_cons,
    Item.flatMap_ofPart_positional]
  rfl

/-- An option that awaits its value at the end of a line does not take the `--` for it, and what follows
are arguments that look like options. -/
theorem parseLine_terminated_option :
    ∃ d, parseLine ⟨fun _ => none, [], true⟩ (fun _ => [])
        ("cp a --to =".toList ++ " -- ".toList ++ "-x --y=1 = -- \"b c\"".toList) = .ok (some d) ∧
      d.args = [['a'], "-x".toList, "--y=1".toList, ['='], "--".toList, "b c".toList] ∧
      d.option? "--to".toList = some [] := by
  obtain ⟨c, hc, hargs, hoption⟩ : ∃ c,
      parseLine ⟨fun _ => none, [], true⟩ (fun _ => []) "cp a --to =".toList = .ok (some c) ∧
        c.args = [['a']] ∧ c.option? "--to".toList = some [] :=
    ⟨_, by cbv, by cbv, by cbv⟩
  have hwords : (Word.ofTokens (readable (Token.ofLine "-x --y=1 = -- \"b c\"".toList))).flatMap
      (Expansion.texts ⟨fun _ => none, [], true⟩ fun _ => []) =
        ["-x".toList, "--y=1".toList, ['='], "--".toList, "b c".toList] := by
    decide +kernel
  obtain ⟨d, hd, hcontinues⟩ := parseLine_terminated
    (t := "-x --y=1 = -- \"b c\"".toList) hc (by decide +kernel) (by decide +kernel)
    (by decide +kernel)
  refine ⟨d, hd, ?_, ?_⟩
  · rw [hcontinues.args, hargs, hwords]
    rfl
  · rw [hcontinues.option?, hoption]

end Command

end PrefixShell
