import PrefixShell.Proofs.Command.BareWord
import PrefixShell.Proofs.Command.ReadBack
import PrefixShell.Proofs.Command.Shape

/-!
# Bare lines

A line without quotes, variables, `=` and `~` is read as its words say, one by one.  The first is the
name, and each of the others is a flag word, the `--` after which there are no flags, or an argument.
Which of them a word is can be told from its text: the lexer may have cut it, but what it cut has been
put together again.

## Main results

* `Text.isFlagWord_iff`: a flag word is the spelling of an option.
* `Part.ofWords_flagWord`, `Part.ofWords_end`, `Part.ofWords_other`: how a bare word is sorted.
* `Item.map_plain_ofWords`: what becomes of the words can be told from their texts.
* `parseLine_bare`: a bare line is split at its blanks.
-/

namespace PrefixShell

/-! ## Flag words -/

namespace Text

/-- Whether a word sets flags: a `--` with letters, digits, `_` and `-` after it, or a `-` with letters
and digits. -/
def isFlagWord : Text → Bool
  | '-' :: '-' :: name => !name.isEmpty && name.all Lexeme.isLongOptionChar
  | '-' :: cluster => !cluster.isEmpty && cluster.all isAlphanumeric
  | _ => false

/-- The flags that a flag word sets: after a single `-`, each character is one. -/
def flagsOfWord : Text → List Text
  | '-' :: '-' :: name => ['-' :: '-' :: name]
  | '-' :: cluster => cluster.map (['-', ·])
  | _ => []

/-- A flag word is the spelling of an option. -/
theorem isFlagWord_iff {w : Text} :
    w.isFlagWord = true ↔ w ≠ ['-', '-'] ∧ ∃ k : Rendering.Spelling, k.text = w := by
  constructor
  · intro h
    unfold isFlagWord at h
    split at h
    · simp only [Bool.and_eq_true, Bool.not_eq_true', List.isEmpty_eq_false_iff, List.all_eq_true]
        at h
      exact ⟨by simpa using h.1, .long _ h.2, rfl⟩
    · rename_i cluster hlong
      simp only [Bool.and_eq_true, Bool.not_eq_true', List.isEmpty_eq_false_iff, List.all_eq_true]
        at h
      obtain ⟨c, others, rfl⟩ := List.exists_cons_of_ne_nil h.1
      refine ⟨?_, .short c others h.2, rfl⟩
      intro hend
      exact hlong [] (List.cons.inj hend).2
    · cases h
  · rintro ⟨hend, k, rfl⟩
    cases k with
    | long name valid =>
        have hname : name ≠ [] := by
          rintro rfl
          exact hend rfl
        simpa [Rendering.Spelling.text, isFlagWord, hname] using valid
    | short c others valid =>
        have hdash : c ≠ '-' := ne_of_isAlphanumeric (valid c List.mem_cons_self) (by decide)
        simpa [Rendering.Spelling.text, isFlagWord, hdash] using valid

theorem flagsOfWord_text (k : Rendering.Spelling) : flagsOfWord k.text = k.flags := by
  cases k with
  | long name valid => rfl
  | short c others valid =>
      have hdash : c ≠ '-' := ne_of_isAlphanumeric (valid c List.mem_cons_self) (by decide)
      simp [Rendering.Spelling.text, flagsOfWord, Rendering.Spelling.flags, hdash]

end Text

/-! ## Sorting bare words -/

namespace Lexeme

variable {c : Char} {s : Text}

/-- An option is the spelling of one. -/
theorem exists_spelling (hc : endsWord c = false) (h : (first c s).lexeme.kind = .option) :
    ∃ k : Rendering.Spelling, k.text = (first c s).lexeme.raw := by
  by_cases hdash : c = '-'
  · subst hdash
    rw [first_dash] at h ⊢
    cases s with
    | nil => cases h
    | cons d s =>
        by_cases hlong : d = '-'
        · subst hlong
          exact ⟨.long (s.takeWhile isLongOptionChar) fun _ => List.mem_takeWhile_imp, rfl⟩
        · cases hd : Text.isAlphanumeric d with
          | true =>
              rw [ofDash_short hd]
              refine ⟨.short d (s.takeWhile Text.isAlphanumeric) ?_, rfl⟩
              exact List.forall_mem_cons.2 ⟨hd, fun _ => List.mem_takeWhile_imp⟩
          | false =>
              rw [ofDash_lone hlong hd] at h
              cases h
  · rw [first_word hc hdash] at h
    cases h

end Lexeme

namespace Part

variable {w : Text} {ws : List Text}

theorem ofText_spelling (k : Rendering.Spelling) : Word.ofText k.text = [k.lexeme.at .start] := by
  have hlexemes := k.ofText_text (Text.Stops.nil Lexeme.isLongOptionChar)
  rw [List.append_nil, Lexeme.ofText_nil] at hlexemes
  rw [Word.ofText, hlexemes]
  rfl

/-- No bare word begins with `=`. -/
theorem begins_equals_ofText (hw : ∀ d ∈ w, Lexeme.endsWord d = false) :
    begins .equals (Word.ofText w) = false := by
  have hkind := Word.kind_of_bare hw
  cases h : Word.ofText w with
  | nil => rfl
  | cons t glued =>
      rw [h] at hkind
      rcases hkind t List.mem_cons_self with ht | ht <;> simp [begins, ht]

theorem ofOption_glued {spelling : Text} {t : Token} {glued : Word} {ws : List Word}
    (hspelling : splitAtEquals? spelling = none) (ht : t.kind ≠ .equals) :
    ofOption spelling (t :: glued) ws = none := by
  simp only [ofOption, hspelling, if_neg ht]

theorem ofWords_flagWord (hflag : w.isFlagWord = true)
    (hws : ∀ v ∈ ws, ∀ d ∈ v, Lexeme.endsWord d = false) :
    ofWords (Word.ofText w :: ws.map Word.ofText) = .flag w :: ofWords (ws.map Word.ofText) := by
  obtain ⟨hend, k, rfl⟩ := Text.isFlagWord_iff.1 hflag
  rw [ofText_spelling]
  refine ofWords_option rfl (fun h => hend h.1) (ofOption_flag k.splitAtEquals?_text ?_)
  intro v hv
  rw [List.head?_map] at hv
  obtain ⟨u, hu, rfl⟩ := Option.map_eq_some_iff.1 hv
  exact begins_equals_ofText (hws u (List.mem_of_mem_head? hu))

theorem ofWords_end (ws : List Word) :
    ofWords (Word.ofText ['-', '-'] :: ws) = .endOfOptions :: ws.map .positional := by
  have hend : Word.ofText ['-', '-'] = [_] := ofText_spelling (.long [] (by simp))
  rw [hend]
  exact ofWords_endOfOptions rfl rfl

/-- Whatever else begins with `-` is cut, and for that reason an argument. -/
theorem ofWords_other (hne : w ≠ []) (hw : ∀ d ∈ w, Lexeme.endsWord d = false)
    (hflag : w.isFlagWord = false) (hend : w ≠ ['-', '-']) (ws : List Word) :
    ofWords (Word.ofText w :: ws) = .positional (Word.ofText w) :: ofWords ws := by
  obtain ⟨c, s, rfl⟩ := List.exists_cons_of_ne_nil hne
  have hkind := Word.kind_of_bare hw
  have hsplit : Word.ofText (c :: s) =
      (Lexeme.first c s).lexeme.at .start :: Word.ofText (Lexeme.first c s).rest := by
    rw [Word.ofText, Lexeme.ofText_cons]
    rfl
  rw [hsplit] at hkind ⊢
  by_cases hoption : (Lexeme.first c s).lexeme.kind = .option
  · obtain ⟨k, hk⟩ := Lexeme.exists_spelling (hw c List.mem_cons_self) hoption
    have hliteral : (Lexeme.first c s).lexeme.literal = k.text :=
      (Lexeme.first_literal (hw c List.mem_cons_self) s).literal_eq.trans hk.symm
    cases hglued : Word.ofText (Lexeme.first c s).rest with
    | nil =>
        -- Nothing is left of the word, so that it is a flag word after all.
        have hrest : (Lexeme.first c s).rest = [] :=
          Lexeme.ofText_eq_nil_iff.1 (List.map_eq_nil_iff.1 hglued)
        have hall := Lexeme.first_raw_append_rest c s
        rw [hrest, List.append_nil, ← hk] at hall
        rw [Text.isFlagWord_iff.2 ⟨hend, k, hall⟩] at hflag
        cases hflag
    | cons t glued =>
        rw [hglued] at hkind
        have ht : t.kind ≠ .equals := by
          rcases hkind t (List.mem_cons_of_mem _ List.mem_cons_self) with ht | ht <;> simp [ht]
        refine ofWords_glued hoption (fun h => List.cons_ne_nil _ _ h.2) (ofOption_glued ?_ ht)
        show splitAtEquals? (Lexeme.first c s).lexeme.literal = none
        rw [hliteral]
        exact k.splitAtEquals?_text
  · exact ofWords_argument hoption

end Part

/-! ## The items -/

/-- A bare word that stands for itself: no `~` in front of it means the home directory. -/
structure Text.Verbatim (w : Text) : Prop where
  ne_nil : w ≠ []
  endsWord : ∀ c ∈ w, Lexeme.endsWord c = false
  afterTilde? : Expansion.afterTilde? w = none

namespace Item

/-- The items that words after the name of a command stand for. -/
def ofTexts : List Text → List Item
  | [] => []
  | w :: ws =>
    if w = ['-', '-'] then .endOfOptions :: ws.map (.argument · false)
    else if w.isFlagWord then .flag w :: ofTexts ws
    else .argument w false :: ofTexts ws

variable {w : Text} {ws : List Text}

theorem plain_positional (e : Expansion) (hw : w.Verbatim) :
    plain e (.positional (Word.ofText w)) = .argument w false := by
  have hquoted : (Word.ofText w).isQuoted = false := by
    rw [Word.isQuoted, List.any_eq_false]
    intro t ht
    rcases Word.kind_of_bare hw.endsWord t ht with hkind | hkind <;> simp [Token.isQuoted, hkind]
  rw [plain, Word.expand_ofText e hw.endsWord hw.afterTilde?, hquoted]

/-- What becomes of the words after the name can be told from their texts. -/
theorem map_plain_ofWords (e : Expansion) (hws : ∀ w ∈ ws, w.Verbatim) :
    (Part.ofWords (ws.map Word.ofText)).map (plain e) = ofTexts ws := by
  induction ws with
  | nil =>
      rw [List.map_nil, Part.ofWords_nil]
      rfl
  | cons w ws ih =>
      obtain ⟨hw, hrest⟩ := List.forall_mem_cons.1 hws
      rw [List.map_cons, ofTexts, ← ih hrest]
      by_cases hend : w = ['-', '-']
      · rw [if_pos hend, hend, Part.ofWords_end, List.map_cons, List.map_map, List.map_map]
        refine congrArg (Item.endOfOptions :: ·) (List.map_congr_left ?_)
        intro v hv
        exact plain_positional e (hrest v hv)
      · rw [if_neg hend]
        cases hflag : w.isFlagWord with
        | true =>
            rw [Part.ofWords_flagWord hflag fun v hv => (hrest v hv).endsWord]
            rfl
        | false =>
            rw [Part.ofWords_other hw.ne_nil hw.endsWord hflag hend, List.map_cons,
              plain_positional e hw]
            rfl

end Item

namespace Command

/-- The words after the name up to the first `--`: those that may be flag words. -/
def optionWords (ws : List Text) : List Text := ws.takeWhile (· ≠ ['-', '-'])

/-- The words after the first `--`. -/
def lastWords (ws : List Text) : List Text := (ws.dropWhile (· ≠ ['-', '-'])).tail

section Views

variable (ws : List Text)

theorem map_word_ofTexts : (Item.ofTexts ws).map Item.word = ws := by
  fun_induction Item.ofTexts ws with
  | case1 => rfl
  | case2 ws =>
      rw [List.map_cons, List.map_map]
      exact congrArg (['-', '-'] :: ·) (List.map_id ws)
  | case3 w ws _ _ ih => exact congrArg (w :: ·) ih
  | case4 w ws _ _ ih => exact congrArg (w :: ·) ih

theorem binding?_ofTexts : (Item.ofTexts ws).filterMap Item.binding? = [] := by
  fun_induction Item.ofTexts ws with
  | case1 => rfl
  | case2 ws => simp [Item.binding?]
  | case3 w ws _ _ ih => exact ih
  | case4 w ws _ _ ih => exact ih

theorem argument?_ofTexts :
    (Item.ofTexts ws).filterMap Item.argument? =
      (optionWords ws).filter (!·.isFlagWord) ++ lastWords ws := by
  fun_induction Item.ofTexts ws with
  | case1 => rfl
  | case2 ws =>
      show (ws.map (Item.argument · false)).filterMap Item.argument? = _
      rw [List.filterMap_map]
      exact List.filterMap_some.trans (by simp [optionWords, lastWords])
  | case3 w ws hend hflag ih =>
      simpa [List.filterMap_cons, Item.argument?, optionWords, lastWords, hend, hflag] using ih
  | case4 w ws hend hflag ih =>
      simpa [Item.argument?, optionWords, lastWords, hend, hflag] using ih

theorem quoting?_ofTexts :
    (Item.ofTexts ws).filterMap Item.quoting? =
      ((Item.ofTexts ws).filterMap Item.argument?).map fun _ => false := by
  fun_induction Item.ofTexts ws with
  | case1 => rfl
  | case2 ws =>
      show (ws.map (Item.argument · false)).filterMap Item.quoting? =
        ((ws.map (Item.argument · false)).filterMap Item.argument?).map fun _ => false
      rw [List.map_filterMap, List.filterMap_map, List.filterMap_map]
      rfl
  | case3 w ws _ _ ih => exact ih
  | case4 w ws _ _ ih => exact congrArg (false :: ·) ih

theorem flags_ofTexts :
    (Item.ofTexts ws).flatMap Item.flags =
      ((optionWords ws).filter Text.isFlagWord).flatMap Text.flagsOfWord := by
  fun_induction Item.ofTexts ws with
  | case1 => rfl
  | case2 ws => simp [Item.flags, optionWords]
  | case3 w ws hend hflag ih =>
      obtain ⟨-, k, rfl⟩ := Text.isFlagWord_iff.1 hflag
      have hflags : (Item.flag k.text).flags = Text.flagsOfWord k.text :=
        k.flagsOf_text.trans (Text.flagsOfWord_text k).symm
      simpa [optionWords, hend, hflag, hflags] using ih
  | case4 w ws hend hflag ih =>
      simpa [Item.flags, optionWords, hend, hflag] using ih

end Views

/-- What it is for a command to be a line split at its blanks. -/
structure SplitsFrom (c : Command) (line : Text) : Prop where
  /-- The name is the first word of the line, and the words handed to a program are the others. -/
  words_eq : line.words = c.name :: c.argv
  args : c.args = (optionWords c.argv).filter (!·.isFlagWord) ++ lastWords c.argv
  flags : c.flags =
    Text.sortedSet (((optionWords c.argv).filter Text.isFlagWord).flatMap Text.flagsOfWord)
  bindings : c.bindings = []
  optionNames : c.optionNames = []
  option? : ∀ option, c.option? option = none ∧ c.optionValues option = []
  argQuoting : c.argQuoting = c.args.map fun _ => false
  resolved : c.resolved = none
  rawInput : c.rawInput = line

theorem splitsFrom_of_ofTexts {line first : Text} {others : List Text}
    (hwords : line.words = first :: others) :
    SplitsFrom { name := first, items := Item.ofTexts others, rawInput := line } line where
  words_eq := by
    rw [hwords]
    exact congrArg (first :: ·) (map_word_ofTexts others).symm
  args := by
    rw [args, argv, map_word_ofTexts]
    exact argument?_ofTexts others
  flags := by
    rw [flags, argv, map_word_ofTexts]
    exact congrArg Text.sortedSet (flags_ofTexts others)
  bindings := binding?_ofTexts others
  optionNames := by
    refine List.eq_nil_iff_forall_not_mem.2 fun option hoption => mem_optionNames.1 hoption ?_
    rw [optionValues, bindings, binding?_ofTexts]
    rfl
  option? := by
    intro option
    rw [option?, optionValues, bindings, binding?_ofTexts]
    exact ⟨rfl, rfl⟩
  argQuoting := quoting?_ofTexts others
  resolved := rfl
  rawInput := rfl

/-- A line that is not blank and in which nothing is quoted, nothing is a variable, nothing is bound
and no word leads to the home directory is split at its blanks, if no wildcards match. -/
theorem parseLine_bare (e : Expansion) {line : Text}
    (hblank : ∃ c ∈ line, Lexeme.isBlank c = false) (hbare : line.Bare)
    (htilde : ∀ w ∈ line.words, w ≠ ['~'] ∧ ¬['~', '/'] <+: w) :
    ∃ c, parseLine e (fun _ => []) line = .ok (some c) ∧ c.SplitsFrom line := by
  have hverbatim : ∀ w ∈ line.words, w.Verbatim := by
    intro w hw
    obtain ⟨hne, hmem⟩ := Text.mem_words w hw
    refine ⟨hne, ?_, Word.afterTilde?_eq_none (htilde w hw).1 (htilde w hw).2⟩
    intro c hc
    rw [hbare.endsWord_eq (hmem c hc).1, (hmem c hc).2]
  have hne : line.words ≠ [] := by
    intro hwords
    obtain ⟨c, hc, hsolid⟩ := hblank
    rw [Text.words_eq_nil_iff.1 hwords c hc] at hsolid
    cases hsolid
  obtain ⟨first, others, hwords⟩ := List.exists_cons_of_ne_nil hne
  rw [hwords] at hverbatim
  obtain ⟨hfirst, hothers⟩ := List.forall_mem_cons.1 hverbatim
  have htokens : Word.ofTokens (Word.ofText line) = Word.ofText first :: others.map Word.ofText := by
    rw [Word.ofTokens_ofText hbare, hwords]
    rfl
  have hread : ∀ t ∈ Word.ofText line, t.endsLine = false ∧ t.fault? = none := by
    intro t ht
    obtain ⟨x, hx, rfl⟩ := List.mem_map.1 ht
    rcases Lexeme.literal_of_bare_text hbare x hx with hkind | ⟨hkind | hkind, -⟩ <;>
      simp [Lexeme.at, Token.endsLine, Token.fault?, hkind]
  have hname : nameOf e (Word.ofText first) = first := by
    rw [nameOf, Word.expand_ofText e hfirst.endsWord hfirst.afterTilde?,
      if_neg (by simpa using hfirst.ne_nil)]
  refine ⟨_, parseLine_of_lexemes e (fun _ => []) rfl hread htokens, ?_⟩
  rw [hname, Item.flatMap_ofPart_unmatched, Item.map_plain_ofWords e hothers]
  exact splitsFrom_of_ofTexts hwords

/-- Of words that begin with `-`, some are cut by the lexer and some are not. -/
theorem parseLine_ls :
    ∃ c, parseLine ⟨fun _ => none, [], true⟩ (fun _ => [])
        "ls\t-al --x.y --- -1.5 -a-b  ~x -- -b".toList = .ok (some c) ∧
      c.SplitsFrom "ls\t-al --x.y --- -1.5 -a-b  ~x -- -b".toList ∧ c.name = "ls".toList ∧
      c.args = ["--x.y".toList, "-1.5".toList, "-a-b".toList, "~x".toList, "-b".toList] ∧
      c.flags = ["---".toList, "-a".toList, "-l".toList] := by
  have hbare : Text.Bare "ls\t-al --x.y --- -1.5 -a-b  ~x -- -b".toList := by
    simp [Text.Bare]
  have hwords : Text.words "ls\t-al --x.y --- -1.5 -a-b  ~x -- -b".toList =
      ["ls".toList, "-al".toList, "--x.y".toList, "---".toList, "-1.5".toList, "-a-b".toList,
        "~x".toList, "--".toList, "-b".toList] := by
    decide
  have htilde : ∀ w ∈ Text.words "ls\t-al --x.y --- -1.5 -a-b  ~x -- -b".toList,
      w ≠ ['~'] ∧ ¬['~', '/'] <+: w := by
    rw [hwords]
    decide
  obtain ⟨c, hparse, hsplits⟩ :=
    parseLine_bare ⟨fun _ => none, [], true⟩ ⟨'l', by decide, by decide⟩ hbare htilde
  have hall := hsplits.words_eq
  rw [hwords] at hall
  obtain ⟨hname, hargv⟩ := List.cons.inj hall
  refine ⟨c, hparse, hsplits, hname.symm, ?_, ?_⟩
  · rw [hsplits.args, ← hargv]
    decide
  · rw [hsplits.flags, ← hargv]
    cbv

end Command

end PrefixShell
