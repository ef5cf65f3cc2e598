import PrefixShell.Proofs.Command.BareLine
import PrefixShell.Proofs.Command.TypedWords

/-!
# A value of its own

An option that ends in a `=` takes the next word for its value, and there are two ways to say which
words it may not take.  As an argument by itself, a word is told from an option by its first two tokens:
an option that something other than a `=` is glued to is none.  As a value it is told by the first token
alone.  So `-1.5`, which the lexer cuts into the option `-1` and the word `.5`, is an argument but no
value.  These words, which only look like options, are the only ones on which the two ways differ.

## Main results

* `typedWords?_word_append`: a word in front of a blank is the first of a line.
* `isArgument_iff`: an argument begins with no option, or it looks like an option and is none.
* `bound_argument`, `bound_other`: which words are taken for a value.
* `parseLine_separateValue`: what an option does with the word after its `=`.
* `unbound_number`: an argument that is not taken for a value.
-/

namespace PrefixShell

/-- A text that is one word. -/
structure Text.IsWord (t : Text) : Prop where
  ne_nil : t ≠ []
  solid : ∀ x ∈ Lexeme.ofText t, x.Solid
  faultless : ∀ x ∈ Lexeme.ofText t, ∀ cause, x.kind ≠ .fault cause

namespace Lexeme

/-- Nothing but the character `=` begins a `=`. -/
theorem eq_of_first_kind_eq_equals {c : Char} {t : Text}
    (h : (first c t).lexeme.kind = .equals) : c = '=' := by
  revert h
  have hquoted (quote : Quote) (opening : Char) (b : Body) :
      (ofBody quote opening b).lexeme.kind ≠ .equals := by
    cases h : b.closed <;> simp [ofBody, h]
  apply first_cases (P := fun r => r.lexeme.kind = .equals → c = '=') c t
  case double => exact fun _ h => absurd h (hquoted _ _ _)
  case single => exact fun _ h => absurd h (hquoted _ _ _)
  case dollar =>
    intro _
    unfold ofDollar
    split <;> split <;> simp
  case equals => exact fun hc _ => hc
  case dash =>
    intro _
    unfold ofDash
    split
    · simp
    · split <;> simp
  all_goals simp [run]

end Lexeme

namespace Text.IsWord

variable {c : Char} {t : Text}

theorem not_breaks (h : IsWord (c :: t)) : ¬Breaks (c :: t) := by
  have hsolid : (Lexeme.first c t).lexeme.Solid := h.solid _ (Lexeme.first_mem_ofText c t)
  rw [breaks_cons_iff]
  rcases Lexeme.first_separates c t with ⟨-, hkind⟩ | ⟨-, hkind⟩ | ⟨hblank, hnewline, -⟩
  · exact absurd hkind hsolid.1
  · exact absurd hkind hsolid.2
  · simp [hblank, hnewline]

theorem rest (h : IsWord (c :: t)) (hne : (Lexeme.first c t).rest ≠ []) :
    (Lexeme.first c t).rest.IsWord where
  ne_nil := hne
  solid := fun x hx => h.solid x (Lexeme.mem_ofText_of_mem_rest hx)
  faultless := fun x hx => h.faultless x (Lexeme.mem_ofText_of_mem_rest hx)

end Text.IsWord

namespace Command

variable {t : Text}

theorem typedWords?_word (h : t.IsWord) : typedWords? t = some [Word.ofText t] := by
  induction t using Lexeme.ofText.induct with
  | case1 => exact absurd rfl h.ne_nil
  | case2 c t ih =>
      have hmem := Lexeme.first_mem_ofText c t
      have hself : Lexeme.first c t = ⟨(Lexeme.first c t).lexeme, (Lexeme.first c t).rest⟩ := rfl
      have hwhole : Word.ofText (c :: t) =
          (Lexeme.first c t).lexeme.at .start :: Word.ofText (Lexeme.first c t).rest := by
        rw [Word.ofText, Lexeme.ofText_cons]
        rfl
      cases hrest : (Lexeme.first c t).rest with
      | nil =>
          rw [hrest] at hself hwhole
          rw [typedWords?_alone hself (h.solid _ hmem) (h.faultless _ hmem) Text.breaks_nil,
            typedWords?_nil, hwhole, Word.ofText, Lexeme.ofText_nil]
          rfl
      | cons d rest =>
          have hword := h.rest (hrest ▸ List.cons_ne_nil d rest)
          have hbreaks : ¬Text.Breaks (Lexeme.first c t).rest := hrest ▸ (hrest ▸ hword).not_breaks
          rw [typedWords?_glued hself (h.solid _ hmem) (h.faultless _ hmem) hbreaks, ih hword, hwhole]
          rfl

/-- A word in front of a blank is the first of a line. -/
theorem typedWords?_word_append (h : t.IsWord) (rest : Text) :
    typedWords? (t ++ ' ' :: rest) = (typedWords? rest).map (Word.ofText t :: ·) := by
  have hbreaks : Text.Breaks (' ' :: rest) := Text.breaks_cons_iff.2 (.inl rfl)
  rw [typedWords?_append_breaks (typedWords?_word h) hbreaks
    (.inl fun x hx => (h.solid x hx).2), typedWords?_blank rfl]
  rfl

end Command

namespace Word

/-- A word that is an argument where none is awaited for anything else. -/
def IsArgument (w : Word) : Prop := Part.ofWords [w] = [.positional w]

/-- A word that begins with an option and is none, because of what is glued to it. -/
def LooksLikeOption (w : Word) : Prop :=
  ∃ k x glued, w = k :: x :: glued ∧ k.kind = .option ∧ x.kind ≠ .equals

/-- An argument begins with no option, or it looks like an option and is none. -/
theorem isArgument_iff {w : Word} (hspelled : ∀ t ∈ w, t.kind = .option → '=' ∉ t.literal) :
    w.IsArgument ↔ Part.begins .option w = false ∨ w.LooksLikeOption := by
  match w with
  | [] =>
      refine iff_of_true ?_ (.inl rfl)
      rw [IsArgument, Part.ofWords, Part.ofWords_nil]
  | t :: glued =>
      by_cases hkind : t.kind = .option
      · have hbegins : Part.begins .option (t :: glued) = true := by simp [Part.begins, hkind]
        have hspelling : Part.splitAtEquals? t.literal = none :=
          Part.splitAtEquals?_eq_none (hspelled t List.mem_cons_self hkind)
        rw [hbegins, IsArgument]
        cases glued with
        | nil =>
            refine iff_of_false ?_ (by simp [LooksLikeOption])
            by_cases hliteral : t.literal = ['-', '-']
            · rw [Part.ofWords_endOfOptions hkind hliteral]
              simp
            · rw [Part.ofWords_option hkind (by simp [hliteral])
                (Part.ofOption_flag hspelling (by simp))]
              simp
        | cons x glued =>
            by_cases hx : x.kind = .equals
            · refine iff_of_false ?_ (by simp [LooksLikeOption, hx])
              rw [Part.ofWords_option hkind (by simp) (Part.ofOption_equals hspelling hx)]
              simp
            · refine iff_of_true ?_ (.inr ⟨t, x, glued, rfl, hkind, hx⟩)
              rw [Part.ofWords_glued hkind (by simp) (Part.ofOption_glued hspelling hx),
                Part.ofWords_nil]
      · refine iff_of_true ?_ (.inl (by simp [Part.begins, hkind]))
        rw [IsArgument, Part.ofWords_argument hkind, Part.ofWords_nil]

end Word

namespace Lexeme

theorem spelled_of_mem_ofText {t : Text} {x : Lexeme} (hx : x ∈ ofText t) : x.Spelled := by
  induction t using ofText.induct with
  | case1 => simp at hx
  | case2 c t ih =>
      rw [ofText_cons] at hx
      rcases List.mem_cons.1 hx with rfl | hx
      · exact first_spelled c t
      · exact ih hx

end Lexeme

namespace Part

/-- A word begins with `=` where its text does. -/
theorem begins_equals_ofText_iff {w : Text} :
    begins .equals (Word.ofText w) = true ↔ w.head? = some '=' := by
  cases w with
  | nil => simp [Word.ofText, begins]
  | cons c w =>
      have hfirst : begins .equals (Word.ofText (c :: w)) = true ↔
          (Lexeme.first c w).lexeme.kind = .equals := by
        rw [Word.ofText, Lexeme.ofText_cons]
        simp [begins, Lexeme.at]
      rw [hfirst, List.head?_cons, Option.some.injEq]
      constructor
      · exact Lexeme.eq_of_first_kind_eq_equals
      · rintro rfl
        rfl

/-- An option that ends in a `=`, and a word after it. -/
theorem bound_singleton (option : Text) (w : Word) :
    bound option [] [w] = if begins .option w || begins .equals w then (.binding option [] [], [w])
      else (.binding option [] w, []) := by
  simp only [bound, valueAfterEquals, List.isEmpty_nil, if_pos, separateValue]
  split <;> rfl

section Next

variable {w : Text} (option : Text)

theorem option_spelled {t : Token} (ht : t ∈ Word.ofText w) (hkind : t.kind = .option) :
    '=' ∉ t.literal := by
  obtain ⟨x, hx, rfl⟩ := List.mem_map.1 ht
  exact (Lexeme.spelled_of_mem_ofText hx).option hkind

/-- An argument that neither begins with `=` nor looks like an option is taken for the value. -/
theorem bound_argument (hargument : (Word.ofText w).IsArgument) (hsign : w.head? ≠ some '=')
    (hlooks : ¬(Word.ofText w).LooksLikeOption) :
    bound option [] [Word.ofText w] = (.binding option [] (Word.ofText w), []) := by
  have hoption : begins .option (Word.ofText w) = false :=
    ((Word.isArgument_iff fun _ => option_spelled).1 hargument).resolve_right hlooks
  have hequals : begins .equals (Word.ofText w) = false :=
    Bool.eq_false_iff.2 (mt begins_equals_ofText_iff.1 hsign)
  rw [bound_singleton, hoption, hequals]
  rfl

/-- No other word is. -/
theorem bound_other (hother : ¬(Word.ofText w).IsArgument ∨ w.head? = some '=' ∨
      (Word.ofText w).LooksLikeOption) :
    bound option [] [Word.ofText w] = (.binding option [] [], [Word.ofText w]) := by
  have hbegins : (begins .option (Word.ofText w) || begins .equals (Word.ofText w)) = true := by
    rw [Bool.or_eq_true]
    rcases hother with hnone | hsign | ⟨x, y, glued, hlooks, hx, -⟩
    · refine .inl (Bool.eq_true_of_not_eq_false fun h => hnone ?_)
      exact (Word.isArgument_iff fun _ => option_spelled).2 (.inl h)
    · exact .inr (begins_equals_ofText_iff.2 hsign)
    · exact .inl (by simp [hlooks, begins, hx])
  rw [bound_singleton, if_pos hbegins]

end Next

/-- The `=` as it is lexed. -/
def equalsSign : Token := ⟨.equals, ['='], ['='], .start⟩

theorem ofWords_joined (k : Rendering.Spelling) (ws : List Word) :
    ofWords ([k.lexeme.at .start, equalsSign] :: ws) =
      (bound k.text [] ws).1 :: ofWords (bound k.text [] ws).2 :=
  ofWords_option rfl (by simp) (ofOption_equals k.splitAtEquals?_text rfl)

theorem ofWords_spaced {k : Rendering.Spelling} (hk : k.text ≠ ['-', '-']) (ws : List Word) :
    ofWords ([k.lexeme.at .start] :: [equalsSign] :: ws) =
      (bound k.text [] ws).1 :: ofWords (bound k.text [] ws).2 := by
  refine ofWords_option rfl (fun h => hk h.1) ?_
  show ofOption k.text [] ([equalsSign] :: ws) = _
  simp only [ofOption, k.splitAtEquals?_text]
  rfl

end Part

/-! ## Lines -/

namespace Text.IsWord

/-- Ordinary characters, options and `=` make words. -/
theorem of_ofText {t : Text} {u : Word} (h : Word.ofText t = u) (hne : u ≠ [])
    (hall : ∀ b ∈ u, b.kind = .word ∨ b.kind = .option ∨ b.kind = .equals) : IsWord t := by
  subst h
  have hkind : ∀ x ∈ Lexeme.ofText t, x.kind = .word ∨ x.kind = .option ∨ x.kind = .equals :=
    fun x hx => hall (x.at .start) (List.mem_map_of_mem hx)
  refine ⟨?_, ?_, ?_⟩
  · rintro rfl
    simp [Word.ofText] at hne
  · intro x hx
    rcases hkind x hx with hx | hx | hx <;> simp [Lexeme.Solid, hx]
  · intro x hx cause
    rcases hkind x hx with hx | hx | hx <;> simp [hx]

end Text.IsWord

namespace Word

theorem ofText_equals : ofText ['='] = [Part.equalsSign] := by
  rw [ofText, Lexeme.ofText_equals, Lexeme.ofText_nil]
  rfl

theorem ofText_joined (k : Rendering.Spelling) :
    ofText (k.text ++ ['=']) = [k.lexeme.at .start, Part.equalsSign] := by
  have hstops : Text.Stops Lexeme.isLongOptionChar ['='] := .cons (by decide) []
  rw [ofText, k.ofText_text hstops, List.map_cons, ← ofText, ofText_equals]

end Word

namespace Command

variable {n w : Text}

/-- The words of a line with an option that awaits its value, and what they are sorted into. -/
theorem exists_words_awaiting (k : Rendering.Spelling) (hk : k.text ≠ ['-', '-']) (hn : n.IsWord)
    (hw : w.IsWord) {line : Text}
    (hline : line = n ++ ' ' :: (k.text ++ "= ".toList ++ w) ∨
      line = n ++ ' ' :: (k.text ++ " = ".toList ++ w)) :
    ∃ ws, typedWords? line = some (Word.ofText n :: ws) ∧
      Part.ofWords ws = (Part.bound k.text [] [Word.ofText w]).1 ::
        Part.ofWords (Part.bound k.text [] [Word.ofText w]).2 := by
  rcases hline with rfl | rfl
  · have hjoined : (k.text ++ ['=']).IsWord :=
      .of_ofText (Word.ofText_joined k) (by simp)
        (by simp [Rendering.Spelling.lexeme, Lexeme.at, Part.equalsSign])
    have hsplit : k.text ++ "= ".toList ++ w = (k.text ++ ['=']) ++ ' ' :: w := by simp
    refine ⟨_, ?_, Part.ofWords_joined k [Word.ofText w]⟩
    rw [typedWords?_word_append hn, hsplit, typedWords?_word_append hjoined, typedWords?_word hw,
      Word.ofText_joined]
    rfl
  · have hoption : k.text.IsWord :=
      .of_ofText (Part.ofText_spelling k) (by simp)
        (by simp [Rendering.Spelling.lexeme, Lexeme.at])
    have hequals : Text.IsWord ['='] :=
      .of_ofText Word.ofText_equals (by simp) (by simp [Part.equalsSign])
    have hsplit : k.text ++ " = ".toList ++ w = k.text ++ ' ' :: (['='] ++ ' ' :: w) := by simp
    refine ⟨_, ?_, Part.ofWords_spaced hk [Word.ofText w]⟩
    rw [typedWords?_word_append hn, hsplit, typedWords?_word_append hoption,
      typedWords?_word_append hequals, typedWords?_word hw, Part.ofText_spelling,
      Word.ofText_equals]
    rfl

/-- What comes of an option with a `=` after it and of the word after that: the word is its value, or
it has none and the word is read as if it stood by itself. -/
structure Settles (c d : Command) (k w : Text) (e : Expansion) : Prop where
  value : (Word.ofText w).IsArgument → w.head? ≠ some '=' → ¬(Word.ofText w).LooksLikeOption →
    c.bindings = [(k, e.word (Word.ofText w))] ∧ c.args = []
  other : ¬(Word.ofText w).IsArgument ∨ w.head? = some '=' ∨ (Word.ofText w).LooksLikeOption →
    c.bindings = (k, []) :: d.bindings ∧ c.args = d.args

/-- An option that ends in a `=`, or that a `=` follows, takes the next word for its value if this is an
argument by itself and does not begin with `=`, unless it looks like an option. -/
theorem parseLine_separateValue (e : Expansion) (matching : Text → List Text) {line : Text}
    (k : Rendering.Spelling) (hk : k.text ≠ ['-', '-']) (hn : n.IsWord) (hw : w.IsWord)
    (hline : line = n ++ ' ' :: (k.text ++ "= ".toList ++ w) ∨
      line = n ++ ' ' :: (k.text ++ " = ".toList ++ w)) :
    ∃ c d, parseLine e matching line = .ok (some c) ∧
      parseLine e matching (n ++ ' ' :: w) = .ok (some d) ∧ c.Settles d k.text w e := by
  obtain ⟨ws, hwords, hparts⟩ := exists_words_awaiting k hk hn hw hline
  have halone : typedWords? (n ++ ' ' :: w) = some [Word.ofText n, Word.ofText w] := by
    rw [typedWords?_word_append hn, typedWords?_word hw]
    rfl
  refine ⟨_, _, parseLine_of_words e matching hwords, parseLine_of_words e matching halone, ?_, ?_⟩
  · intro hargument hsign hlooks
    have hitems : (Part.ofWords ws).flatMap (Item.ofPart e matching) =
        [.binding k.text (e.word (Word.ofText w))] := by
      rw [hparts, Part.bound_argument k.text hargument hsign hlooks]
      simp [Item.ofPart, Part.ofWords_nil]
    rw [bindings, args, hitems]
    exact ⟨rfl, rfl⟩
  · intro hother
    have hitems : (Part.ofWords ws).flatMap (Item.ofPart e matching) =
        .binding k.text [] ::
          (Part.ofWords [Word.ofText w]).flatMap (Item.ofPart e matching) := by
      rw [hparts, Part.bound_other k.text hother]
      rfl
    rw [bindings, args, hitems]
    exact ⟨rfl, rfl⟩

/-- A value with a `~` in front, typed apart from the `=` before it. -/
theorem parseLine_separateValue_tilde :
    ∃ c, parseLine ⟨fun _ => none, "/home".toList, true⟩ (fun _ => []) "cp --to = ~/x".toList =
        .ok (some c) ∧
      c.bindings = [("--to".toList, "/home/x".toList)] ∧ c.args = [] := by
  have hname : Word.ofText "cp".toList = [⟨.word, "cp".toList, "cp".toList, .start⟩] := by
    decide +kernel
  have hword : Word.ofText "~/x".toList = [⟨.word, "~/x".toList, "~/x".toList, .start⟩] := by
    decide +kernel
  have hspelled : ∀ c ∈ "to".toList, Lexeme.isLongOptionChar c = true := by
    simp [Lexeme.isLongOptionChar, Text.isAlphanumeric]
  obtain ⟨c, d, hc, -, hsettles⟩ :=
    parseLine_separateValue ⟨fun _ => none, "/home".toList, true⟩ (fun _ => [])
      (.long "to".toList hspelled) (show "--to".toList ≠ _ by decide)
      (.of_ofText hname (by simp) (by simp)) (.of_ofText hword (by simp) (by simp)) (.inr rfl)
  have hargument : (Word.ofText "~/x".toList).IsArgument := by
    rw [hword]
    exact (Part.ofWords_argument (by decide)).trans (by rw [Part.ofWords_nil])
  have hlooks : ¬(Word.ofText "~/x".toList).LooksLikeOption := by
    rw [hword]
    rintro ⟨x, y, glued, hlooks, -⟩
    cases hlooks
  obtain ⟨hbindings, hargs⟩ := hsettles.value hargument (by decide) hlooks
  refine ⟨c, hc, ?_, hargs⟩
  rw [hbindings, hword]
  rfl

/-- The number `-1.5` is an argument by itself, but an option does not take it for its value. -/
theorem unbound_number :
    (Word.ofText "-1.5".toList).IsArgument ∧
      ∃ c, parseLine ⟨fun _ => none, [], true⟩ (fun _ => []) "calc --by= -1.5".toList =
          .ok (some c) ∧
        c.bindings = [("--by".toList, [])] ∧ c.args = ["-1.5".toList] := by
  refine ⟨?_, _, by cbv, by cbv, by cbv⟩
  show Part.ofWords _ = _
  decide +kernel

end Command

end PrefixShell
