import PrefixShell.Proofs.Token.Reading
import PrefixShell.Token.Lexer

/-!
# Lexemes in a row

The lexemes of a text, one after another and without places, and how the first of them is recognised
when the text begins with a piece that is known.

A run (of blanks, of ordinary characters, of option characters) goes on until a character that does
not belong to it.  So the piece in front is a lexeme of its own only if what follows `Stops` the
run.  A closed quotation asks nothing of what follows.

## Main results

* `map_unplaced_tokensFrom`: without their places, the tokens of a text are its lexemes and the end.
* `ofText_blank`, `ofText_word`, `ofText_long`, `ofText_short`: a run with something that stops it.
* `doubleQuoted_escape`, `singleQuoted_append`: what is quoted is read back.
-/

namespace PrefixShell

/-! ## Runs and what stops them -/

/-- The text does not begin with a character of the class. -/
def Text.Stops (belongs : Char → Bool) (t : Text) : Prop := ∀ c ∈ t.head?, belongs c = false

namespace Text.Stops

theorem nil (belongs : Char → Bool) : Stops belongs [] := by
  intro c hc
  cases hc

theorem cons {belongs : Char → Bool} {c : Char} (h : belongs c = false) (t : Text) :
    Stops belongs (c :: t) := by
  intro d hd
  cases hd
  exact h

variable {belongs : Char → Bool} {s t : Text}

theorem takeWhile_eq_nil (h : Stops belongs t) : t.takeWhile belongs = [] := by
  cases t with
  | nil => rfl
  | cons c t => simp [h c rfl]

theorem dropWhile_eq_self (h : Stops belongs t) : t.dropWhile belongs = t := by
  cases t with
  | nil => rfl
  | cons c t => simp [h c rfl]

/-- A run ends where it is stopped. -/
theorem takeWhile_append (hs : ∀ c ∈ s, belongs c = true) (h : Stops belongs t) :
    (s ++ t).takeWhile belongs = s := by
  rw [List.takeWhile_append_of_pos hs, h.takeWhile_eq_nil, List.append_nil]

theorem dropWhile_append (hs : ∀ c ∈ s, belongs c = true) (h : Stops belongs t) :
    (s ++ t).dropWhile belongs = t := by
  rw [List.dropWhile_append_of_pos hs, h.dropWhile_eq_self]

end Text.Stops

/-! ## Tokens without places -/

/-- The token, as if it began the text. -/
def Token.unplaced (t : Token) : Token := { t with position := .start }

namespace Lexeme

/-- The lexemes of a text, in order. -/
def ofText : Text → List Lexeme
  | [] => []
  | c :: t => (first c t).lexeme :: ofText (first c t).rest
termination_by t => t.length
decreasing_by exact length_rest_lt c t

@[simp] theorem ofText_nil : ofText [] = [] := by
  rw [ofText]

theorem ofText_cons (c : Char) (t : Text) :
    ofText (c :: t) = (first c t).lexeme :: ofText (first c t).rest := by
  rw [ofText]

theorem first_mem_ofText (c : Char) (t : Text) : (first c t).lexeme ∈ ofText (c :: t) := by
  rw [ofText_cons]
  exact List.mem_cons_self

theorem mem_ofText_of_mem_rest {c : Char} {t : Text} {x : Lexeme}
    (hx : x ∈ ofText (first c t).rest) : x ∈ ofText (c :: t) := by
  rw [ofText_cons]
  exact List.mem_cons_of_mem _ hx

/-- Without their places, the tokens of a text are its lexemes and the end of the text. -/
theorem map_unplaced_tokensFrom (p : Position) (t : Text) :
    (Token.tokensFrom p t).map Token.unplaced =
      (ofText t).map (·.at .start) ++ [Token.eofAt .start] := by
  fun_induction Token.tokensFrom p t with
  | case1 p =>
      rw [ofText_nil]
      rfl
  | case2 p c t r ih =>
      rw [ofText_cons, List.map_cons, ih]
      rfl

/-! ## Runs in front of a text -/

/-- A run in front of a text is a reading of its own where the text stops it. -/
theorem run_append {kind : TokenKind} {belongs : Char → Bool} {s t : Text}
    (hs : ∀ c ∈ s, belongs c = true) (ht : t.Stops belongs) :
    run kind belongs (s ++ t) = ⟨⟨kind, s, s⟩, t⟩ := by
  rw [run, Text.Stops.takeWhile_append hs ht, Text.Stops.dropWhile_append hs ht]

/-- A run that is the whole text. -/
theorem run_self {kind : TokenKind} {belongs : Char → Bool} {s : Text}
    (hs : ∀ c ∈ s, belongs c = true) : run kind belongs s = ⟨⟨kind, s, s⟩, []⟩ := by
  have hrun : run kind belongs (s ++ []) = ⟨⟨kind, s, s⟩, []⟩ := run_append hs (.nil belongs)
  rwa [List.append_nil] at hrun

/-- A text of ordinary characters is read as a whole, if it does not begin with `-`. -/
theorem first_word_self {c : Char} {s : Text} (hs : ∀ d ∈ c :: s, endsWord d = false)
    (hdash : c ≠ '-') : first c s = ⟨⟨.word, c :: s, c :: s⟩, []⟩ := by
  rw [first_word (hs c List.mem_cons_self) hdash]
  exact run_self fun d hd => by rw [hs d hd]; rfl

theorem ofText_blank {t : Text} (ht : t.Stops isBlank) :
    ofText (' ' :: t) = ⟨.blank, [' '], [' ']⟩ :: ofText t := by
  have hblank : isBlank ' ' = true := by decide
  have hrun : run .blank isBlank ([' '] ++ t) = ⟨⟨.blank, [' '], [' ']⟩, t⟩ := by
    refine run_append ?_ ht
    intro c hc
    rwa [List.mem_singleton.1 hc]
  rw [ofText_cons, first_blank hblank]
  exact congrArg (fun r : Reading => r.lexeme :: ofText r.rest) hrun

theorem ofText_word {c : Char} {s t : Text} (hdash : c ≠ '-')
    (hs : ∀ d ∈ c :: s, endsWord d = false) (ht : t.Stops fun d => !endsWord d) :
    ofText (c :: s ++ t) = ⟨.word, c :: s, c :: s⟩ :: ofText t := by
  have hrun : run .word (fun d => !endsWord d) (c :: s ++ t) = ⟨⟨.word, c :: s, c :: s⟩, t⟩ := by
    refine run_append ?_ ht
    intro d hd
    rw [hs d hd]
    rfl
  have hc : endsWord c = false := hs c List.mem_cons_self
  rw [List.cons_append, ofText_cons, first_word hc hdash]
  exact congrArg (fun r : Reading => r.lexeme :: ofText r.rest) hrun

theorem ofText_equals (t : Text) : ofText ('=' :: t) = ⟨.equals, ['='], ['=']⟩ :: ofText t := by
  rw [ofText_cons, first_equals]

/-- Behind a `-`, a long option. -/
theorem ofDash_long {name r : Text} (hname : ∀ c ∈ name, isLongOptionChar c = true)
    (hr : r.Stops isLongOptionChar) :
    ofDash ('-' :: (name ++ r)) = ⟨⟨.option, '-' :: '-' :: name, '-' :: '-' :: name⟩, r⟩ := by
  rw [ofDash, hr.takeWhile_append hname, hr.dropWhile_append hname]

/-- Behind a `-`, a cluster of short options. -/
theorem ofDash_cluster {c : Char} {cluster r : Text}
    (hcluster : ∀ d ∈ c :: cluster, Text.isAlphanumeric d = true) (hr : r.Stops Text.isAlphanumeric) :
    ofDash (c :: cluster ++ r) = ⟨⟨.option, '-' :: c :: cluster, '-' :: c :: cluster⟩, r⟩ := by
  have htake := hr.takeWhile_append hcluster
  have hdrop := hr.dropWhile_append hcluster
  have hdash : c ≠ '-' := Text.ne_of_isAlphanumeric (hcluster c List.mem_cons_self) (by decide)
  unfold ofDash
  split
  · rename_i heq
    exact absurd (List.cons.inj heq).1 hdash
  · rw [htake, hdrop]

/-- A long option, stopped by what follows. -/
theorem ofText_long {name t : Text} (hname : ∀ c ∈ name, isLongOptionChar c = true)
    (ht : t.Stops isLongOptionChar) :
    ofText ('-' :: '-' :: name ++ t) =
      ⟨.option, '-' :: '-' :: name, '-' :: '-' :: name⟩ :: ofText t := by
  rw [List.cons_append, List.cons_append, ofText_cons, first_dash, ofDash_long hname ht]

/-- A cluster of short options, stopped by what follows. -/
theorem ofText_short {c : Char} {cluster t : Text}
    (hcluster : ∀ d ∈ c :: cluster, Text.isAlphanumeric d = true)
    (ht : t.Stops Text.isAlphanumeric) :
    ofText ('-' :: c :: cluster ++ t) =
      ⟨.option, '-' :: c :: cluster, '-' :: c :: cluster⟩ :: ofText t := by
  rw [List.cons_append, ofText_cons, first_dash, ofDash_cluster hcluster ht]

/-- A run of blanks is one lexeme, whether it begins here or one character later.  So what is said of
a text by way of its lexemes cannot tell a blank in front, but by the place where the text begins. -/
theorem pass_blank {α : Type} {f : Position → Text → α}
    (hrun : ∀ p c t, isBlank c = true →
      f p (c :: t) = f (p.advanceBy (c :: t.takeWhile isBlank)) (t.dropWhile isBlank))
    {c : Char} (hc : isBlank c = true) (p : Position) (t : Text) :
    f p (c :: t) = f (p.advance c) t := by
  rw [hrun p c t hc]
  cases t with
  | nil => rfl
  | cons d t =>
      cases hd : isBlank d with
      | true =>
          rw [List.takeWhile_cons_of_pos hd, List.dropWhile_cons_of_pos hd, hrun _ d t hd]
          rfl
      | false =>
          rw [List.takeWhile_cons_of_neg (by simp [hd]), List.dropWhile_cons_of_neg (by simp [hd])]
          rfl

/-! ## Quotations in front of a text -/

/-- A text as it is written between double quotes. -/
def escape (s : Text) : Text := s.flatMap fun c => if c = '\\' ∨ c = '"' then ['\\', c] else [c]

theorem escape_cons (c : Char) (s : Text) :
    escape (c :: s) = (if c = '\\' ∨ c = '"' then ['\\', c] else [c]) ++ escape s := rfl

theorem doubleQuoted_ordinary {c : Char} (hslash : c ≠ '\\') (hquote : c ≠ '"') (t : Text) :
    doubleQuoted (c :: t) = (doubleQuoted t).push [c] [c] := by
  rw [doubleQuoted]
  · intro h
    exact hquote h
  · intro d rest h
    exact absurd h hslash

/-- A text written between double quotes is read back. -/
theorem doubleQuoted_escape (s t : Text) :
    doubleQuoted (escape s ++ '"' :: t) = ⟨s, escape s ++ ['"'], t, true⟩ := by
  induction s with
  | nil => rfl
  | cons c s ih =>
      by_cases hslash : c = '\\'
      · subst hslash
        show (doubleQuoted (escape s ++ '"' :: t)).push ['\\'] ['\\', '\\'] = _
        rw [ih]
        rfl
      · by_cases hquote : c = '"'
        · subst hquote
          show (doubleQuoted (escape s ++ '"' :: t)).push ['"'] ['\\', '"'] = _
          rw [ih]
          rfl
        · have hplain : escape (c :: s) = c :: escape s := by
            rw [escape_cons, if_neg (by simp [hslash, hquote])]
            rfl
          rw [hplain, List.cons_append, doubleQuoted_ordinary hslash hquote, ih]
          rfl

/-- A text without `'` is read back from between single quotes. -/
theorem singleQuoted_append {s : Text} (hs : '\'' ∉ s) (t : Text) :
    singleQuoted (s ++ '\'' :: t) = ⟨s, s ++ ['\''], t, true⟩ := by
  induction s with
  | nil => rfl
  | cons c s ih =>
      have hc : c ≠ '\'' := fun h => hs (h ▸ List.mem_cons_self)
      have ih := ih fun h => hs (List.mem_cons_of_mem c h)
      rw [List.cons_append, singleQuoted, if_neg hc, ih]
      rfl

theorem ofText_double (s t : Text) :
    ofText ('"' :: (escape s ++ '"' :: t)) =
      ⟨.quoted .double, '"' :: (escape s ++ ['"']), s⟩ :: ofText t := by
  rw [ofText_cons, first_double, doubleQuoted_escape]
  rfl

theorem ofText_single {s : Text} (hs : '\'' ∉ s) (t : Text) :
    ofText ('\'' :: (s ++ '\'' :: t)) =
      ⟨.quoted .single, '\'' :: (s ++ ['\'']), s⟩ :: ofText t := by
  rw [ofText_cons, first_single, singleQuoted_append hs]
  rfl

end Lexeme

end PrefixShell
