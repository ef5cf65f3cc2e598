import PrefixShell.Proofs.Command.Placement
import PrefixShell.Proofs.Command.Verdict
import PrefixShell.Proofs.Token.Locality

/-!
# The name in front of a line

A name that is one token by itself is one token in front of a line too, if a blank follows it.  So a
line that begins with such a name is read in two steps: the name, and what comes after.  What comes
after is read without regard to the name, and that is why one name can be put in the place of
another.

## Main results

* `head_readable_iff`: what is read goes on with a blank, or not at all, where the line breaks.
* `ofText_append_of_word`: a lone word in front of a blank is still the same word.
* `toOption_parseLine_append`: the command of a line that begins with a plain name.
-/

namespace PrefixShell

/-- The text is empty or begins with a blank. -/
def Text.Parted (t : Text) : Prop := ∀ c ∈ t.head?, c = ' ' ∨ c = '\t'

theorem Text.Parted.isBlank {t : Text} (h : t.Parted) : ∀ c ∈ t.head?, Lexeme.isBlank c = true := by
  intro c hc
  rcases h c hc with rfl | rfl <;> rfl

theorem Text.Parted.breaks {t : Text} (h : t.Parted) : t.Breaks :=
  fun c hc => .inl (h.isBlank c hc)

/-! ## The lexeme of the name -/

namespace Lexeme

theorem ofText_eq_nil_iff {t : Text} : ofText t = [] ↔ t = [] := by
  cases t with
  | nil => simp
  | cons c t => simp [ofText_cons]

/-- A lone word in front of a blank is still the same word. -/
theorem ofText_append_of_word {x t : Text} {l : Lexeme} (hx : ofText x = [l])
    (hl : l.kind = .word) (ht : t.Parted) : ofText (x ++ t) = l :: ofText t := by
  have hsolid : ∀ y ∈ ofText x, y.kind ≠ .blank ∧ ∀ cause, y.kind ≠ .fault cause := by
    intro y hy
    rw [hx] at hy
    rw [List.mem_singleton.1 hy, hl]
    exact ⟨TokenKind.noConfusion, fun _ => TokenKind.noConfusion⟩
  rw [ofText_append hsolid ht.breaks, hx, List.singleton_append]

end Lexeme

/-! ## The command -/

namespace Command

theorem toOption_eq_some {ε α : Type} {r : Except ε α} {a : α} (h : r.toOption = some a) :
    r = .ok a := by
  cases r with
  | error error => cases h
  | ok b => exact congrArg Except.ok (Option.some.inj h)

/-- A text that is one word of its own and stands for itself. -/
def Plain (e : Expansion) (x : Text) : Prop :=
  ∃ t place, Token.ofLine x = [t, Token.eofAt place] ∧ t.kind = .word ∧ e.word [t] = x

/-- The tokens of a text, as if each began it. -/
def tokensOf (t : Text) : List Token := (Lexeme.ofText t).map (·.at .start) ++ [Token.eofAt .start]

/-- The items that tokens after the name of a command make. -/
def itemsOf (e : Expansion) (matching : Text → List Text) (ts : List Token) : List Item :=
  (Part.ofWords (Word.ofTokens (readable ts))).flatMap (Item.ofPart e matching)

variable {e : Expansion} {x rest : Text}

/-- A plain name is a lexeme of its own. -/
theorem Plain.lexeme (h : Plain e x) :
    ∃ l, Lexeme.ofText x = [l] ∧ l.kind = .word ∧ e.word [l.at .start] = x := by
  obtain ⟨t, place, hline, hkind, hword⟩ := h
  have hlexemes := Lexeme.map_unplaced_tokensFrom .start x
  rw [← Token.ofLine, hline] at hlexemes
  have hone : (Lexeme.ofText x).map (·.at .start) = [t.unplaced] :=
    (List.append_inj_left' hlexemes rfl).symm
  obtain ⟨l, hl, hat⟩ := List.map_eq_singleton_iff.1 hone
  refine ⟨l, hl, ?_, ?_⟩
  · have hkind' := congrArg Token.kind hat
    exact hkind'.trans hkind
  · rw [hat]
    exact (Expansion.word_unplaced e [t]).trans hword

/-- A name of ordinary characters is plain, if it does not begin with `-` or `~`. -/
theorem plain_of_ordinary {c : Char} {s : Text} (hdash : c ≠ '-') (htilde : c ≠ '~')
    (hs : ∀ d ∈ c :: s, Lexeme.endsWord d = false) : Plain e (c :: s) := by
  have htail : Expansion.afterTilde? (c :: s) = none := Expansion.afterTilde?_of_ne htilde s
  refine ⟨⟨.word, c :: s, c :: s, .start⟩, Position.start.advanceBy (c :: s), ?_, rfl, ?_⟩
  · rw [Token.ofLine, Token.tokensFrom_cons, Lexeme.first_word_self hs hdash, Token.tokensFrom_nil]
    rfl
  · show e.tilde (c :: s) ++ [] = c :: s
    rw [Expansion.tilde, htail, List.append_nil]

theorem Plain.ne_nil (h : Plain e x) : x ≠ [] := by
  obtain ⟨l, hl, -⟩ := h.lexeme
  rintro rfl
  simp at hl

theorem tokensOf_cons (c : Char) (t : Text) :
    tokensOf (c :: t) =
      (Lexeme.first c t).lexeme.at .start :: tokensOf (Lexeme.first c t).rest := by
  rw [tokensOf, Lexeme.ofText_cons, List.map_cons, List.cons_append, tokensOf]

/-- What is read of a line goes on with a blank, or not at all, exactly where the line breaks. -/
theorem head_readable_iff (t : Text) :
    (∀ b ∈ (readable (tokensOf t)).head?, b.kind = .blank) ↔ t.Breaks := by
  cases t with
  | nil =>
      refine iff_of_true ?_ Text.breaks_nil
      simp [tokensOf, readable, Token.endsLine, Token.eofAt]
  | cons c t =>
      rw [tokensOf_cons, Text.breaks_cons_iff]
      rcases Lexeme.first_separates c t with
        ⟨hblank, hkind⟩ | ⟨rfl, hkind⟩ | ⟨hblank, hc, hsolid⟩
      · refine iff_of_true ?_ (.inl hblank)
        rw [readable_cons_of_solid (by simp [Token.endsLine, Lexeme.at, hkind])]
        rintro b ⟨⟩
        exact hkind
      · refine iff_of_true ?_ (.inr rfl)
        rw [readable_cons_of_endsLine (by simp [Token.endsLine, Lexeme.at])]
        rintro b ⟨⟩
      · refine iff_of_false ?_ (by simp [hblank, hc])
        rw [readable_cons_of_solid
          (by simp [Token.endsLine, Lexeme.at, hsolid.2, Lexeme.first_kind_ne_eof])]
        intro hhead
        exact hsolid.1 (hhead _ rfl)

section Read

variable (matching : Text → List Text)

/-- A word, then nothing more of it: the name is what the word stands for, and only what follows can
be faulty. -/
theorem toOption_parse_cons {t : Token} {ts : List Token} (hkind : t.kind = .word)
    (hts : ∀ b ∈ (readable ts).head?, b.kind = .blank) :
    (parse e matching (t :: ts)).toOption =
      if (firstFault? (readable ts)).isSome then none
      else some (some {
        name := nameOf e [t]
        items := itemsOf e matching ts
        rawInput := Token.rawText (t :: ts) }) := by
  have hsolid : t.endsLine = false := by simp [Token.endsLine, hkind]
  have hreadable : readable (t :: ts) = t :: readable ts := readable_cons_of_solid hsolid ts
  have hfirst : firstFault? (t :: readable ts) = firstFault? (readable ts) := by
    rw [firstFault?, List.findSome?_cons, Token.fault?, hkind]
    rfl
  have hwords : Word.ofTokens (t :: readable ts) = [t] :: Word.ofTokens (readable ts) := by
    refine Word.ofTokens_append (w := [t]) (List.cons_ne_nil _ _) ?_ hts
    intro b hb
    rw [List.mem_singleton.1 hb, hkind]
    exact TokenKind.noConfusion
  rw [parse, hreadable, hfirst, hwords]
  cases firstFault? (readable ts) with
  | none => rfl
  | some error => rfl

/-- The command of a line that begins with a plain name: the name is taken as it stands, and the
items are those of the tokens that follow. -/
theorem toOption_parseLine_append (hx : Plain e x) (ht : rest.Parted) :
    (parseLine e matching (x ++ rest)).toOption =
      if (firstFault? (readable (tokensOf rest))).isSome then none
      else some (some {
        name := x
        items := itemsOf e matching (tokensOf rest)
        rawInput := x ++ rest }) := by
  obtain ⟨l, hl, hkind, hword⟩ := hx.lexeme
  have htokens : (Token.ofLine (x ++ rest)).map Token.unplaced = l.at .start :: tokensOf rest := by
    rw [Token.ofLine, Lexeme.map_unplaced_tokensFrom, Lexeme.ofText_append_of_word hl hkind ht]
    rfl
  have hraw : Token.rawText (l.at .start :: tokensOf rest) = x ++ rest := by
    rw [← htokens, Token.rawText_unplaced, Token.ofLine, Token.rawText_tokensFrom]
  have hname : nameOf e [l.at .start] = x := by
    rw [nameOf, hword, if_neg (by simpa using hx.ne_nil)]
  rw [parseLine, ← toOption_parse_unplaced, htokens,
    toOption_parse_cons matching hkind ((head_readable_iff rest).2 ht.breaks), hname, hraw]

theorem parseLine_append (hx : Plain e x) (ht : rest.Parted)
    (hfault : firstFault? (readable (tokensOf rest)) = none) :
    parseLine e matching (x ++ rest) = .ok (some {
      name := x
      items := itemsOf e matching (tokensOf rest)
      rawInput := x ++ rest }) := by
  have hline := toOption_parseLine_append matching hx ht
  rw [hfault] at hline
  exact toOption_eq_some hline

/-- One plain name in the place of another changes the name of the command, and the line as it was
typed. -/
theorem parseLine_append_of_plain {y : Text} (hx : Plain e x) (hy : Plain e y) (ht : rest.Parted)
    (hread : ∀ error, parseLine e matching (x ++ rest) ≠ .error error) :
    ∃ items,
      parseLine e matching (x ++ rest) = .ok (some { name := x, items, rawInput := x ++ rest }) ∧
      parseLine e matching (y ++ rest) =
        .ok (some { name := y, items, rawInput := y ++ rest }) := by
  have hline := toOption_parseLine_append matching hx ht
  cases hfault : firstFault? (readable (tokensOf rest)) with
  | none =>
      exact ⟨_, parseLine_append matching hx ht hfault, parseLine_append matching hy ht hfault⟩
  | some error =>
      rw [hfault] at hline
      cases hparse : parseLine e matching (x ++ rest) with
      | error error' => exact absurd hparse (hread error')
      | ok c =>
          rw [hparse] at hline
          cases hline

end Read

end Command

end PrefixShell
