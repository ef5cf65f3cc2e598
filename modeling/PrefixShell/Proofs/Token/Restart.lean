import PrefixShell.Proofs.Token.Locality
import PrefixShell.Proofs.Token.Partition

/-!
# Reading a part of a line again

What a token is depends on little: its own text, and the character after it.  So a line need not be
read as a whole.  A token read from its own text alone is the same token, and the tokens from any one
on are those of the text from there on; only their places change, as the text begins elsewhere.

A token read alone has the end of the text behind it, which stops every run.  A fault has nothing
behind it to begin with.

## Main results

* `Lexeme.first_alone`: a lexeme read from its own text.
* `Lexeme.first_concat`: a lexeme read from its own text and the character after it.
* `Token.ofLine_restartable`: both for the tokens of a line, and the tokens from any one on.
-/

namespace PrefixShell

namespace Lexeme

/-- A lexeme is read again from its own text. -/
theorem first_alone {c : Char} {t s : Text} (hraw : (first c t).lexeme.raw = c :: s) :
    first c s = ⟨(first c t).lexeme, []⟩ := by
  by_cases hfault : ∃ cause, (first c t).lexeme.kind = .fault cause
  · obtain ⟨cause, hkind⟩ := hfault
    have hrest : (first c t).rest = [] := rest_of_fault hkind
    have hall := first_raw_append_rest c t
    rw [hraw, hrest, List.append_nil] at hall
    obtain rfl : s = t := (List.cons.inj hall).2
    rw [← hrest]
  · have hagain := first_resume (r := []) (fun _ => .nil isBlank) (not_exists.1 hfault) hraw
      (fun belongs _ _ _ _ => .nil belongs)
    rwa [List.append_nil] at hagain

/-- A lexeme is read again from its own text and the character after it. -/
theorem first_concat {c d : Char} {t s : Text} (hraw : (first c t).lexeme.raw = c :: s)
    (hd : (first c t).rest.head? = some d) : first c (s ++ [d]) = ⟨(first c t).lexeme, [d]⟩ := by
  have hstops (belongs : Char → Bool) (h : (first c t).rest.Stops belongs) :
      Text.Stops belongs [d] := .cons (h d hd) []
  refine first_resume ?_ ?_ hraw (fun belongs _ _ _ => hstops belongs)
  · intro hkind
    exact hstops isBlank (stops_blank_of_kind hkind)
  · intro cause hkind
    rw [rest_of_fault hkind] at hd
    cases hd

end Lexeme

namespace Token

/-- Without their places, the tokens of a text do not tell where it begins. -/
theorem map_unplaced_ofLine_rawText {p : Position} {text : Text} {ts : List Token}
    (h : tokensFrom p text = ts) : (ofLine (rawText ts)).map unplaced = ts.map unplaced := by
  rw [← h, rawText_tokensFrom, ofLine, Lexeme.map_unplaced_tokensFrom,
    Lexeme.map_unplaced_tokensFrom]

/-- The text of a lexeme, read as a line. -/
theorem ofLine_raw_first (c : Char) (t : Text) :
    ofLine (Lexeme.first c t).lexeme.raw =
      [(Lexeme.first c t).lexeme.at .start, eofAt (.after (Lexeme.first c t).lexeme.raw)] := by
  obtain ⟨s, hraw⟩ := Lexeme.exists_raw_eq_cons c t
  rw [← Position.start_advanceBy, hraw, ofLine, tokensFrom_cons, Lexeme.first_alone hraw,
    tokensFrom_nil, hraw]

/-- The text of a lexeme and the character after it, read as a line. -/
theorem ofLine_raw_first_concat {c d : Char} {t : Text}
    (hd : (Lexeme.first c t).rest.head? = some d) :
    ∃ more, ofLine ((Lexeme.first c t).lexeme.raw ++ [d]) =
      (Lexeme.first c t).lexeme.at .start :: more := by
  obtain ⟨s, hraw⟩ := Lexeme.exists_raw_eq_cons c t
  rw [hraw, List.cons_append, ofLine, tokensFrom_cons, Lexeme.first_concat hraw hd]
  exact ⟨_, rfl⟩

/-- The tokens of a text begin with the character that the text begins with. -/
theorem head?_of_tokensFrom_eq_cons {p : Position} {text : Text} {u : Token} {after : List Token}
    {c : Char} (h : tokensFrom p text = u :: after) (hc : u.raw.head? = some c) :
    text.head? = some c := by
  rw [← rawText_tokensFrom p text, h, rawText_cons, List.head?_append, hc]
  rfl

/-- What it is for tokens to be those of their texts, read apart from the rest of the line. -/
structure Restartable (ts : List Token) : Prop where
  /-- A token is all that its own text is read as. -/
  alone : ∀ t ∈ ts, t.kind ≠ .eof → ofLine t.raw = [t.unplaced, eofAt (.after t.raw)]
  /-- From any token on the text is read as the tokens from this one on. -/
  onward : ∀ before t after, ts = before ++ t :: after →
    (ofLine (rawText (t :: after))).map unplaced = (t :: after).map unplaced
  /-- The character after a token does not belong to it: read along with the token, it is left. -/
  maximal : ∀ before t u after c, ts = before ++ t :: u :: after → u.raw.head? = some c →
    ∃ more, ofLine (t.raw ++ [c]) = t.unplaced :: more

/-- The tokens of a line are those of their texts, whatever stands before and behind them. -/
theorem ofLine_restartable (line : Text) : Restartable (ofLine line) where
  alone := by
    intro t ht hkind
    rcases exists_first_of_mem ht with ⟨c, rest, place, rfl⟩ | ⟨place, rfl⟩
    · exact ofLine_raw_first c rest
    · exact absurd rfl hkind
  onward := by
    intro before t after h
    obtain ⟨rest, -, hrest⟩ := tokensFrom_split h
    exact map_unplaced_ofLine_rawText hrest
  maximal := by
    intro before t u after c h hc
    obtain ⟨rest, -, hrest⟩ := tokensFrom_split h
    cases rest with
    | nil =>
        rw [tokensFrom_nil] at hrest
        cases (List.cons.inj hrest).2
    | cons d rest =>
        rw [tokensFrom_cons] at hrest
        obtain ⟨rfl, hafter⟩ := List.cons.inj hrest
        exact ofLine_raw_first_concat (head?_of_tokensFrom_eq_cons hafter hc)

end Token

end PrefixShell
