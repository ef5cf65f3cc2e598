import PrefixShell.Token.Lexeme

/-!
# Lexer

A text as the list of its tokens, and the lexer that hands them out one at a time. A lexer can be
asked in two ways: `nextToken` always answers, with the end-of-text token once the text is used up;
`next` answers that token once and then nothing.

## Main results

* `rawText_tokensFrom`: the texts of the tokens, put together, are the text.
* `Lexer.tokens_eq`: draining a lexer is asking `next` until it answers nothing.
-/

namespace PrefixShell

/-- The token of a lexeme that begins at a place. -/
def Lexeme.at (x : Lexeme) (p : Position) : Token := ⟨x.kind, x.raw, x.literal, p⟩

namespace Token

/-- The end of the text, at a place. -/
def eofAt (p : Position) : Token := ⟨.eof, [], [], p⟩

/-- The tokens of a text that begins at a place, the end of the text being the last. -/
def tokensFrom (p : Position) : Text → List Token
  | [] => [eofAt p]
  | c :: t =>
    let r := Lexeme.first c t
    r.lexeme.at p :: tokensFrom (p.advanceBy r.lexeme.raw) r.rest
termination_by t => t.length
decreasing_by exact Lexeme.length_rest_lt c t

theorem tokensFrom_nil (p : Position) : tokensFrom p [] = [eofAt p] := by
  rw [tokensFrom]

theorem tokensFrom_cons (p : Position) (c : Char) (t : Text) :
    tokensFrom p (c :: t) = (Lexeme.first c t).lexeme.at p ::
      tokensFrom (p.advanceBy (Lexeme.first c t).lexeme.raw) (Lexeme.first c t).rest := by
  rw [tokensFrom]

def ofLine (line : Text) : List Token := tokensFrom .start line

/-- The texts of the tokens, put together, are the text they were read from. -/
theorem rawText_tokensFrom (p : Position) (t : Text) : rawText (tokensFrom p t) = t := by
  fun_induction tokensFrom p t with
  | case1 p => rfl
  | case2 p c t r ih =>
    rw [rawText, List.flatMap_cons, ← rawText, ih]
    exact Lexeme.first_raw_append_rest c t

end Token

/-! ## The lexer -/

/-- A lexer in the middle of a text: what is left, the place it has come to, and whether `next` has
already answered the end of the text. -/
structure Lexer where
  rest : Text
  place : Position
  ended : Bool
deriving DecidableEq, Repr

namespace Lexer

def ofLine (line : Text) : Lexer := ⟨line, .start, false⟩

/-- The next token; once the text is used up, always its end. -/
def nextToken (l : Lexer) : Token × Lexer :=
  match l.rest with
  | [] => (Token.eofAt l.place, l)
  | c :: t =>
    let r := Lexeme.first c t
    (r.lexeme.at l.place, { l with rest := r.rest, place := l.place.advanceBy r.lexeme.raw })

/-- The next token, the end of the text being answered only once. -/
def next (l : Lexer) : Option Token × Lexer :=
  if l.ended then (none, l)
  else
    let (token, l') := l.nextToken
    (some token, { l' with ended := token.kind = .eof })

/-- All that `next` still has to answer. -/
def tokens (l : Lexer) : List Token :=
  if l.ended then [] else Token.tokensFrom l.place l.rest

theorem tokens_ofLine (line : Text) : (ofLine line).tokens = Token.ofLine line := rfl

/-- Draining a lexer is asking `next` until it answers nothing. -/
theorem tokens_eq (l : Lexer) :
    l.tokens = match l.next with
      | (none, _) => []
      | (some t, l') => t :: l'.tokens := by
  obtain ⟨rest, place, ended⟩ := l
  cases ended with
  | true => rfl
  | false =>
    cases rest with
    | nil => simp [tokens, next, nextToken, Token.tokensFrom_nil, Token.eofAt]
    | cons c t =>
      simp [tokens, next, nextToken, Token.tokensFrom_cons, Lexeme.at, Lexeme.first_kind_ne_eof]

end Lexer

end PrefixShell
