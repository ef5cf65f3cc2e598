import Mathlib.Algebra.Ring.Parity
import Mathlib.Data.List.DropRight
import PrefixShell.Proofs.Token.Sequence

/-!
# Where a `"` quotation is closed, and what it stands for

The scanner goes through a quotation character by character and looks one character ahead: after a
backslash it takes a character that can be escaped along with it, and leaves any other to be read
anew.  What comes of this can be said of the text as a whole.  A quotation is closed by the first `"`
that follows an even number of backslashes, and it stands for the text in between with its escapes
undone.  Backslashes escape each other in pairs, and if one is left over it escapes the `"`.

The scanner and the text as a whole are brought together in `doubleQuoted_append`.  The induction in
it goes from escape to escape, so that it always stands in front of a whole one.  For this the text
must not end in a backslash that is left over, unless nothing follows: otherwise what follows would
be escaped.

## Main results

* `odd_backslashes_cons_cons`: a backslash and what follows it do not change how many backslashes
  are left over at the end.
* `doubleQuoted_append`: what stands in front of a quotation, without a `"` that closes it.
* `exists_closedBy`, `doubleQuoted_of_closedBy`, `doubleQuoted_of_not_closable`: where a quotation is
  closed, and what it then stands for.
* `Lexer.answers_double`: the token that begins with a `"`.
-/

namespace PrefixShell

/-! ## Backslashes in a row -/

/-- The number of backslashes in a row at the end of a text. -/
def Text.backslashes (t : Text) : Nat := (t.rtakeWhile (· = '\\')).length

namespace Text

@[simp] theorem backslashes_nil : backslashes [] = 0 := rfl

theorem backslashes_append (s t : Text) :
    backslashes (s ++ t) =
      if backslashes t = t.length then backslashes s + t.length else backslashes t := by
  simp only [backslashes, List.rtakeWhile, List.reverse_append, List.takeWhile_append,
    List.length_reverse]
  split <;> simp [Nat.add_comm]

theorem backslashes_cons_of_ne {c : Char} (h : c ≠ '\\') (t : Text) :
    backslashes (c :: t) = backslashes t := by
  have hc : backslashes [c] = 0 := by simp [backslashes, List.rtakeWhile, h]
  have happend := backslashes_append [c] t
  rw [List.singleton_append, hc] at happend
  rw [happend]
  split <;> omega

/-- A backslash and what follows it do not change whether a backslash is left over. -/
theorem odd_backslashes_cons_cons (c : Char) (t : Text) :
    Odd (backslashes ('\\' :: c :: t)) ↔ Odd (backslashes t) := by
  have hpair : Even (backslashes ['\\', c]) := by
    by_cases hc : c = '\\'
    · rw [hc]
      decide
    · simp [backslashes, List.rtakeWhile, hc]
  show Odd (backslashes (['\\', c] ++ t)) ↔ _
  rw [backslashes_append]
  split
  · rename_i hall
    rw [Nat.odd_add', iff_true_right hpair, hall]
  · exact Iff.rfl

end Text

namespace Lexeme

/-! ## Escaped quotes -/

/-- Every `"` in the text is escaped: it follows an odd number of backslashes. -/
def AllEscaped (t : Text) : Prop := ∀ u v, t = u ++ '"' :: v → Odd u.backslashes

/-- Some `"` in the text is not escaped: it follows an even number of backslashes. -/
def Closable (s : Text) : Prop := ∃ u v, s = u ++ '"' :: v ∧ Even u.backslashes

theorem not_closable_iff {s : Text} : ¬Closable s ↔ AllEscaped s := by
  simp only [Closable, AllEscaped, not_exists, not_and, Nat.not_even_iff_odd]

theorem not_allEscaped_quote (t : Text) : ¬AllEscaped ('"' :: t) := by
  intro h
  have hodd := h [] t rfl
  simp at hodd

theorem allEscaped_cons_iff {c : Char} (hslash : c ≠ '\\') (hquote : c ≠ '"') (t : Text) :
    AllEscaped (c :: t) ↔ AllEscaped t := by
  constructor
  · intro h u v ht
    have hodd := h (c :: u) v (by rw [ht]; rfl)
    rwa [Text.backslashes_cons_of_ne hslash] at hodd
  · intro h u v ht
    cases u with
    | nil => exact absurd (List.cons.inj ht).1 hquote
    | cons d u =>
        obtain ⟨rfl, htail⟩ := List.cons.inj ht
        rw [Text.backslashes_cons_of_ne hslash]
        exact h u v htail

/-- What follows a backslash does not matter: if it is a `"`, this is escaped. -/
theorem allEscaped_backslash_iff (c : Char) (t : Text) :
    AllEscaped ('\\' :: c :: t) ↔ AllEscaped t := by
  constructor
  · intro h u v ht
    have hodd := h ('\\' :: c :: u) v (by rw [ht]; rfl)
    rwa [Text.odd_backslashes_cons_cons] at hodd
  · intro h u v ht
    match u with
    | [] => simp at ht
    | [d] =>
        have hd : '\\' = d := (List.cons.inj ht).1
        rw [← hd]
        decide
    | d :: d' :: u =>
        have hd : '\\' = d := (List.cons.inj ht).1
        have htail := List.cons.inj (List.cons.inj ht).2
        rw [← hd, Text.odd_backslashes_cons_cons]
        exact h u v htail.2

/-- A character that a backslash does not escape is neither a backslash nor a `"`. -/
theorem ne_of_escaped?_eq_none {c : Char} (h : escaped? c = none) : c ≠ '\\' ∧ c ≠ '"' := by
  constructor
  · rintro rfl
    cases h
  · rintro rfl
    cases h

/-! ## Escapes undone -/

/-- A text with its escapes undone, from left to right.  A backslash that escapes nothing stays. -/
def unescape : Text → Text
  | [] => []
  | '\\' :: '\\' :: t => '\\' :: unescape t
  | '\\' :: '"' :: t => '"' :: unescape t
  | '\\' :: 'n' :: t => '\n' :: unescape t
  | '\\' :: 't' :: t => '\t' :: unescape t
  | '\\' :: '$' :: t => '$' :: unescape t
  | c :: t => c :: unescape t

/-- The characters that can be escaped, with what they stand for then. -/
theorem escaped?_eq_some_iff {c d : Char} :
    escaped? c = some d ↔ c = '\\' ∧ d = '\\' ∨ c = '"' ∧ d = '"' ∨ c = 'n' ∧ d = '\n' ∨
      c = 't' ∧ d = '\t' ∨ c = '$' ∧ d = '$' := by
  unfold escaped?
  split
  · grind
  · grind

theorem unescape_pair {c d : Char} (h : escaped? c = some d) (t : Text) :
    unescape ('\\' :: c :: t) = d :: unescape t := by
  rcases escaped?_eq_some_iff.1 h with
    ⟨rfl, rfl⟩ | ⟨rfl, rfl⟩ | ⟨rfl, rfl⟩ | ⟨rfl, rfl⟩ | ⟨rfl, rfl⟩ <;> rfl

theorem unescape_ordinary {c : Char} (h : c ≠ '\\') (t : Text) :
    unescape (c :: t) = c :: unescape t := by
  rw [unescape] <;> simp [h]

/-- A backslash stays before what it cannot escape. -/
theorem unescape_backslash {t : Text} (h : ∀ c ∈ t.head?, escaped? c = none) :
    unescape ('\\' :: t) = '\\' :: unescape t := by
  rw [unescape]
  all_goals
    rintro rest - rfl
    cases h _ rfl

/-! ## Escapes passed over -/

theorem doubleQuoted_pair {c d : Char} (h : escaped? c = some d) (t : Text) :
    doubleQuoted ('\\' :: c :: t) = (doubleQuoted t).push [d] ['\\', c] := by
  rw [doubleQuoted, h]

theorem doubleQuoted_backslash {t : Text} (h : ∀ c ∈ t.head?, escaped? c = none) :
    doubleQuoted ('\\' :: t) = (doubleQuoted t).push ['\\'] ['\\'] := by
  cases t with
  | nil => rfl
  | cons c t => rw [doubleQuoted, h c rfl]

/-- What is in front of a quotation is added to what it stands for, its escapes undone.  Nothing may
follow a backslash that is left over. -/
theorem doubleQuoted_append {s t : Text} (hs : AllEscaped s) (ht : Odd s.backslashes → t = []) :
    doubleQuoted (s ++ t) = (doubleQuoted t).push (unescape s) s := by
  fun_induction doubleQuoted s with
  | case1 => rfl
  | case2 rest => exact absurd hs (not_allEscaped_quote rest)
  | case3 c rest d hd ih =>
      rw [allEscaped_backslash_iff] at hs
      rw [Text.odd_backslashes_cons_cons] at ht
      rw [List.cons_append, List.cons_append, doubleQuoted_pair hd, ih hs ht, unescape_pair hd]
      rfl
  | case4 c rest hd ih =>
      obtain ⟨hslash, hquote⟩ := ne_of_escaped?_eq_none hd
      have hlone : ∀ t : Text, ∀ d ∈ (c :: t).head?, escaped? d = none := by
        rintro t d ⟨⟩
        exact hd
      rw [allEscaped_backslash_iff, ← allEscaped_cons_iff hslash hquote] at hs
      rw [Text.odd_backslashes_cons_cons, ← Text.backslashes_cons_of_ne hslash] at ht
      rw [List.cons_append, List.cons_append, doubleQuoted_backslash (hlone _), ← List.cons_append,
        ih hs ht, unescape_backslash (hlone rest)]
      rfl
  | case5 c rest hquote hslash ih =>
      by_cases hc : c = '\\'
      · -- A backslash at the very end is left over, and so nothing follows it.
        subst hc
        cases rest with
        | nil =>
            rw [ht (by decide)]
            rfl
        | cons d rest => exact absurd rfl (hslash d rest rfl)
      · rw [allEscaped_cons_iff hc hquote] at hs
        rw [Text.backslashes_cons_of_ne hc] at ht
        rw [List.cons_append, doubleQuoted_ordinary hc hquote, ih hs ht, unescape_ordinary hc]
        rfl

/-! ## The closing quote -/

/-- The text is closed by the `"` after `inner`: it is not escaped, and it is the first one that is
not. -/
structure ClosedBy (s inner rest : Text) : Prop where
  split : s = inner ++ '"' :: rest
  even : Even inner.backslashes
  first : ¬Closable inner

/-- Of the `"` that are not escaped there is a first one. -/
theorem exists_closedBy {s : Text} (h : Closable s) : ∃ inner rest, ClosedBy s inner rest := by
  obtain ⟨u, v, hs, heven⟩ := h
  induction hn : u.length using Nat.strongRecOn generalizing u v with
  | ind n ih =>
      by_cases hu : Closable u
      · obtain ⟨u', v', hu', heven'⟩ := hu
        refine ih u'.length ?_ u' (v' ++ '"' :: v) ?_ heven' rfl
        · rw [← hn, hu']
          simp
        · rw [hs, hu', List.append_assoc]
          rfl
      · exact ⟨u, v, hs, heven, hu⟩

theorem doubleQuoted_of_closedBy {s inner rest : Text} (h : ClosedBy s inner rest) :
    doubleQuoted s = ⟨unescape inner, inner ++ ['"'], rest, true⟩ := by
  obtain ⟨rfl, heven, hfirst⟩ := h
  rw [doubleQuoted_append (not_closable_iff.1 hfirst)]
  · show Body.push _ _ ⟨[], ['"'], rest, true⟩ = _
    simp [Body.push]
  · intro hodd
    exact absurd heven (Nat.not_even_iff_odd.2 hodd)

theorem doubleQuoted_of_not_closable {s : Text} (h : ¬Closable s) :
    doubleQuoted s = ⟨unescape s, s, [], false⟩ := by
  have hall := doubleQuoted_append (t := []) (not_closable_iff.1 h) (fun _ => rfl)
  simpa [doubleQuoted, Body.push] using hall

/-- Of two backslashes none is left over, of three one is. -/
example : doubleQuoted ['\\', '\\', '"', 'x'] = ⟨['\\'], ['\\', '\\', '"'], ['x'], true⟩ ∧
    doubleQuoted ['\\', '\\', '\\', '"'] = ⟨['\\', '"'], ['\\', '\\', '\\', '"'], [], false⟩ :=
  ⟨rfl, rfl⟩

end Lexeme

/-! ## The token -/

namespace Lexer

/-- A lexer answers a token that is not the end of the text, and goes on as another lexer. It does so
whichever way it is asked. -/
structure Answers (l : Lexer) (t : Token) (l' : Lexer) : Prop where
  nextToken_eq : l.nextToken = (t, l')
  next_eq : l.next = (some t, l')
  tokens_eq_cons : l.tokens = t :: l'.tokens

/-- A lexer that has come to a text answers the first lexeme of it, and goes on with the rest. -/
theorem answers_first (place : Position) (c : Char) (t : Text) :
    Answers ⟨c :: t, place, false⟩ ((Lexeme.first c t).lexeme.at place)
      ⟨(Lexeme.first c t).rest, place.advanceBy (Lexeme.first c t).lexeme.raw, false⟩ where
  nextToken_eq := rfl
  next_eq := by simp [next, nextToken, Lexeme.at, Lexeme.first_kind_ne_eof]
  tokens_eq_cons := Token.tokensFrom_cons place c t

/-- The token that begins with a `"`, for all that may follow.  If some `"` there is not escaped, the
first such one closes the quotation, and the lexer goes on behind it.  If none is, all of the text is
a fault, and what comes after it is only the end of the text. -/
theorem answers_double (place : Position) (s : Text) :
    (Lexeme.Closable s → ∃ inner rest, Lexeme.ClosedBy s inner rest ∧
      Answers ⟨'"' :: s, place, false⟩
        ⟨.quoted .double, '"' :: inner ++ ['"'], Lexeme.unescape inner, place⟩
        ⟨rest, place.advanceBy ('"' :: inner ++ ['"']), false⟩) ∧
    (¬Lexeme.Closable s → ∃ l : Lexer,
      Answers ⟨'"' :: s, place, false⟩
        ⟨.fault .unterminatedString, '"' :: s, Lexeme.unescape s, place⟩ l ∧
      l.nextToken = (Token.eofAt (place.advanceBy ('"' :: s)), l) ∧
      l.tokens = [Token.eofAt (place.advanceBy ('"' :: s))]) := by
  have hfirst := answers_first place '"' s
  rw [Lexeme.first_double] at hfirst
  constructor
  · intro h
    obtain ⟨inner, rest, hclosed⟩ := Lexeme.exists_closedBy h
    rw [Lexeme.doubleQuoted_of_closedBy hclosed] at hfirst
    exact ⟨inner, rest, hclosed, hfirst⟩
  · intro h
    rw [Lexeme.doubleQuoted_of_not_closable h] at hfirst
    exact ⟨_, hfirst, rfl, Token.tokensFrom_nil _⟩

end Lexer

end PrefixShell
