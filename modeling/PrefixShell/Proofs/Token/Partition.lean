import Mathlib.Data.List.DropRight
import PrefixShell.Proofs.Token.Reading
import PrefixShell.Token.Lexer

/-!
# Tokens partition their text

The tokens of a line cut it into pieces: put together again the pieces are the line, none but the
last is empty, and each of them says where it was cut out.

The lexer carries a place along, character after character, while the statements here count the
characters of what stands before a token.  The two meet in `start_advanceBy`.  All the rest follows
from `tokensFrom_split`: the tokens after any point of the list are the tokens of what is left of
the text there.

## Main results

* `start_advanceBy`: going through a text comes to the place that counting gives.
* `tokensFrom_split`: a list of tokens, cut in two, cuts its text in two.
* `tokensFrom_ends`: the end of the text is the last token, and nothing else is.
* `ofLine_partitions`: the tokens of a line partition it.
-/

namespace PrefixShell

/-! ## Places by counting -/

/-- The characters of a text after its last line break. -/
def Text.lastLine (t : Text) : Text := t.rtakeWhile (· ≠ '\n')

namespace Position

/-- The place after a text: its line breaks, the characters after the last of these, and its bytes,
each of them counted. -/
def after (t : Text) : Position := ⟨1 + t.count '\n', 1 + t.lastLine.length, t.byteLength⟩

theorem after_concat (t : Text) (c : Char) : after (t ++ [c]) = (after t).advance c := by
  have hbytes : Text.byteLength (t ++ [c]) = t.byteLength + c.utf8Size := by
    rw [Text.byteLength_append, Text.byteLength_cons, Text.byteLength_nil, Nat.add_zero]
  by_cases h : c = '\n'
  · have hline : Text.lastLine (t ++ [c]) = [] :=
      List.rtakeWhile_concat_neg _ _ c (by simp [h])
    rw [after, hline, hbytes, List.count_append, h]
    simp [advance, after, Nat.add_assoc]
  · have hline : Text.lastLine (t ++ [c]) = t.lastLine ++ [c] :=
      List.rtakeWhile_concat_pos _ _ c (by simp [h])
    have hcount : [c].count '\n' = 0 := List.count_eq_zero.2 (by simpa using Ne.symm h)
    rw [after, hline, hbytes, List.count_append, hcount]
    simp [advance, after, h, Nat.add_assoc]

/-- Going through a text character by character comes to the place that counting gives. -/
theorem start_advanceBy (t : Text) : start.advanceBy t = after t := by
  induction t using List.reverseRecOn with
  | nil => rfl
  | append_singleton t c ih =>
      rw [advanceBy_append, ih, after_concat]
      rfl

end Position

namespace Token

@[simp] theorem rawText_nil : rawText [] = [] := rfl

@[simp] theorem rawText_cons (t : Token) (ts : List Token) :
    rawText (t :: ts) = t.raw ++ rawText ts := rfl

@[simp] theorem rawText_append (ts us : List Token) :
    rawText (ts ++ us) = rawText ts ++ rawText us :=
  List.flatMap_append

/-! ## Cutting a list of tokens -/

/-- A list of tokens, cut in two, cuts its text in two: the tokens after the cut are those of the
text after the cut, read from the place that the cut has. -/
theorem tokensFrom_split {p : Position} {text : Text} {before : List Token} {t : Token}
    {after : List Token} (h : tokensFrom p text = before ++ t :: after) :
    ∃ rest, text = rawText before ++ rest ∧
      tokensFrom (p.advanceBy (rawText before)) rest = t :: after := by
  induction before generalizing p text with
  | nil => exact ⟨text, rfl, h⟩
  | cons b before ih =>
      cases text with
      | nil =>
          rw [tokensFrom_nil, List.cons_append] at h
          have hnil := (List.cons.inj h).2
          simp at hnil
      | cons c text =>
          rw [tokensFrom_cons, List.cons_append] at h
          obtain ⟨rfl, htail⟩ := List.cons.inj h
          obtain ⟨rest, hrest, htokens⟩ := ih htail
          refine ⟨rest, ?_, ?_⟩
          · rw [rawText_cons, List.append_assoc, ← hrest]
            exact (Lexeme.first_raw_append_rest c text).symm
          · rw [rawText_cons, Position.advanceBy_append]
            exact htokens

/-- Every token of a text but its end is the first one of what is left of the text there. -/
theorem exists_first_of_mem {p : Position} {text : Text} {t : Token}
    (h : t ∈ tokensFrom p text) :
    (∃ c rest place, t = (Lexeme.first c rest).lexeme.at place) ∨ ∃ place, t = eofAt place := by
  fun_induction tokensFrom p text with
  | case1 p => exact .inr ⟨p, List.mem_singleton.1 h⟩
  | case2 p c text r ih =>
      rcases List.mem_cons.1 h with rfl | h
      · exact .inl ⟨c, text, p, rfl⟩
      · exact ih h

/-- The first token of a text begins where the text does. -/
theorem position_of_tokensFrom_eq_cons {p : Position} {text : Text} {t : Token}
    {after : List Token} (h : tokensFrom p text = t :: after) : t.position = p := by
  cases text with
  | nil =>
      rw [tokensFrom_nil] at h
      rw [← (List.cons.inj h).1]
      rfl
  | cons c text =>
      rw [tokensFrom_cons] at h
      rw [← (List.cons.inj h).1]
      rfl

/-- A token begins at the place after the texts of the tokens before it. -/
theorem position_of_split {p : Position} {text : Text} {before : List Token} {t : Token}
    {after : List Token} (h : tokensFrom p text = before ++ t :: after) :
    t.position = p.advanceBy (rawText before) := by
  obtain ⟨rest, -, hrest⟩ := tokensFrom_split h
  exact position_of_tokensFrom_eq_cons hrest

/-! ## The end of the text -/

/-- The end of the text is the last token; the others are read from something and are not the end. -/
theorem tokensFrom_ends (p : Position) (text : Text) :
    ∃ body, tokensFrom p text = body ++ [eofAt (p.advanceBy text)] ∧
      ∀ t ∈ body, t.kind ≠ .eof ∧ t.raw ≠ [] := by
  fun_induction tokensFrom p text with
  | case1 p => exact ⟨[], rfl, by simp⟩
  | case2 p c text r ih =>
      obtain ⟨body, hbody, hall⟩ := ih
      refine ⟨r.lexeme.at p :: body, ?_, ?_⟩
      · rw [hbody, ← Position.advanceBy_append, Lexeme.first_raw_append_rest]
        rfl
      · intro t ht
        rcases List.mem_cons.1 ht with rfl | ht
        · exact ⟨Lexeme.first_kind_ne_eof c text, Lexeme.first_raw_ne_nil c text⟩
        · exact hall t ht

/-- After a fault there is only the end of the text, and the fault has taken all before it. -/
theorem after_of_fault {p : Position} {text : Text} {before : List Token} {t : Token}
    {after : List Token} {cause : Fault} (h : tokensFrom p text = before ++ t :: after)
    (hfault : t.kind = .fault cause) :
    after = [eofAt (p.advanceBy text)] ∧ rawText before ++ t.raw = text := by
  obtain ⟨rest, htext, hrest⟩ := tokensFrom_split h
  cases rest with
  | nil =>
      rw [tokensFrom_nil] at hrest
      rw [← (List.cons.inj hrest).1] at hfault
      cases hfault
  | cons c rest =>
      rw [tokensFrom_cons] at hrest
      obtain ⟨rfl, hafter⟩ := List.cons.inj hrest
      have hnil : (Lexeme.first c rest).rest = [] := Lexeme.rest_of_fault hfault
      have hraw : (Lexeme.first c rest).lexeme.raw = c :: rest := by
        have hall := Lexeme.first_raw_append_rest c rest
        rwa [hnil, List.append_nil] at hall
      refine ⟨?_, ?_⟩
      · rw [← hafter, hnil, tokensFrom_nil, hraw, htext, Position.advanceBy_append]
      · rw [htext]
        exact congrArg (rawText before ++ ·) hraw

/-! ## Partitions -/

/-- What it is for tokens to partition a line. -/
structure Partitions (ts : List Token) (line : Text) : Prop where
  rawText_eq : rawText ts = line
  /-- The end of the text is the last token and no other one, and it alone is read from nothing. -/
  ends : ∃ body place, ts = body ++ [eofAt place] ∧ ∀ t ∈ body, t.kind ≠ .eof ∧ t.raw ≠ []
  /-- After a fault there is only the end of the text, so that it reaches to the end of the line. -/
  fault_ends : ∀ before t after cause, ts = before ++ t :: after → t.kind = .fault cause →
    (∃ place, after = [eofAt place]) ∧ rawText before ++ t.raw = line
  /-- A token begins where counting the characters before it says. -/
  position_eq : ∀ before t after, ts = before ++ t :: after →
    t.position = .after (rawText before)

/-- The tokens of a line partition it, whatever is wrong with the line. -/
theorem ofLine_partitions (line : Text) : Partitions (ofLine line) line where
  rawText_eq := rawText_tokensFrom .start line
  ends := by
    obtain ⟨body, hbody, hall⟩ := tokensFrom_ends .start line
    exact ⟨body, _, hbody, hall⟩
  fault_ends := by
    intro before t after cause h hfault
    obtain ⟨hafter, hraw⟩ := after_of_fault h hfault
    exact ⟨⟨_, hafter⟩, hraw⟩
  position_eq := by
    intro before t after h
    rw [position_of_split h, Position.start_advanceBy]

end Token

end PrefixShell
