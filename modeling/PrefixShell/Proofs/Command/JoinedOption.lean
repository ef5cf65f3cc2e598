import PrefixShell.Proofs.Command.Terminator
import PrefixShell.Proofs.Word.Substitution

/-!
# Options in one token

The lexer ends an option at a `=`, but tokens need not come from the lexer.  An option whose text holds
a `=` is split there by the parser, and it means nearly the same as the three tokens that it could have
been: the option, the `=` and the value.

Nearly, for a `~` is minded only in the first piece of a word, and which piece is the first depends on
the form.  In one token the text of the value leads nowhere, and a piece glued to it is taken for the
first of a word.  In three tokens the value is the first piece, and what is glued to it is not.  After a
`--` the whole is an argument; then its first piece is all of the token in one form, and in the other
the option alone.

## Main results

* `ofPart_positional_split`, `ofPart_binding_split`: where the two forms come to the same items.
* `flatMap_ofWords_split`: the same among other words.
* `parse_split`: the command does not depend on the form, unless there is a `~` at a seam.
* `joined_tilde`: a value that is the home directory in three tokens, and is not in one.
-/

namespace PrefixShell

theorem Word.ofTokens_append_blank {b : Token} (hb : b.kind = .blank) (ts us : List Token) :
    ofTokens (ts ++ b :: us) = ofTokens ts ++ ofTokens us := by
  rw [ofTokens, List.splitOnP_append_cons ts us (decide_eq_true hb), List.filter_append]
  rfl

/-- What is glued to the front of tokens does not depend on the front. -/
theorem Word.exists_glued (ts : List Token) :
    ∃ (w : Word) (rest : List Word), (∀ x ∈ w.head?, x ∈ ts.head? ∧ x.kind ≠ .blank) ∧
      ∀ front : Word, front ≠ [] → (∀ x ∈ front, x.kind ≠ .blank) →
        ofTokens (front ++ ts) = (front ++ w) :: rest := by
  let solid : Token → Bool := fun x => x.kind ≠ .blank
  refine ⟨ts.takeWhile solid, ofTokens (ts.dropWhile solid), ?_, ?_⟩
  · intro x hx
    rw [List.head?_takeWhile, Option.mem_filter_iff] at hx
    exact ⟨hx.1, of_decide_eq_true hx.2⟩
  · intro front hne hfront
    have hword : ∀ x ∈ front ++ ts.takeWhile solid, x.kind ≠ .blank := by
      intro x hx
      rcases List.mem_append.1 hx with hx | hx
      · exact hfront x hx
      · exact of_decide_eq_true (List.mem_takeWhile_imp (p := solid) hx)
    have hblank : ∀ x ∈ (ts.dropWhile solid).head?, x.kind = .blank := by
      intro x hx
      have hends := List.head?_dropWhile_not solid ts
      rw [hx] at hends
      simpa [solid] using hends
    rw [← ofTokens_append (by simp [hne]) hword hblank, List.append_assoc,
      List.takeWhile_append_dropWhile]

/-- The text before the first `=` has none in it. -/
theorem Part.splitAtEquals?_append {s : Text} (hs : '=' ∉ s) (r : Text) :
    splitAtEquals? (s ++ '=' :: r) = some (s, r) := by
  have hstops : Text.Stops (fun c => decide (c ≠ '=')) ('=' :: r) := .cons (by decide) r
  have hall : ∀ c ∈ s, decide (c ≠ '=') = true := by
    intro c hc
    refine decide_eq_true ?_
    rintro rfl
    exact hs hc
  rw [splitAtEquals?, hstops.dropWhile_append hall, hstops.takeWhile_append hall]

namespace Expansion

/-- A text that goes on with a `=` leads home where it did before, unless it was a lone `~`. -/
theorem afterTilde?_append {s : Text} (hs : s ≠ ['~']) (t : Text) :
    afterTilde? (s ++ '=' :: t) = (afterTilde? s).map (· ++ '=' :: t) := by
  match s with
  | [] => exact afterTilde?_of_ne (by decide) t
  | [c] =>
      have hc : c ≠ '~' := fun h => hs (congrArg (fun d => [d]) h)
      rw [afterTilde?_of_ne hc]
      exact afterTilde?_of_ne hc _
  | c :: d :: s =>
      by_cases hc : c = '~'
      · subst hc
        by_cases hd : d = '/' <;> simp [afterTilde?, hd]
      · rw [afterTilde?_of_ne hc]
        exact afterTilde?_of_ne hc _

/-- The first piece of a word that leads nowhere stands for the same as one further back. -/
theorem piece_of_head {e : Expansion} {x : Token} (hx : x.IsPiece)
    (hhome : e.mindsTilde x = true → ¬x.literal.Homeward) : e.piece true x = e.piece false x := by
  rw [e.piece_leading hx, e.piece_inner hx]
  cases hminds : e.mindsTilde x with
  | false => rfl
  | true =>
      rw [if_pos rfl, e.tilde_of_not_homeward (hhome hminds),
        e.substitutedPiece_of_mindsTilde hminds]

end Expansion

/-! ## The two forms -/

/-- A token with an option, a `=` and a value in it, and the three tokens that it could have been. -/
structure Token.Splits (t o q u : Token) (option value : Text) : Prop where
  kind : t.kind = .option
  literal : t.literal = option ++ '=' :: value
  spelled : '=' ∉ option
  option_kind : o.kind = .option
  option_literal : o.literal = option
  equals_kind : q.kind = .equals
  equals_literal : q.literal = ['=']
  value_kind : u.kind = .word
  value_literal : u.literal = value

section Forms

variable {t o q u : Token} {option value : Text} (h : t.Splits o q u option value)

include h

namespace Word

theorem isQuoted_split (w : Word) : isQuoted (o :: q :: u :: w) = isQuoted (t :: w) := by
  simp [isQuoted, Token.isQuoted, h.kind, h.option_kind, h.equals_kind, h.value_kind]

theorem hasTypedWildcard_split (w : Word) :
    hasTypedWildcard (o :: q :: u :: w) = hasTypedWildcard (t :: w) := by
  have hsign : Glob.hasWildcard ['='] = false := by decide
  have hjoined : Glob.hasWildcard (option ++ '=' :: value) =
      (Glob.hasWildcard option || Glob.hasWildcard value) := by
    simp [Glob.hasWildcard, Glob.isWildcard]
  simp [hasTypedWildcard, isTyped, h.kind, h.literal, h.option_kind, h.option_literal,
    h.equals_kind, h.equals_literal, h.value_kind, h.value_literal, hsign, hjoined, Bool.or_assoc]

end Word

namespace Expansion

variable (e : Expansion) (hoption : option ≠ ['~'])

include hoption

theorem word_split (w : Word) : e.word (o :: q :: u :: w) = e.word (t :: w) := by
  have htilde : e.tilde (option ++ '=' :: value) = e.tilde option ++ '=' :: value := by
    rw [tilde, tilde, afterTilde?_append hoption]
    cases afterTilde? option <;> simp
  simp [word, piece, h.kind, h.literal, h.option_kind, h.option_literal, h.equals_kind,
    h.equals_literal, h.value_kind, h.value_literal, htilde]

theorem pattern_split (w : Word) : e.pattern (o :: q :: u :: w) = e.pattern (t :: w) := by
  have hpiece : e.patternPiece true t = e.patternPiece true o ++ '=' :: value := by
    simp only [patternPiece, h.kind, h.option_kind, h.literal, h.option_literal, if_true,
      afterTilde?_append hoption]
    cases afterTilde? option <;> simp
  have hsign : e.patternPiece false q = ['='] := by
    simp [patternPiece, h.equals_kind, h.equals_literal]
  have hvalue : e.patternPiece false u = value := by
    simp [patternPiece, h.value_kind, h.value_literal]
  simp [pattern, hpiece, hsign, hvalue]

end Expansion

namespace Part

variable (w : Word) (ws : List Word)

theorem ofWords_joined_token :
    ofWords ((t :: w) :: ws) = .binding option value w :: ofWords ws := by
  have hsplit : splitAtEquals? t.literal = some (option, value) := by
    rw [h.literal]
    exact splitAtEquals?_append h.spelled value
  have hoption : ofOption t.literal w ws = some (.binding option value w, ws) := by
    simp only [ofOption, hsplit]
  refine ofWords_option h.kind ?_ hoption
  rintro ⟨hdashes, -⟩
  rw [hdashes] at hsplit
  cases hsplit

theorem ofWords_split_tokens :
    ofWords ((o :: q :: u :: w) :: ws) = .binding option [] (u :: w) :: ofWords ws := by
  have hspelling : splitAtEquals? o.literal = none := by
    rw [h.option_literal]
    exact splitAtEquals?_eq_none h.spelled
  rw [ofWords_option h.option_kind (by simp) (ofOption_equals hspelling h.equals_kind),
    h.option_literal]
  rfl

end Part

namespace Item

variable (e : Expansion) (matching : Text → List Text) {w : Word}

/-- As an argument the two forms are the same, unless the option is a lone `~`. -/
theorem ofPart_positional_split (hoption : option ≠ ['~']) :
    ofPart e matching (.positional (o :: q :: u :: w)) =
      ofPart e matching (.positional (t :: w)) := by
  simp only [ofPart, Expansion.pattern?, Word.isQuoted_split h, Word.hasTypedWildcard_split h,
    e.word_split h hoption, e.pattern_split h hoption]

/-- As an option with its value they are the same, unless the value leads home or what is glued to it
does. -/
theorem ofPart_binding_split (hvalue : ¬value.Homeward)
    (hglued : ∀ x ∈ w.head?, e.piece true x = e.piece false x) :
    ofPart e matching (.binding option [] (u :: w)) =
      ofPart e matching (.binding option value w) := by
  have hfirst : e.piece true u = value := by
    simp [Expansion.piece, h.value_kind, h.value_literal, e.tilde_of_not_homeward hvalue]
  have hrest : e.word w = w.flatMap (e.piece false) := by
    cases w with
    | nil => rfl
    | cons x w => rw [Expansion.word, hglued x rfl, List.flatMap_cons]
  rw [ofPart, ofPart, List.nil_append, Expansion.word, hfirst, hrest]

/-- Among other words the two forms come to the same items, if no `~` stands at a seam. -/
theorem flatMap_ofWords_split {ws rest : List Word}
    (hargument : (∃ v ∈ ws, Word.isTerminator [v] = true) → option ≠ ['~'])
    (hbinding : (¬∃ v ∈ ws, Word.isTerminator [v] = true) →
      ¬value.Homeward ∧ ∀ x ∈ w.head?, e.piece true x = e.piece false x) :
    (Part.ofWords (ws ++ (o :: q :: u :: w) :: rest)).flatMap (ofPart e matching) =
      (Part.ofWords (ws ++ (t :: w) :: rest)).flatMap (ofPart e matching) := by
  by_cases hends : ∃ v ∈ ws, Word.isTerminator [v] = true
  · rw [Part.ofWords_append_terminated hends, Part.ofWords_append_terminated hends]
    simp only [List.flatMap_append, List.map_cons, List.flatMap_cons,
      ofPart_positional_split h e matching (hargument hends)]
  · have hopen : ∀ v ∈ ws, Word.isTerminator [v] = false := by simpa using hends
    obtain ⟨hvalue, hglued⟩ := hbinding hends
    have hjoined : ∀ v ∈ ((t :: w) :: rest).head?, Part.begins .option v = true := by
      rintro v ⟨⟩
      simp [Part.begins, h.kind]
    have hsplit : ∀ v ∈ ((o :: q :: u :: w) :: rest).head?, Part.begins .option v = true := by
      rintro v ⟨⟩
      simp [Part.begins, h.option_kind]
    rw [Part.ofWords_append hjoined hopen, Part.ofWords_append hsplit hopen,
      Part.ofWords_joined_token h, Part.ofWords_split_tokens h]
    simp only [List.flatMap_append, List.flatMap_cons,
      ofPart_binding_split h e matching hvalue hglued]

end Item

end Forms

/-! ## Tokens -/

namespace Command

variable {e : Expansion} {matching : Text → List Text}

/-- Tokens with the same first fault whose words make the same command. -/
theorem parse_retyped {ts us : List Token}
    (hfaults : firstFault? (readable us) = firstFault? (readable ts))
    (hwords : firstFault? (readable ts) = none →
      ofTypedWords e matching (Token.rawText us) (Word.ofTokens (readable us)) =
        ofTypedWords e matching (Token.rawText us) (Word.ofTokens (readable ts))) :
    parse e matching us =
      (parse e matching ts).map (Option.map (·.typedAs (Token.rawText us))) := by
  rw [parse_eq e matching us, parse_eq e matching ts, hfaults]
  cases hnone : firstFault? (readable ts) with
  | some error => rfl
  | none =>
      rw [hwords hnone]
      cases Word.ofTokens (readable ts) <;> rfl

/-- What follows the end of the line is not read. -/
theorem readable_append_of_ended {ts : List Token} (h : ∃ x ∈ ts, x.endsLine = true)
    (us : List Token) : readable (ts ++ us) = readable ts := by
  obtain ⟨before, x, after, rfl, hx, hsolid⟩ := exists_split_at_first h
  rw [List.append_assoc, List.cons_append, readable_append_of_solid hsolid,
    readable_append_of_solid hsolid, readable_cons_of_endsLine hx, readable_cons_of_endsLine hx]

/-- Whether a `--` by itself is among the words after the name. -/
def Terminated (before : List Token) : Prop :=
  ∃ w ∈ (Word.ofTokens before).tail, Word.isTerminator [w] = true

/-- What it is for no `~` to stand at a seam of an option, a `=` and a value, where the form makes a
difference to it. -/
structure Seamless (e : Expansion) (before after : List Token) (option value : Text) : Prop where
  /-- After a `--` the option is the first piece of an argument. -/
  option : Terminated before → option ≠ ['~']
  value : ¬Terminated before → ¬value.Homeward
  /-- The piece that is glued to the value. -/
  glued : ¬Terminated before → ∀ x ∈ after.head?, x.IsPiece → e.mindsTilde x = true →
    ¬x.literal.Homeward

variable {b t o q u : Token} {option value : Text} {before after : List Token}

/-- The words of either form make the same command. -/
theorem ofTypedWords_split (h : t.Splits o q u option value) (hb : b.kind = .blank)
    (hname : ∃ x ∈ before, x.kind ≠ .blank) (hseam : Seamless e before after option value)
    (hfaults : ∀ x ∈ readable after, x.fault? = none) (line : Text) :
    ofTypedWords e matching line (Word.ofTokens (before ++ b :: o :: q :: u :: readable after)) =
      ofTypedWords e matching line (Word.ofTokens (before ++ b :: t :: readable after)) := by
  obtain ⟨first, ws, hws⟩ : ∃ first ws, Word.ofTokens before = first :: ws := by
    refine List.exists_cons_of_ne_nil fun hnil => ?_
    obtain ⟨x, hx, hkind⟩ := hname
    exact hkind (Word.ofTokens_eq_nil_iff.1 hnil x hx)
  obtain ⟨w, rest, hglued, hwords⟩ := Word.exists_glued (readable after)
  have hjoined : Word.ofTokens (t :: readable after) = (t :: w) :: rest :=
    hwords [t] (by simp) (by simp [h.kind])
  have hsplit : Word.ofTokens (o :: q :: u :: readable after) = (o :: q :: u :: w) :: rest :=
    hwords [o, q, u] (by simp) (by simp [h.option_kind, h.equals_kind, h.value_kind])
  have hterminated : Terminated before ↔ ∃ v ∈ ws, Word.isTerminator [v] = true := by
    rw [Terminated, hws, List.tail_cons]
  have hpiece : ¬Terminated before → ∀ x ∈ w.head?, e.piece true x = e.piece false x := by
    intro hopen x hx
    obtain ⟨hhead, hkind⟩ := hglued x hx
    have hread := List.mem_of_mem_head? hhead
    have hpiece : x.IsPiece := isPiece_of_mem_readable hread hkind (hfaults x hread)
    rw [readable, List.head?_takeWhile, Option.mem_filter_iff] at hhead
    exact Expansion.piece_of_head hpiece (hseam.glued hopen x hhead.1 hpiece)
  have hitems : (Part.ofWords (ws ++ (o :: q :: u :: w) :: rest)).flatMap (Item.ofPart e matching) =
      (Part.ofWords (ws ++ (t :: w) :: rest)).flatMap (Item.ofPart e matching) := by
    refine Item.flatMap_ofWords_split h e matching ?_ ?_
    · exact fun hends => hseam.option (hterminated.2 hends)
    · exact fun hopen => ⟨hseam.value (mt hterminated.1 hopen), hpiece (mt hterminated.1 hopen)⟩
  rw [Word.ofTokens_append_blank hb, Word.ofTokens_append_blank hb, hws, hjoined, hsplit,
    List.cons_append, List.cons_append, ofTypedWords, hitems, ofTypedWords]

/-- An option in one token means the same as the option, the `=` and the value in three, unless there is
a `~` at a seam of them. -/
theorem parse_split (h : t.Splits o q u option value) (hb : b.isSeparator = true)
    (hname : ∃ x ∈ before, x.kind ≠ .blank)
    (hseam : (∀ x ∈ before ++ [b], x.endsLine = false) → Seamless e before after option value) :
    parse e matching (before ++ b :: o :: q :: u :: after) =
      (parse e matching (before ++ b :: t :: after)).map
        (Option.map (·.typedAs (Token.rawText (before ++ b :: o :: q :: u :: after)))) := by
  by_cases hline : ∀ x ∈ before ++ [b], x.endsLine = false
  · have hread : ∀ x ∈ before, x.endsLine = false := fun x hx => hline x (by simp [hx])
    have hblank : b.endsLine = false := hline b (by simp)
    have hb : b.kind = .blank := by
      rw [Token.endsLine, Bool.or_eq_false_iff] at hblank
      simpa [Token.isSeparator, hblank.1, hblank.2] using hb
    have hjoined : readable (before ++ b :: t :: after) = before ++ b :: t :: readable after := by
      rw [readable_append_of_solid hread, readable_cons_of_solid hblank,
        readable_cons_of_solid (by simp [Token.endsLine, h.kind])]
    have hsplit : readable (before ++ b :: o :: q :: u :: after) =
        before ++ b :: o :: q :: u :: readable after := by
      rw [readable_append_of_solid hread, readable_cons_of_solid hblank,
        readable_cons_of_solid (by simp [Token.endsLine, h.option_kind]),
        readable_cons_of_solid (by simp [Token.endsLine, h.equals_kind]),
        readable_cons_of_solid (by simp [Token.endsLine, h.value_kind])]
    refine parse_retyped ?_ ?_
    · have hnone : t.fault? = none ∧ o.fault? = none ∧ q.fault? = none ∧ u.fault? = none := by
        simp [Token.fault?, h.kind, h.option_kind, h.equals_kind, h.value_kind]
      rw [hjoined, hsplit]
      simp [firstFault?, List.findSome?_append, List.findSome?_cons, hnone]
    · intro hnone
      rw [hjoined, firstFault?_eq_none_iff] at hnone
      rw [hjoined, hsplit]
      exact ofTypedWords_split h hb hname (hseam hline) (fun x hx => hnone x (by simp [hx])) _
  · have hended : ∃ x ∈ before ++ [b], x.endsLine = true := by simpa using hline
    have hsame : readable (before ++ b :: o :: q :: u :: after) =
        readable (before ++ b :: t :: after) := by
      rw [List.append_cons before b (o :: q :: u :: after), List.append_cons before b (t :: after),
        readable_append_of_ended hended, readable_append_of_ended hended]
    exact parse_retyped (by rw [hsame]) (fun _ => by rw [hsame])

/-- A token that stands for the text it was read from. -/
def typedToken (kind : TokenKind) (t : Text) : Token := ⟨kind, t, t, .start⟩

/-- The name of a command and a blank, and after them more tokens. -/
def copying (ts : List Token) : List Token :=
  typedToken .word "cp".toList :: typedToken .blank [' '] :: ts

/-- A value with a variable glued to it is the same in one token and in three. -/
theorem parse_split_user :
    ∃ c, parse Expansion.homeOfMe (fun _ => []) (copying [typedToken .option "--to=a/".toList,
          typedToken .variable "USER".toList]) = .ok (some c) ∧
      c.bindings = [("--to".toList, "a/bob".toList)] ∧
      parse Expansion.homeOfMe (fun _ => []) (copying [typedToken .option "--to".toList,
          typedToken .equals ['='], typedToken .word "a/".toList,
          typedToken .variable "USER".toList]) =
        .ok (some (c.typedAs "cp --to=a/USER".toList)) := by
  obtain ⟨c, hc, hbindings⟩ : ∃ c, parse Expansion.homeOfMe (fun _ => [])
        (copying [typedToken .option "--to=a/".toList, typedToken .variable "USER".toList]) =
          .ok (some c) ∧
      c.bindings = [("--to".toList, "a/bob".toList)] :=
    ⟨_, by cbv, by cbv⟩
  have hsplits : Token.Splits (typedToken .option "--to=a/".toList)
      (typedToken .option "--to".toList) (typedToken .equals ['='])
      (typedToken .word "a/".toList) "--to".toList "a/".toList :=
    ⟨rfl, rfl, by decide, rfl, rfl, rfl, rfl, rfl, rfl⟩
  have hsame := @parse_split Expansion.homeOfMe (fun _ => []) (typedToken .blank [' ']) _ _ _ _ _ _
    [typedToken .word "cp".toList] [typedToken .variable "USER".toList] hsplits rfl
    ⟨_, List.mem_singleton_self _, by decide⟩
    (fun _ => ⟨fun _ => by decide, fun _ => by decide, fun _ => by decide⟩)
  refine ⟨c, hc, hbindings, hsame.trans ?_⟩
  exact congrArg (Except.map (Option.map (·.typedAs "cp --to=a/USER".toList))) hc

/-- In one token the value `~/x` is no path in the home directory, and in three it is. -/
theorem joined_tilde :
    Token.Splits (typedToken .option "--to=~/x".toList) (typedToken .option "--to".toList)
        (typedToken .equals ['=']) (typedToken .word "~/x".toList) "--to".toList "~/x".toList ∧
      (∃ c, parse Expansion.homeOfMe (fun _ => [])
          (copying [typedToken .option "--to=~/x".toList]) = .ok (some c) ∧
        c.bindings = [("--to".toList, "~/x".toList)]) ∧
      ∃ c, parse Expansion.homeOfMe (fun _ => [])
          (copying [typedToken .option "--to".toList, typedToken .equals ['='],
            typedToken .word "~/x".toList]) = .ok (some c) ∧
        c.bindings = [("--to".toList, "/home/me/x".toList)] := by
  refine ⟨?_, ⟨_, by cbv, by cbv⟩, _, by cbv, by cbv⟩
  exact ⟨rfl, rfl, by decide, rfl, rfl, rfl, rfl, rfl, rfl⟩

end Command

end PrefixShell
