import PrefixShell.Command.Parse
import PrefixShell.Proofs.Token.Sequence

/-!
# Places do not matter

A token says where it begins, and the parser uses this for one thing: to say where a line is
faulty.  Whatever else it does, it does the same to the tokens with their places forgotten.

So a statement about the command of a line may take the lexemes of the line (`Lexeme.ofText`) for
its tokens and need not say where each of them stands.

## Main results

* `ofTokens_unplaced`, `ofWords_unplaced`, `ofPart_unplaced`: each stage of the parser commutes with
  forgetting the places.
* `toOption_parse_unplaced`: without places, tokens make the same command.
* `parseLine_of_lexemes`: the command of a line is the one that its lexemes make.
-/

namespace PrefixShell

namespace Token

@[simp] theorem kind_unplaced (t : Token) : t.unplaced.kind = t.kind := rfl

@[simp] theorem literal_unplaced (t : Token) : t.unplaced.literal = t.literal := rfl

@[simp] theorem fault?_unplaced (t : Token) : t.unplaced.fault? = t.fault? := rfl

theorem rawText_unplaced (ts : List Token) : rawText (ts.map unplaced) = rawText ts := by
  rw [rawText, List.flatMap_map]
  rfl

end Token

/-! ## Words -/

namespace Word

/-- A word without the places of its tokens. -/
def unplaced (w : Word) : Word := w.map Token.unplaced

@[simp] theorem unplaced_nil : unplaced [] = [] := rfl

@[simp] theorem unplaced_cons (t : Token) (w : Word) :
    unplaced (t :: w) = t.unplaced :: unplaced w := rfl

private theorem splitOnP_unplaced (ts : List Token) :
    (ts.map Token.unplaced).splitOnP (·.kind = .blank) =
      (ts.splitOnP (·.kind = .blank)).map unplaced := by
  induction ts with
  | nil => rfl
  | cons t ts ih =>
      rw [List.map_cons, List.splitOnP_cons_eq_if_modifyHead, List.splitOnP_cons_eq_if_modifyHead,
        ih, Token.kind_unplaced]
      split
      · rfl
      · cases ts.splitOnP (·.kind = .blank) <;> rfl

theorem ofTokens_unplaced (ts : List Token) :
    ofTokens (ts.map Token.unplaced) = (ofTokens ts).map unplaced := by
  have hempty : (fun w : Word => !w.isEmpty) ∘ unplaced = fun w => !w.isEmpty := by
    funext w
    cases w <;> rfl
  rw [ofTokens, splitOnP_unplaced, List.filter_map, hempty]
  rfl

theorem isQuoted_unplaced (w : Word) : w.unplaced.isQuoted = w.isQuoted := by
  rw [isQuoted, unplaced, List.any_map]
  rfl

theorem hasTypedWildcard_unplaced (w : Word) :
    w.unplaced.hasTypedWildcard = w.hasTypedWildcard := by
  rw [hasTypedWildcard, unplaced, List.any_map]
  rfl

end Word

namespace Expansion

variable (e : Expansion) (w : Word)

theorem word_unplaced : e.word w.unplaced = e.word w := by
  cases w with
  | nil => rfl
  | cons t w =>
      rw [Word.unplaced_cons, word, Word.unplaced, List.flatMap_map]
      rfl

theorem pattern_unplaced : e.pattern w.unplaced = e.pattern w := by
  cases w with
  | nil => rfl
  | cons t w =>
      rw [Word.unplaced_cons, pattern, Word.unplaced, List.flatMap_map]
      rfl

theorem pattern?_unplaced : e.pattern? w.unplaced = e.pattern? w := by
  rw [pattern?, pattern?, Word.isQuoted_unplaced, Word.hasTypedWildcard_unplaced,
    pattern_unplaced]

end Expansion

/-! ## Parts -/

namespace Part

/-- A part without the places of its tokens. -/
def unplaced : Part → Part
  | positional w => positional w.unplaced
  | binding option typed value => binding option typed value.unplaced
  | flag spelling => flag spelling
  | endOfOptions => endOfOptions

private theorem begins_unplaced (kind : TokenKind) (w : Word) :
    begins kind w.unplaced = begins kind w := by
  cases w <;> rfl

private theorem separateValue_unplaced (ws : List Word) :
    separateValue (ws.map Word.unplaced) =
      ((separateValue ws).1.unplaced, (separateValue ws).2.map Word.unplaced) := by
  cases ws with
  | nil => rfl
  | cons w ws =>
      rw [List.map_cons, separateValue, separateValue, begins_unplaced, begins_unplaced]
      split <;> rfl

private theorem valueAfterEquals_unplaced (glued : Word) (ws : List Word) :
    valueAfterEquals glued.unplaced (ws.map Word.unplaced) =
      ((valueAfterEquals glued ws).1.unplaced,
        (valueAfterEquals glued ws).2.map Word.unplaced) := by
  cases glued with
  | nil => exact separateValue_unplaced ws
  | cons t glued => rfl

private theorem bound_unplaced (option : Text) (glued : Word) (ws : List Word) :
    bound option glued.unplaced (ws.map Word.unplaced) =
      ((bound option glued ws).1.unplaced, (bound option glued ws).2.map Word.unplaced) := by
  rw [bound, valueAfterEquals_unplaced]
  rfl

private theorem ofOption_unplaced (spelling : Text) (glued : Word) (ws : List Word) :
    ofOption spelling glued.unplaced (ws.map Word.unplaced) =
      (ofOption spelling glued ws).map fun r => (r.1.unplaced, r.2.map Word.unplaced) := by
  unfold ofOption
  cases splitAtEquals? spelling with
  | some r => rfl
  | none =>
      cases glued with
      | cons t glued =>
          by_cases h : t.kind = .equals
          · simp [h, bound_unplaced]
          · simp [h]
      | nil =>
          cases ws with
          | nil => rfl
          | cons w ws =>
              cases w with
              | nil => rfl
              | cons t value =>
                  by_cases h : t.kind = .equals
                  · simp [h, bound_unplaced]
                  · simp [h, unplaced]

private theorem glued_unplaced {t : Token} {glued : Word}
    (h : ¬(t.literal = ['-', '-'] ∧ glued = [])) :
    ¬(t.unplaced.literal = ['-', '-'] ∧ glued.unplaced = []) := by
  rintro ⟨hliteral, hglued⟩
  exact h ⟨hliteral, List.map_eq_nil_iff.1 hglued⟩

theorem ofWords_unplaced (ws : List Word) :
    ofWords (ws.map Word.unplaced) = (ofWords ws).map unplaced := by
  fun_induction ofWords ws with
  | case1 => exact ofWords_nil
  | case2 ws ih =>
      rw [List.map_cons, Word.unplaced_nil, ofWords, ih]
      rfl
  | case3 t glued ws hkind ih =>
      have hkind : t.unplaced.kind ≠ .option := hkind
      rw [List.map_cons, Word.unplaced_cons, ofWords_argument hkind, ih]
      rfl
  | case4 t glued ws hkind hend =>
      obtain ⟨hliteral, rfl⟩ := hend
      have hkind : t.unplaced.kind = .option := Decidable.not_not.1 hkind
      rw [List.map_cons, Word.unplaced_cons, Word.unplaced_nil,
        ofWords_endOfOptions hkind hliteral]
      simp [unplaced]
  | case5 t glued ws hkind hend part left h hle ih =>
      have hkind : t.unplaced.kind = .option := Decidable.not_not.1 hkind
      have hoption : ofOption t.unplaced.literal (Word.unplaced glued) (ws.map Word.unplaced) =
          some (part.unplaced, left.map Word.unplaced) := by
        rw [Token.literal_unplaced, ofOption_unplaced, h]
        rfl
      rw [List.map_cons, Word.unplaced_cons,
        ofWords_option hkind (glued_unplaced hend) hoption, ih]
      rfl
  | case6 t glued ws hkind hend h ih =>
      have hkind : t.unplaced.kind = .option := Decidable.not_not.1 hkind
      have hoption :
          ofOption t.unplaced.literal (Word.unplaced glued) (ws.map Word.unplaced) = none := by
        rw [Token.literal_unplaced, ofOption_unplaced, h]
        rfl
      rw [List.map_cons, Word.unplaced_cons,
        ofWords_glued hkind (glued_unplaced hend) hoption, ih]
      rfl

end Part

theorem Item.ofPart_unplaced (e : Expansion) (matching : Text → List Text) (part : Part) :
    ofPart e matching part.unplaced = ofPart e matching part := by
  cases part with
  | positional w =>
      simp only [Part.unplaced, ofPart, Expansion.pattern?_unplaced, Expansion.word_unplaced,
        Word.isQuoted_unplaced]
  | binding option typed value =>
      simp only [Part.unplaced, ofPart, Expansion.word_unplaced]
  | flag | endOfOptions => rfl

/-- Words make the same items wherever their tokens stand. -/
theorem Item.flatMap_ofPart_unplaced (e : Expansion) (matching : Text → List Text)
    (ws : List Word) :
    (Part.ofWords (ws.map Word.unplaced)).flatMap (ofPart e matching) =
      (Part.ofWords ws).flatMap (ofPart e matching) := by
  rw [Part.ofWords_unplaced, List.flatMap_map]
  exact congrArg (List.flatMap · (Part.ofWords ws)) (funext (ofPart_unplaced e matching))

/-! ## Lines -/

namespace Command

variable (e : Expansion) (matching : Text → List Text)

theorem readable_unplaced (ts : List Token) :
    readable (ts.map Token.unplaced) = (readable ts).map Token.unplaced :=
  List.takeWhile_map

theorem nameOf_unplaced (w : Word) : nameOf e w.unplaced = nameOf e w := by
  rw [nameOf, nameOf, Expansion.word_unplaced, Word.unplaced, Token.rawText_unplaced]

/-- A line without its places has a fault exactly if it has one with them. -/
theorem firstFault?_unplaced (ts : List Token) :
    (firstFault? (ts.map Token.unplaced)).isSome = (firstFault? ts).isSome := by
  induction ts with
  | nil => rfl
  | cons t ts ih =>
      rw [List.map_cons, firstFault?, firstFault?, List.findSome?_cons, List.findSome?_cons,
        Token.fault?_unplaced]
      cases t.fault? with
      | none => exact ih
      | some cause => rfl

/-- Without their places, tokens make the same command, or none where they make none. -/
theorem toOption_parse_unplaced (ts : List Token) :
    (parse e matching (ts.map Token.unplaced)).toOption = (parse e matching ts).toOption := by
  have hfault := firstFault?_unplaced (readable ts)
  rw [parse, parse, readable_unplaced]
  cases h : firstFault? (readable ts) with
  | some error =>
      rw [h] at hfault
      obtain ⟨error', herror'⟩ := Option.isSome_iff_exists.1 hfault
      rw [herror']
      rfl
  | none =>
      rw [h] at hfault
      rw [Option.isSome_eq_false_iff.1 hfault |> Option.isNone_iff_eq_none.1]
      rw [Word.ofTokens_unplaced]
      cases Word.ofTokens (readable ts) with
      | nil => rfl
      | cons first rest =>
          simp only [List.map_cons, nameOf_unplaced, Item.flatMap_ofPart_unplaced,
            Token.rawText_unplaced]

theorem rawText_lexemes (line : Text) :
    Token.rawText ((Lexeme.ofText line).map (·.at .start) ++ [Token.eofAt .start]) = line := by
  rw [← Lexeme.map_unplaced_tokensFrom .start line, Token.rawText_unplaced,
    Token.rawText_tokensFrom]

/-- The command of a line without newlines and faults is the one that the words of its lexemes
make. -/
theorem parseLine_of_lexemes {line : Text} {ts : List Token} {first : Word} {rest : List Word}
    (hts : (Lexeme.ofText line).map (·.at .start) = ts)
    (hread : ∀ t ∈ ts, t.endsLine = false ∧ t.fault? = none)
    (hwords : Word.ofTokens ts = first :: rest) :
    parseLine e matching line = .ok (some {
      name := nameOf e first
      items := (Part.ofWords rest).flatMap (Item.ofPart e matching)
      rawInput := line }) := by
  have hreadable : readable (ts ++ [Token.eofAt .start]) = ts := by
    rw [readable, List.takeWhile_append_of_pos]
    · exact List.append_nil ts
    · intro t ht
      rw [(hread t ht).1]
      rfl
  have hfault : firstFault? ts = none := firstFault?_eq_none_iff.2 fun t ht => (hread t ht).2
  have hraw := rawText_lexemes line
  have hsame := toOption_parse_unplaced e matching (Token.ofLine line)
  rw [Token.ofLine, Lexeme.map_unplaced_tokensFrom, hts, parse, hreadable, hfault, hwords, ← hts,
    hraw] at hsame
  rw [parseLine, Token.ofLine]
  cases hparse : parse e matching (Token.tokensFrom .start line) with
  | error error =>
      rw [hparse] at hsame
      cases hsame
  | ok r =>
      rw [hparse] at hsame
      exact congrArg Except.ok (Option.some.inj hsame).symm

end Command

end PrefixShell
