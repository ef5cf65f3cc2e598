import PrefixShell.Proofs.Command.Leading

/-!
# The words of a line

A line comes to a command through its words alone: which they are, or that a fault is among them, is
all that the variables, the matcher and the options of the shell are ever told.  The words can be read
off the front of the line.  A blank is passed over, a line break ends them, and any other lexeme either
stands alone or is glued to the first word of what follows it.

So two lines of the same words are the same command.  The words of a line do not change if there are
more blanks in front of it, behind it or wherever there is a blank already, nor if more lines follow.

## Main results

* `toOption_parseLine`: the command of a line is the one that its words make.
* `typedWords?_blank`, `typedWords?_alone`, `typedWords?_glued`: what a lexeme in front does.
* `typedWords?_append_breaks`: the words of two texts with a break between them.
* `typedWords?_append`: what follows a line and has no words does not change the words of the line.
* `typedWords?_reblank`: blanks in the place of a blank do not change them either.
-/

namespace PrefixShell

namespace Command

/-! ## What is read of a line -/

/-- The words that are read of a line; nothing if there is a fault in what is read. -/
def typedWords? (line : Text) : Option (List Word) :=
  match firstFault? (readable (tokensOf line)) with
  | some _ => none
  | none => some (Word.ofTokens (readable (tokensOf line)))

/-- The command that words make, typed as the given line; without words there is none. -/
def ofTypedWords (e : Expansion) (matching : Text → List Text) (line : Text) :
    List Word → Option Command
  | [] => none
  | first :: rest => some {
      name := nameOf e first
      items := (Part.ofWords rest).flatMap (Item.ofPart e matching)
      rawInput := line }

/-- The command, typed as another line. -/
def typedAs (c : Command) (line : Text) : Command := { c with rawInput := line }

section

variable (e : Expansion) (matching : Text → List Text)

/-- What tokens come to: the error of a fault, or the command that their words make. -/
theorem parse_eq (ts : List Token) :
    parse e matching ts = match firstFault? (readable ts) with
      | some error => .error error
      | none => .ok (ofTypedWords e matching (Token.rawText ts) (Word.ofTokens (readable ts))) := by
  rw [parse]
  cases firstFault? (readable ts) with
  | some error => rfl
  | none => cases Word.ofTokens (readable ts) <;> rfl

/-- Words make the same command wherever their tokens stand. -/
theorem ofTypedWords_unplaced (line : Text) (ws : List Word) :
    ofTypedWords e matching line (ws.map Word.unplaced) = ofTypedWords e matching line ws := by
  cases ws with
  | nil => rfl
  | cons first rest =>
      rw [List.map_cons, ofTypedWords, nameOf_unplaced, Item.flatMap_ofPart_unplaced, ofTypedWords]

/-- The command of a line is the one that its words make. -/
theorem toOption_parseLine (line : Text) :
    (parseLine e matching line).toOption =
      (typedWords? line).map (ofTypedWords e matching line) := by
  have htokens : (Token.ofLine line).map Token.unplaced = tokensOf line :=
    Lexeme.map_unplaced_tokensFrom .start line
  rw [parseLine, ← toOption_parse_unplaced, htokens, parse_eq, typedWords?]
  cases firstFault? (readable (tokensOf line)) with
  | some error => rfl
  | none =>
      show some _ = some _
      rw [tokensOf, rawText_lexemes]

/-- A lexeme of a line is a token of it. -/
theorem exists_token_of_mem_ofText {line : Text} {x : Lexeme} (hx : x ∈ Lexeme.ofText line) :
    ∃ t ∈ Token.ofLine line, t.kind = x.kind := by
  have hmem : x.at .start ∈ (Token.ofLine line).map Token.unplaced := by
    rw [Token.ofLine, Lexeme.map_unplaced_tokensFrom]
    exact List.mem_append_left _ (List.mem_map_of_mem hx)
  obtain ⟨t, ht, hat⟩ := List.mem_map.1 hmem
  exact ⟨t, ht, congrArg Token.kind hat⟩

/-- The words of a line without a fault are those of its tokens, wherever these stand. -/
theorem typedWords?_of_faultless {line : Text}
    (h : firstFault? (readable (Token.ofLine line)) = none) :
    typedWords? line =
      some ((Word.ofTokens (readable (Token.ofLine line))).map Word.unplaced) := by
  have htokens : (Token.ofLine line).map Token.unplaced = tokensOf line :=
    Lexeme.map_unplaced_tokensFrom .start line
  have hfault := firstFault?_unplaced (readable (Token.ofLine line))
  rw [h, Option.isSome_none, Option.isSome_eq_false_iff, Option.isNone_iff_eq_none] at hfault
  rw [typedWords?, ← htokens, readable_unplaced, hfault, Word.ofTokens_unplaced]

theorem typedWords?_isSome {line : Text} {result : Option Command}
    (h : parseLine e matching line = .ok result) : (typedWords? line).isSome := by
  have hwords := toOption_parseLine e matching line
  rw [h] at hwords
  cases hline : typedWords? line with
  | some ws => rfl
  | none =>
      rw [hline] at hwords
      cases hwords

/-- The command of a line, told by its words. -/
theorem parseLine_of_words {line : Text} {ws : List Word} (h : typedWords? line = some ws) :
    parseLine e matching line = .ok (ofTypedWords e matching line ws) := by
  refine toOption_eq_some ?_
  rw [toOption_parseLine, h, Option.map_some]

/-- Two lines of the same words are the same command. -/
theorem parseLine_of_typedWords {s t : Text} {result : Option Command}
    (h : parseLine e matching s = .ok result) (hsame : typedWords? t = typedWords? s) :
    parseLine e matching t = .ok (result.map (·.typedAs t)) := by
  have hs := toOption_parseLine e matching s
  have ht := toOption_parseLine e matching t
  rw [h] at hs
  rw [hsame] at ht
  cases hwords : typedWords? s with
  | none =>
      rw [hwords] at hs
      cases hs
  | some ws =>
      rw [hwords] at hs ht
      obtain rfl : result = ofTypedWords e matching s ws := Option.some.inj hs
      rw [toOption_eq_some ht]
      cases ws <;> rfl

end

/-! ## The words, read off the front -/

section

variable {c : Char} {t : Text}

@[simp] theorem typedWords?_nil : typedWords? [] = some [] := by
  rw [typedWords?, tokensOf, Lexeme.ofText_nil]
  rfl

@[simp] theorem typedWords?_newline (t : Text) : typedWords? ('\n' :: t) = some [] := by
  rw [typedWords?, tokensOf_cons, Lexeme.first_newline]
  rfl

/-- A fault leaves no words. -/
theorem typedWords?_fault {cause : Fault} (h : (Lexeme.first c t).lexeme.kind = .fault cause) :
    typedWords? (c :: t) = none := by
  have hends : ((Lexeme.first c t).lexeme.at .start).endsLine = false := by
    simp [Token.endsLine, Lexeme.at, h]
  have hfault : ((Lexeme.first c t).lexeme.at .start).fault? = some cause :=
    fault?_eq_some_iff.2 h
  rw [typedWords?, tokensOf_cons, readable_cons_of_solid hends, firstFault?, List.findSome?_cons,
    hfault]
  rfl

variable {x : Lexeme} {rest : Text}

/-- What a lexeme in front of a text does to its words, if it is neither a line break nor a fault. -/
private theorem typedWords?_cons (hfirst : Lexeme.first c t = ⟨x, rest⟩)
    (hnewline : x.kind ≠ .newline) (hfault : ∀ cause, x.kind ≠ .fault cause)
    {f : List Word → List Word}
    (hf : Word.ofTokens (x.at .start :: readable (tokensOf rest)) =
      f (Word.ofTokens (readable (tokensOf rest)))) :
    typedWords? (c :: t) = (typedWords? rest).map f := by
  have heof : x.kind ≠ .eof := by
    have hkind := Lexeme.first_kind_ne_eof c t
    rwa [hfirst] at hkind
  have hends : (x.at .start).endsLine = false := by
    simp [Token.endsLine, Lexeme.at, hnewline, heof]
  have hnone : (x.at .start).fault? = none := by
    rw [Option.eq_none_iff_forall_ne_some]
    intro cause hcause
    exact hfault cause (fault?_eq_some_iff.1 hcause)
  have hfaults : firstFault? (x.at .start :: readable (tokensOf rest)) =
      firstFault? (readable (tokensOf rest)) := by
    rw [firstFault?, List.findSome?_cons, hnone]
    rfl
  rw [typedWords?, typedWords?, tokensOf_cons, hfirst, readable_cons_of_solid hends, hfaults, hf]
  cases firstFault? (readable (tokensOf rest)) <;> rfl

/-- A lexeme before a break is a word of its own. -/
theorem typedWords?_alone (hfirst : Lexeme.first c t = ⟨x, rest⟩) (hsolid : x.Solid)
    (hfault : ∀ cause, x.kind ≠ .fault cause) (hrest : rest.Breaks) :
    typedWords? (c :: t) = (typedWords? rest).map ([x.at .start] :: ·) := by
  refine typedWords?_cons hfirst hsolid.2 hfault ?_
  refine Word.ofTokens_append (List.cons_ne_nil _ []) ?_ ((head_readable_iff _).2 hrest)
  intro y hy
  rw [List.mem_singleton.1 hy]
  exact hsolid.1

/-- A lexeme before something else is glued to the first word of it. -/
theorem typedWords?_glued (hfirst : Lexeme.first c t = ⟨x, rest⟩) (hsolid : x.Solid)
    (hfault : ∀ cause, x.kind ≠ .fault cause) (hrest : ¬rest.Breaks) :
    typedWords? (c :: t) = (typedWords? rest).map (·.modifyHead (x.at .start :: ·)) := by
  refine typedWords?_cons (f := (·.modifyHead _)) hfirst hsolid.2 hfault ?_
  cases hread : readable (tokensOf rest) with
  | nil =>
      refine absurd ((head_readable_iff rest).1 ?_) hrest
      simp [hread]
  | cons y ts =>
      refine Word.ofTokens_glued hsolid.1 ?_ ts
      intro hy
      refine hrest ((head_readable_iff rest).1 ?_)
      rw [hread]
      rintro b ⟨⟩
      exact hy

/-- A blank in front of a text is passed over. -/
theorem typedWords?_blank (hc : Lexeme.isBlank c = true) (t : Text) :
    typedWords? (c :: t) = typedWords? t := by
  refine Lexeme.pass_blank (f := fun _ t => typedWords? t) ?_ hc .start t
  intro _ d u hd
  show typedWords? (d :: u) = typedWords? (u.dropWhile Lexeme.isBlank)
  rw [typedWords?_cons (f := id) (Lexeme.first_blank hd u) TokenKind.noConfusion
    (fun _ => TokenKind.noConfusion) (Word.ofTokens_blank rfl _), Option.map_id,
    List.dropWhile_cons_of_pos hd]
  rfl

theorem typedWords?_blanks {u : Text} (hu : ∀ c ∈ u, Lexeme.isBlank c = true) (t : Text) :
    typedWords? (u ++ t) = typedWords? t := by
  induction u with
  | nil => rfl
  | cons c u ih =>
      rw [List.cons_append, typedWords?_blank (hu c List.mem_cons_self)]
      exact ih fun d hd => hu d (List.mem_cons_of_mem c hd)

end

/-! ## Lines with more around them -/

section

variable {s t w : Text}

/-- A text without words is empty or begins with a break. -/
theorem breaks_of_typedWords?_eq_nil (h : typedWords? t = some []) : t.Breaks := by
  rw [typedWords?] at h
  split at h
  · cases h
  · refine (head_readable_iff t).1 fun b hb => ?_
    exact Word.ofTokens_eq_nil_iff.1 (Option.some.inj h) b (List.mem_of_mem_head? hb)

/-- The words of a line and then those of what follows it after a break, if the line does not end
before or nothing follows that has words. -/
theorem typedWords?_append_breaks {ws : List Word} (hs : typedWords? s = some ws) (ht : t.Breaks)
    (hline : (∀ x ∈ Lexeme.ofText s, x.kind ≠ .newline) ∨ typedWords? t = some []) :
    typedWords? (s ++ t) = (typedWords? t).map (ws ++ ·) := by
  induction s using Lexeme.ofText.induct generalizing ws with
  | case1 =>
      rw [typedWords?_nil] at hs
      obtain rfl := Option.some.inj hs
      exact Option.map_id'.symm
  | case2 c s ih =>
      have hsplit := Lexeme.first_raw_append_rest c s
      have hrest : (∀ x ∈ Lexeme.ofText (Lexeme.first c s).rest, x.kind ≠ .newline) ∨
          typedWords? t = some [] :=
        hline.imp_left fun h x hx => h x (Lexeme.mem_ofText_of_mem_rest hx)
      rcases Lexeme.first_separates c s with ⟨hc, hkind⟩ | ⟨rfl, hkind⟩ | ⟨-, -, hsolid⟩
      · have hraw := Lexeme.isBlank_of_mem_raw hkind
        rw [← hsplit, typedWords?_blanks hraw] at hs
        rw [← hsplit, List.append_assoc, typedWords?_blanks hraw]
        exact ih hs hrest
      · have hnone : typedWords? t = some [] :=
          hline.resolve_left fun h => h _ (Lexeme.first_mem_ofText _ s) hkind
        rw [typedWords?_newline] at hs
        obtain rfl := Option.some.inj hs
        rw [List.cons_append, typedWords?_newline, hnone]
        rfl
      · have hfault : ∀ cause, (Lexeme.first c s).lexeme.kind ≠ .fault cause := by
          intro cause hkind
          rw [typedWords?_fault hkind] at hs
          cases hs
        have hfirst := Lexeme.first_append hsolid.1 hfault (.inr ht)
        have hbreaks := (Text.beginAlike_append (Lexeme.first c s).rest (.inr ht)).breaks_iff
        have hself : Lexeme.first c s = ⟨(Lexeme.first c s).lexeme, (Lexeme.first c s).rest⟩ := rfl
        by_cases hends : (Lexeme.first c s).rest.Breaks
        · rw [typedWords?_alone hself hsolid hfault hends] at hs
          obtain ⟨ws', hws', rfl⟩ := Option.map_eq_some_iff.1 hs
          rw [List.cons_append, typedWords?_alone hfirst hsolid hfault (hbreaks.1 hends),
            ih hws' hrest, Option.map_map]
          rfl
        · rw [typedWords?_glued hself hsolid hfault hends] at hs
          obtain ⟨ws', hws', rfl⟩ := Option.map_eq_some_iff.1 hs
          -- There is a word to be glued to, and not only one of the text that follows.
          obtain ⟨w, ws', rfl⟩ : ∃ w ws'', ws' = w :: ws'' := by
            refine List.exists_cons_of_ne_nil ?_
            rintro rfl
            exact hends (breaks_of_typedWords?_eq_nil hws')
          rw [List.cons_append, typedWords?_glued hfirst hsolid hfault (hbreaks.not.1 hends),
            ih hws' hrest, Option.map_map]
          rfl

/-- What follows a line and has no words does not change the words of the line. -/
theorem typedWords?_append {ws : List Word} (hs : typedWords? s = some ws) (ht : t.Breaks)
    (hnone : typedWords? t = some []) : typedWords? (s ++ t) = some ws := by
  rw [typedWords?_append_breaks hs ht (.inr hnone), hnone]
  exact congrArg some (List.append_nil ws)

/-- A text with a blank in it is not empty. -/
theorem ne_nil_of_blank {p : Position} {before after : List Token} {b : Token}
    (h : Token.tokensFrom p t = before ++ b :: after) (hb : b.kind = .blank) : t ≠ [] := by
  rintro rfl
  rw [Token.tokensFrom_nil] at h
  have hmem : b ∈ [Token.eofAt p] := by
    rw [h]
    simp
  rw [List.mem_singleton.1 hmem] at hb
  cases hb

variable {p : Position} {before after : List Token} {b : Token}

/-- With other blanks in the place of a blank, a text still begins alike. -/
theorem beginAlike_reblank (h : Token.tokensFrom p t = before ++ b :: after)
    (hb : b.kind = .blank) (hne : w ≠ []) (hw : ∀ c ∈ w, Lexeme.isBlank c = true) :
    t.BeginAlike (Token.rawText before ++ w ++ Token.rawText after) := by
  obtain ⟨c, t, rfl⟩ := List.exists_cons_of_ne_nil (ne_nil_of_blank h hb)
  obtain ⟨u, hraw⟩ := Lexeme.exists_raw_eq_cons c t
  rw [Token.tokensFrom_cons] at h
  cases before with
  | nil =>
      obtain ⟨d, w, rfl⟩ := List.exists_cons_of_ne_nil hne
      obtain ⟨rfl, -⟩ := List.cons.inj h
      have hc : Lexeme.isBlank c = true := by
        refine Lexeme.isBlank_of_mem_raw hb c ?_
        rw [hraw]
        exact List.mem_cons_self
      exact .inr ⟨Text.breaks_cons_iff.2 (.inl hc),
        Text.breaks_cons_iff.2 (.inl (hw d List.mem_cons_self))⟩
  | cons x before =>
      obtain ⟨rfl, -⟩ := List.cons.inj h
      refine .inl ?_
      show _ = ((Lexeme.first c t).lexeme.raw ++ Token.rawText before ++ w ++ _).head?
      rw [hraw]
      rfl

/-- Blanks in the place of a blank do not change the words of a line. -/
theorem typedWords?_reblank (h : Token.tokensFrom p t = before ++ b :: after)
    (hb : b.kind = .blank) (hne : w ≠ []) (hw : ∀ c ∈ w, Lexeme.isBlank c = true) :
    typedWords? (Token.rawText before ++ w ++ Token.rawText after) = typedWords? t := by
  induction before generalizing p t with
  | nil =>
      obtain ⟨c, t, rfl⟩ := List.exists_cons_of_ne_nil (ne_nil_of_blank h hb)
      have hsplit := Lexeme.first_raw_append_rest c t
      rw [Token.tokensFrom_cons] at h
      obtain ⟨rfl, rfl⟩ := List.cons.inj h
      rw [Token.rawText_nil, List.nil_append, Token.rawText_tokensFrom, typedWords?_blanks hw,
        ← hsplit, typedWords?_blanks (Lexeme.isBlank_of_mem_raw hb)]
  | cons x before ih =>
      obtain ⟨c, t, rfl⟩ := List.exists_cons_of_ne_nil (ne_nil_of_blank h hb)
      rw [Token.tokensFrom_cons, List.cons_append] at h
      obtain ⟨rfl, hrest⟩ := List.cons.inj h
      have hself : Lexeme.first c t = ⟨(Lexeme.first c t).lexeme, (Lexeme.first c t).rest⟩ := rfl
      have hsplit := Lexeme.first_raw_append_rest c t
      have halike := beginAlike_reblank hrest hb hne hw
      have ih := ih hrest
      generalize hafter : Token.rawText before ++ w ++ Token.rawText after = r at halike ih
      have hline : Token.rawText ((Lexeme.first c t).lexeme.at p :: before) ++ w ++
          Token.rawText after = (Lexeme.first c t).lexeme.raw ++ r := by
        rw [← hafter, Token.rawText_cons, List.append_assoc, List.append_assoc, List.append_assoc]
        rfl
      rw [hline]
      rcases Lexeme.first_separates c t with ⟨-, hkind⟩ | ⟨rfl, -⟩ | ⟨-, -, hsolid⟩
      · have hraw := Lexeme.isBlank_of_mem_raw hkind
        rw [typedWords?_blanks hraw, ih, ← typedWords?_blanks hraw, hsplit]
      · show typedWords? ('\n' :: r) = _
        rw [typedWords?_newline, typedWords?_newline]
      · -- Nothing follows a fault, but the blank is still to come.
        have hfault : ∀ cause, (Lexeme.first c t).lexeme.kind ≠ .fault cause := by
          intro cause hkind
          exact ne_nil_of_blank hrest hb (Lexeme.rest_of_fault hkind)
        obtain ⟨u, hraw⟩ := Lexeme.exists_raw_eq_cons c t
        have hfirst := Lexeme.first_resume (fun h => absurd h hsolid.1) hfault hraw halike.stopsAs
        rw [hraw, List.cons_append]
        by_cases hbreaks : (Lexeme.first c t).rest.Breaks
        · rw [typedWords?_alone hfirst hsolid hfault (halike.breaks_iff.1 hbreaks), ih,
            ← typedWords?_alone hself hsolid hfault hbreaks]
        · rw [typedWords?_glued hfirst hsolid hfault (halike.breaks_iff.not.1 hbreaks), ih,
            ← typedWords?_glued hself hsolid hfault hbreaks]

end

end Command

end PrefixShell
