import Mathlib.Algebra.BigOperators.Group.List.Lemmas
import PrefixShell.Proofs.Command.Shape
import PrefixShell.Proofs.Command.Verdict
import PrefixShell.Proofs.Word.Substitution

/-!
# Which words go together

Of the words after the name none is lost, none is read twice, and they stay in order: cut into groups
of one to three words, they are the words that are handed to a program, each group as one of them.  A
group of several words is an option whose value is typed apart from it.

What the parser does with one word is `MadeOf`: the part that the word becomes, together with the words
that it takes along.  What it does with all of them is `Regroups`, where the lone `--` cuts the run
short: every word after it is a group by itself.

## Main results

* `lexed_of_mem`: of what tokens a word of a line is made.
* `madeOf_ofOption`: an option becomes a part together with the words that it takes.
* `ofWords_regroups`: the words after the name, cut into groups, are the parts of the command.
* `sum_optionValues`: an option has its values, and no binding is lost.
* `parseLine_hands`: the words after the name, cut into groups, are handed to a program.
-/

namespace PrefixShell

/-! ## The words of a line -/

/-- A token as a word of a line is made of. -/
structure Token.Lexed (t : Token) : Prop where
  isPiece : t.IsPiece
  option : t.kind = .option → '=' ∉ t.literal
  equals : t.kind = .equals → t.literal = ['=']

/-- What is read of a line are pieces, but for blanks and faults. -/
theorem Command.isPiece_of_mem_readable {t : Token} {ts : List Token} (ht : t ∈ readable ts)
    (hblank : t.kind ≠ .blank) (hfault : t.fault? = none) : t.IsPiece := by
  have hends := endsLine_of_mem_readable ht
  rw [Token.endsLine, Bool.or_eq_false_iff] at hends
  exact ⟨by simp [Token.isSeparator, hblank, hends.1, hends.2], hfault⟩

/-- A line that is not refused has words of such tokens. -/
theorem Command.lexed_of_mem {line : Text} (hfault : firstFault? (readable (Token.ofLine line)) = none)
    {w : Word} (hw : w ∈ Word.ofTokens (readable (Token.ofLine line))) : ∀ t ∈ w, t.Lexed := by
  intro t ht
  obtain ⟨hread, hblank⟩ := (Word.mem_of_mem_ofTokens hw).2 t ht
  have hends := endsLine_of_mem_readable hread
  have hline : t ∈ Token.ofLine line := (List.takeWhile_sublist _).subset hread
  have hspelled : Lexeme.Spelled ⟨t.kind, t.raw, t.literal⟩ := by
    rcases Token.exists_first_of_mem hline with ⟨c, rest, place, rfl⟩ | ⟨place, rfl⟩
    · exact Lexeme.first_spelled c rest
    · cases hends
  have hpiece := isPiece_of_mem_readable hread hblank (firstFault?_eq_none_iff.1 hfault t hread)
  exact ⟨hpiece, hspelled.option, hspelled.equals⟩

namespace Part

/-! ## The words of one part -/

/-- How an option comes to its value: from what is glued to its `=`, or from the word after it. -/
inductive Takes : Word → List Word → Word → Prop
  | glued (value : Word) : Takes value [] value
  | next {value : Word} (hoption : begins .option value = false)
      (hequals : begins .equals value = false) : Takes [] [value] value

/-- The words that a part is made of. -/
inductive MadeOf : List Word → Part → Prop
  | positional {w : Word} (h : ∀ t, w = [t] → t.kind ≠ .option) : MadeOf [w] (.positional w)
  | flag {k : Token} (hk : k.kind = .option) (h : k.literal ≠ ['-', '-']) :
      MadeOf [[k]] (.flag k.literal)
  /-- The `=` is glued to the option. -/
  | joined {k e : Token} {glued value : Word} {taken : List Word} (hk : k.kind = .option)
      (he : e.kind = .equals) (h : Takes glued taken value) :
      MadeOf ((k :: e :: glued) :: taken) (.binding k.literal [] value)
  /-- The `=` begins the next word. -/
  | spaced {k e : Token} {glued value : Word} {taken : List Word} (hk : k.kind = .option)
      (he : e.kind = .equals) (h : Takes glued taken value) :
      MadeOf ([k] :: (e :: glued) :: taken) (.binding k.literal [] value)

theorem Takes.flatten_eq {glued value : Word} {taken : List Word} (h : Takes glued taken value) :
    glued ++ taken.flatten = value := by
  cases h with
  | glued => exact List.append_nil _
  | next => exact List.append_nil _

theorem takes_valueAfterEquals (glued : Word) (ws : List Word) :
    ∃ taken, ws = taken ++ (valueAfterEquals glued ws).2 ∧
      Takes glued taken (valueAfterEquals glued ws).1 := by
  cases glued with
  | cons t glued => exact ⟨[], rfl, .glued _⟩
  | nil =>
      cases ws with
      | nil => exact ⟨[], rfl, .glued []⟩
      | cons w ws =>
          show ∃ taken, w :: ws = taken ++ (separateValue (w :: ws)).2 ∧
            Takes [] taken (separateValue (w :: ws)).1
          rw [separateValue]
          split
          · exact ⟨[], rfl, .glued []⟩
          · rename_i hvalue
            rw [Bool.or_eq_true, not_or, Bool.not_eq_true, Bool.not_eq_true] at hvalue
            exact ⟨[w], rfl, .next hvalue.1 hvalue.2⟩

variable {k : Token} {glued : Word} {ws left : List Word} {part : Part}

/-- An option becomes a part together with the words that it takes, and leaves the others. -/
theorem madeOf_ofOption (hk : k.kind = .option) (hspelled : '=' ∉ k.literal)
    (hend : ¬(k.literal = ['-', '-'] ∧ glued = []))
    (h : ofOption k.literal glued ws = some (part, left)) :
    ∃ taken, ws = taken ++ left ∧ MadeOf ((k :: glued) :: taken) part := by
  simp only [ofOption, splitAtEquals?_eq_none hspelled] at h
  cases glued with
  | cons e value =>
      by_cases he : e.kind = .equals
      · simp only [he, if_true, Option.some.injEq] at h
        cases h
        obtain ⟨taken, hws, htakes⟩ := takes_valueAfterEquals value ws
        exact ⟨taken, hws, .joined hk he htakes⟩
      · simp only [he, if_false] at h
        cases h
  | nil =>
      have hflag : MadeOf [[k]] (.flag k.literal) := .flag hk fun hliteral => hend ⟨hliteral, rfl⟩
      cases ws with
      | nil =>
          cases h
          exact ⟨[], rfl, hflag⟩
      | cons w ws =>
          cases w with
          | nil =>
              cases h
              exact ⟨[], rfl, hflag⟩
          | cons e value =>
              by_cases he : e.kind = .equals
              · simp only [he, if_true, Option.some.injEq] at h
                cases h
                obtain ⟨taken, hws, htakes⟩ := takes_valueAfterEquals value ws
                exact ⟨(e :: value) :: taken, congrArg ((e :: value) :: ·) hws,
                  .spaced hk he htakes⟩
              · simp only [he, if_false, Option.some.injEq] at h
                cases h
                exact ⟨[], rfl, hflag⟩

/-- Only an option that something is glued to may turn out to be none. -/
theorem glued_ne_nil_of_ofOption {spelling : Text} (h : ofOption spelling glued ws = none) :
    glued ≠ [] := by
  rintro rfl
  unfold ofOption at h
  split at h
  · cases h
  · dsimp only at h
    split at h
    · split at h <;> cases h
    · cases h

/-! ## The words of all parts -/

/-- Words, cut into groups, and the parts that they are sorted into. -/
inductive Regroups : List (List Word) → List Part → Prop
  | nil : Regroups [] []
  | cons {g : List Word} {part : Part} {groups : List (List Word)} {parts : List Part}
      (first : MadeOf g part) (others : Regroups groups parts) :
      Regroups (g :: groups) (part :: parts)
  /-- After a lone `--` every word is an argument. -/
  | terminated {t : Token} (hkind : t.kind = .option) (hliteral : t.literal = ['-', '-'])
      (ws : List Word) :
      Regroups ([[t]] :: ws.map ([·])) (.endOfOptions :: ws.map .positional)

theorem flatten_map_singleton {α : Type} (as : List α) : (as.map ([·])).flatten = as := by
  rw [← List.flatMap_def, List.flatMap_singleton']

/-- The words after the name, cut into groups, are what they are sorted into. -/
theorem ofWords_regroups (hws : ∀ w ∈ ws, ∀ t ∈ w, t.Lexed) :
    ∃ groups, groups.flatten = ws ∧ Regroups groups (ofWords ws) := by
  fun_induction ofWords ws with
  | case1 => exact ⟨[], rfl, .nil⟩
  | case2 ws ih =>
      obtain ⟨groups, hflatten, hgroups⟩ := ih fun w hw => hws w (List.mem_cons_of_mem _ hw)
      exact ⟨[[]] :: groups, congrArg ([] :: ·) hflatten, .cons (.positional nofun) hgroups⟩
  | case3 t glued ws hkind ih =>
      obtain ⟨groups, hflatten, hgroups⟩ := ih fun w hw => hws w (List.mem_cons_of_mem _ hw)
      refine ⟨[t :: glued] :: groups, congrArg ((t :: glued) :: ·) hflatten,
        .cons (.positional ?_) hgroups⟩
      rintro u ⟨⟩
      exact hkind
  | case4 t glued ws hkind hend =>
      obtain ⟨hliteral, rfl⟩ := hend
      refine ⟨[[t]] :: ws.map ([·]), ?_, .terminated (Decidable.not_not.1 hkind) hliteral ws⟩
      exact congrArg ([t] :: ·) (flatten_map_singleton ws)
  | case5 t glued ws hkind hend part left h hle ih =>
      have hkind : t.kind = .option := Decidable.not_not.1 hkind
      have hspelled : '=' ∉ t.literal :=
        (hws _ List.mem_cons_self t List.mem_cons_self).option hkind
      obtain ⟨taken, rfl, hmade⟩ := madeOf_ofOption hkind hspelled hend h
      obtain ⟨groups, hflatten, hgroups⟩ :=
        ih fun w hw => hws w (List.mem_cons_of_mem _ (List.mem_append_right taken hw))
      refine ⟨((t :: glued) :: taken) :: groups, ?_, .cons hmade hgroups⟩
      exact congrArg ((t :: glued) :: taken ++ ·) hflatten
  | case6 t glued ws hkind hend h ih =>
      obtain ⟨groups, hflatten, hgroups⟩ := ih fun w hw => hws w (List.mem_cons_of_mem _ hw)
      refine ⟨[t :: glued] :: groups, congrArg ((t :: glued) :: ·) hflatten,
        .cons (.positional ?_) hgroups⟩
      intro u hu
      exact absurd (List.cons.inj hu).2 (glued_ne_nil_of_ofOption h)

end Part

/-! ## What the groups are -/

namespace Word

/-- Words that go together: one word, or an option with its `=` and its value, of which the one, the
other or both are typed apart. -/
inductive Group : List Word → Prop
  | single (w : Word) : Group [w]
  /-- `--key =` and `--key =value`. -/
  | equalsApart {k e : Token} (value : Word) (hk : k.kind = .option) (he : e.kind = .equals) :
      Group [[k], e :: value]
  /-- `--key= value`. -/
  | valueApart {k e : Token} {value : Word} (hk : k.kind = .option) (he : e.kind = .equals)
      (hoption : Part.begins .option value = false) (hequals : Part.begins .equals value = false) :
      Group [[k, e], value]
  /-- `--key = value`. -/
  | bothApart {k e : Token} {value : Word} (hk : k.kind = .option) (he : e.kind = .equals)
      (hoption : Part.begins .option value = false) (hequals : Part.begins .equals value = false) :
      Group [[k], [e], value]

/-- An option by itself. -/
def isLoneOption : List Word → Bool
  | [[t]] => t.kind = .option
  | _ => false

/-- The `--` by itself. -/
def isTerminator : List Word → Bool
  | [[t]] => t.kind = .option && t.literal = ['-', '-']
  | _ => false

/-- The groups that are a flag word: an option by itself, with no `--` by itself before it. -/
def flagWords (groups : List (List Word)) : List (List Word) :=
  (groups.takeWhile (!isTerminator ·)).filter isLoneOption

theorem flagWords_cons {g : List Word} (h : isTerminator g = false) (groups : List (List Word)) :
    flagWords (g :: groups) = (if isLoneOption g then [g] else []) ++ flagWords groups := by
  rw [flagWords, List.takeWhile_cons_of_pos (by simp [h]), List.filter_cons]
  split <;> rfl

theorem flagWords_terminated {g : List Word} (h : isTerminator g = true)
    (groups : List (List Word)) : flagWords (g :: groups) = [] := by
  rw [flagWords, List.takeWhile_cons_of_neg (by simp [h]), List.filter_nil]

theorem isLoneOption_eq_false {w : Word} (h : ∀ t, w = [t] → t.kind ≠ .option) :
    isLoneOption [w] = false := by
  unfold isLoneOption
  split
  · rename_i t hw
    exact decide_eq_false (h t (List.cons.inj hw).1)
  · rfl

theorem isTerminator_eq_false {w : Word} (h : ∀ t, w = [t] → t.kind ≠ .option) :
    isTerminator [w] = false := by
  unfold isTerminator
  split
  · rename_i t hw
    simp [h t (List.cons.inj hw).1]
  · rfl

end Word

namespace Part

variable {g : List Word} {part : Part} {groups : List (List Word)} {parts : List Part}

theorem MadeOf.group (h : MadeOf g part) : Word.Group g := by
  cases h with
  | positional => exact .single _
  | flag => exact .single _
  | joined hk he h =>
      cases h with
      | glued => exact .single _
      | next hoption hequals => exact .valueApart hk he hoption hequals
  | spaced hk he h =>
      cases h with
      | glued => exact .equalsApart _ hk he
      | next hoption hequals => exact .bothApart hk he hoption hequals

theorem Regroups.group (h : Regroups groups parts) : ∀ g ∈ groups, Word.Group g := by
  induction h with
  | nil => nofun
  | cons first others ih => exact List.forall_mem_cons.2 ⟨first.group, ih⟩
  | terminated hkind hliteral ws =>
      refine List.forall_mem_cons.2 ⟨.single _, List.forall_mem_map.2 ?_⟩
      exact fun w _ => .single w

section Text

variable (e : Expansion)

/-- An option with its value is handed over as its spelling, a `=` and the text of the value. -/
theorem word_plain_binding {k q : Token} {value : Word} (hk : k.kind = .option)
    (hq : q.kind = .equals) (hlexed : ∀ t ∈ k :: q :: value, t.Lexed)
    (htilde : ∀ t ∈ k :: q :: value, t.kind ≠ .variable → ¬t.literal.Homeward) :
    (Item.plain e (.binding k.literal [] value)).word = e.substituted (k :: q :: value) := by
  obtain ⟨-, hqlexed, hlexed⟩ : _ ∧ _ ∧ ∀ t ∈ value, t.Lexed := by
    simpa only [List.forall_mem_cons] using hlexed
  obtain ⟨-, -, htilde⟩ : _ ∧ _ ∧ ∀ t ∈ value, t.kind ≠ .variable → ¬t.literal.Homeward := by
    simpa only [List.forall_mem_cons] using htilde
  have hoption : e.substitutedPiece k = k.literal := if_neg (by simp [hk])
  have hequals : e.substitutedPiece q = ['='] := by
    rw [Expansion.substitutedPiece, if_neg (by simp [hq]), hqlexed.equals hq]
  rw [e.substituted_cons, e.substituted_cons, hoption, hequals,
    ← e.word_eq_substituted (fun t ht => (hlexed t ht).isPiece) htilde]
  rfl

/-- What is handed over on account of a part is the text of the words that it is made of. -/
theorem MadeOf.word_plain (h : MadeOf g part) (hlexed : ∀ t ∈ g.flatten, t.Lexed)
    (htilde : ∀ t ∈ g.flatten, t.kind ≠ .variable → ¬t.literal.Homeward) :
    (Item.plain e part).word = e.substituted g.flatten := by
  cases h with
  | positional =>
      rw [List.flatten_singleton] at hlexed htilde ⊢
      exact e.word_eq_substituted (fun t ht => (hlexed t ht).isPiece) htilde
  | @flag k hk =>
      have hoption : e.substitutedPiece k = k.literal := if_neg (by simp [hk])
      rw [List.flatten_singleton, e.substituted_cons, hoption]
      exact (List.append_nil _).symm
  | @joined k q glued value taken hk hq htakes =>
      have hflatten : ((k :: q :: glued) :: taken).flatten = k :: q :: value :=
        congrArg (k :: q :: ·) htakes.flatten_eq
      rw [hflatten] at hlexed htilde ⊢
      exact word_plain_binding e hk hq hlexed htilde
  | @spaced k q glued value taken hk hq htakes =>
      have hflatten : ([k] :: (q :: glued) :: taken).flatten = k :: q :: value :=
        congrArg (k :: q :: ·) htakes.flatten_eq
      rw [hflatten] at hlexed htilde ⊢
      exact word_plain_binding e hk hq hlexed htilde

/-- The words handed over are the texts of the groups, in order. -/
theorem Regroups.map_word_plain (h : Regroups groups parts)
    (hlexed : ∀ t ∈ groups.flatten.flatten, t.Lexed)
    (htilde : ∀ t ∈ groups.flatten.flatten, t.kind ≠ .variable → ¬t.literal.Homeward) :
    (parts.map (Item.plain e)).map Item.word = groups.map fun g => e.substituted g.flatten := by
  induction h with
  | nil => rfl
  | cons first others ih =>
      simp only [List.flatten_cons, List.flatten_append, List.forall_mem_append] at hlexed htilde
      simp only [List.map_cons, first.word_plain e hlexed.1 htilde.1, ih hlexed.2 htilde.2]
  | @terminated t hkind hliteral ws =>
      rw [List.flatten_cons, flatten_map_singleton, List.flatten_append, List.forall_mem_append]
        at hlexed htilde
      have hend : e.substituted [[t]].flatten = ['-', '-'] := by
        show e.substitutedPiece t ++ [] = _
        rw [Expansion.substitutedPiece, if_neg (by simp [hkind]), hliteral]
        rfl
      simp only [List.map_cons, List.map_map, hend]
      refine congrArg (['-', '-'] :: ·) (List.map_congr_left ?_)
      intro w hw
      have hmem : ∀ t ∈ w, t ∈ ws.flatten := fun t ht => List.mem_flatten.2 ⟨w, hw, ht⟩
      show e.word w = e.substituted [w].flatten
      rw [List.flatten_singleton]
      exact e.word_eq_substituted (fun t ht => (hlexed.2 t (hmem t ht)).isPiece)
        fun t ht => htilde.2 t (hmem t ht)

end Text

section Tally

variable (e : Expansion)

/-- The words of a part are an argument, an option with a value, or a flag word, and they are no `--`. -/
theorem MadeOf.counts (h : MadeOf g part) :
    Word.isTerminator g = false ∧
      (if (Item.plain e part).argument?.isSome then 1 else 0) +
        (if (Item.plain e part).binding?.isSome then 1 else 0) +
        (if Word.isLoneOption g then 1 else 0) = 1 := by
  cases h with
  | positional h =>
      refine ⟨Word.isTerminator_eq_false h, ?_⟩
      rw [Word.isLoneOption_eq_false h]
      rfl
  | flag hk h =>
      simp [Word.isTerminator, Word.isLoneOption, hk, h, Item.plain, Item.argument?, Item.binding?]
  | joined hk hq h => exact ⟨rfl, rfl⟩
  | spaced hk hq h => exact ⟨rfl, rfl⟩

/-- Only a flag word sets flags, those that it spells. -/
theorem MadeOf.flags_plain (h : MadeOf g part) :
    (Item.plain e part).flags = (if Word.isLoneOption g then [g] else []).flatMap
      fun g => Item.flagsOf (e.substituted g.flatten) := by
  cases h with
  | positional h =>
      rw [Word.isLoneOption_eq_false h]
      rfl
  | @flag k hk h =>
      have htext : e.substituted [k] = k.literal := by
        rw [e.substituted_cons, Expansion.substitutedPiece, if_neg (by simp [hk])]
        exact List.append_nil _
      simp [Word.isLoneOption, hk, Item.plain, Item.flags, htext]
  | joined hk hq h => rfl
  | spaced hk hq h => rfl

/-- Every group is an argument, an option with a value, a flag word, or the `--` that ends the
options. -/
theorem Regroups.length_eq (h : Regroups groups parts) :
    groups.length = (parts.countP fun part => (Item.plain e part).argument?.isSome) +
      (parts.countP fun part => (Item.plain e part).binding?.isSome) +
      (Word.flagWords groups).length + (if groups.any Word.isTerminator then 1 else 0) := by
  induction h with
  | nil => rfl
  | @cons g part groups parts first others ih =>
      obtain ⟨hend, hone⟩ := first.counts e
      have hflags : (if Word.isLoneOption g then [g] else []).length =
          if Word.isLoneOption g then 1 else 0 := by
        split <;> rfl
      simp only [List.length_cons, List.countP_cons, Word.flagWords_cons hend, List.length_append,
        hflags, List.any_cons, hend, Bool.false_or]
      omega
  | @terminated t hkind hliteral ws =>
      have hend : Word.isTerminator [[t]] = true := by simp [Word.isTerminator, hkind, hliteral]
      have harguments : (ws.map positional).countP
          (fun part => (Item.plain e part).argument?.isSome) = ws.length := by
        rw [List.countP_map]
        exact List.countP_eq_length.2 fun _ _ => rfl
      have hbindings : (ws.map positional).countP
          (fun part => (Item.plain e part).binding?.isSome) = 0 := by
        rw [List.countP_map]
        exact List.countP_eq_zero.2 fun _ _ => nofun
      simp only [List.length_cons, List.length_map, List.countP_cons, harguments, hbindings,
        Word.flagWords_terminated hend, List.any_cons, hend]
      simp [Item.plain, Item.argument?, Item.binding?]

/-- The flags are those of the flag words. -/
theorem Regroups.flags_plain (h : Regroups groups parts) :
    (parts.map (Item.plain e)).flatMap Item.flags =
      (Word.flagWords groups).flatMap fun g => Item.flagsOf (e.substituted g.flatten) := by
  induction h with
  | nil => rfl
  | cons first others ih =>
      rw [List.map_cons, List.flatMap_cons, ih, first.flags_plain e,
        Word.flagWords_cons (first.counts e).1, List.flatMap_append]
  | @terminated t hkind hliteral ws =>
      have hend : Word.isTerminator [[t]] = true := by simp [Word.isTerminator, hkind, hliteral]
      rw [Word.flagWords_terminated hend, List.map_cons, List.flatMap_cons, List.map_map,
        List.flatMap_map]
      exact List.flatMap_eq_nil_iff.2 fun _ _ => rfl

end Tally

end Part

namespace Command

/-! ## What is handed over -/

/-- Each option has its values, and all options together have all the values that are bound. -/
theorem sum_optionValues (c : Command) :
    (c.optionNames.map fun option => (c.optionValues option).length).sum = c.bindings.length := by
  let keys := c.bindings.map (·.1)
  have hperm : c.optionNames.Perm keys.dedup := by
    refine (List.perm_ext_iff_of_nodup (Text.nodup_sortedSet _) (List.nodup_dedup _)).2 ?_
    intro option
    rw [Text.mem_sortedSet, List.mem_dedup]
  have hvalues (option : Text) :
      (c.optionValues option).length = keys.countP fun key => decide (key = option) := by
    rw [optionValues, List.length_map, ← List.countP_eq_length_filter, List.countP_map]
    rfl
  calc (c.optionNames.map fun option => (c.optionValues option).length).sum
      = (keys.dedup.map fun option => (c.optionValues option).length).sum := (hperm.map _).sum_eq
    _ = (keys.dedup.map fun option => keys.countP fun key => decide (key = option)).sum := by
        simp only [hvalues]
    _ = keys.length := List.sum_map_count_dedup_eq_length keys
    _ = c.bindings.length := List.length_map _

/-- What it is for words, cut into groups, to be handed over by a command. -/
structure Hands (c : Command) (e : Expansion) (ws : List Word) (groups : List (List Word)) :
    Prop where
  flatten : groups.flatten = ws
  group : ∀ g ∈ groups, Word.Group g
  argv : c.argv = groups.map fun g => e.substituted g.flatten
  length_argv : c.argv.length = c.args.length +
    (c.optionNames.map fun option => (c.optionValues option).length).sum +
      (Word.flagWords groups).length + (if groups.any Word.isTerminator then 1 else 0)
  flags : c.flags = Text.sortedSet
    ((Word.flagWords groups).flatMap fun g => Item.flagsOf (e.substituted g.flatten))

/-- Of the words after the name none is lost, none is read twice, and they stay in order. -/
theorem parseLine_hands (e : Expansion) {line : Text} {c : Command}
    (h : parseLine e (fun _ => []) line = .ok (some c))
    (htilde : ∀ t ∈ readable (Token.ofLine line), t.kind ≠ .variable → ¬t.literal.Homeward) :
    ∃ groups, c.Hands e (Word.ofTokens (readable (Token.ofLine line))).tail groups := by
  obtain ⟨hfault, first, rest, hwords, rfl⟩ := parse_eq_some_iff.1 h
  have hmem : ∀ t ∈ rest.flatten, ∃ w ∈ Word.ofTokens (readable (Token.ofLine line)), t ∈ w := by
    intro t ht
    obtain ⟨w, hw, ht⟩ := List.mem_flatten.1 ht
    refine ⟨w, ?_, ht⟩
    rw [hwords]
    exact List.mem_cons_of_mem first hw
  have hlexed : ∀ t ∈ rest.flatten, t.Lexed := by
    intro t ht
    obtain ⟨w, hw, ht⟩ := hmem t ht
    exact lexed_of_mem hfault hw t ht
  have hhome : ∀ t ∈ rest.flatten, t.kind ≠ .variable → ¬t.literal.Homeward := by
    intro t ht
    obtain ⟨w, hw, ht⟩ := hmem t ht
    exact htilde t ((Word.mem_of_mem_ofTokens hw).2 t ht).1
  obtain ⟨groups, rfl, hgroups⟩ := Part.ofWords_regroups fun w hw t ht =>
    hlexed t (List.mem_flatten.2 ⟨w, hw, ht⟩)
  rw [hwords, Item.flatMap_ofPart_unmatched]
  have hargv := hgroups.map_word_plain e hlexed hhome
  refine ⟨groups, rfl, hgroups.group, hargv, ?_, congrArg Text.sortedSet (hgroups.flags_plain e)⟩
  rw [sum_optionValues, argv, hargv, List.length_map, hgroups.length_eq e, args, bindings,
    List.length_filterMap_eq_countP, List.length_filterMap_eq_countP, List.countP_map,
    List.countP_map]
  rfl

/-- A line with options of every form: the `=` and the value are apart, glued and missing. -/
def optionForms : Text := "cp --to = /x --a =b --c= 'd e' --q=f$X -g = -v -- --z = -1.5".toList

theorem parseLine_optionForms :
    ∃ c groups,
      parseLine ⟨fun _ => some ['1'], [], true⟩ (fun _ => []) optionForms = .ok (some c) ∧
        (∀ t ∈ readable (Token.ofLine optionForms), t.kind ≠ .variable → ¬t.literal.Homeward) ∧
        c.Hands ⟨fun _ => some ['1'], [], true⟩
          (Word.ofTokens (readable (Token.ofLine optionForms))).tail groups ∧
        c.argv = ["--to=/x".toList, "--a=b".toList, "--c=d e".toList, "--q=f1".toList,
          "-g=".toList, "-v".toList, "--".toList, "--z".toList, ['='], "-1.5".toList] := by
  have htilde : ∀ t ∈ readable (Token.ofLine optionForms),
      t.kind ≠ .variable → ¬t.literal.Homeward := by
    decide +kernel
  obtain ⟨c, hread, hargv⟩ : ∃ c,
      parseLine ⟨fun _ => some ['1'], [], true⟩ (fun _ => []) optionForms = .ok (some c) ∧
        c.argv = ["--to=/x".toList, "--a=b".toList, "--c=d e".toList, "--q=f1".toList,
          "-g=".toList, "-v".toList, "--".toList, "--z".toList, ['='], "-1.5".toList] :=
    ⟨_, by cbv, by cbv⟩
  obtain ⟨groups, hgroups⟩ := parseLine_hands ⟨fun _ => some ['1'], [], true⟩ hread htilde
  exact ⟨c, groups, hread, htilde, hgroups, hargv⟩

end Command

end PrefixShell
