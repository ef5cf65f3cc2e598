import PrefixShell.Proofs.Command.Grouping

/-!
# Which words are arguments

The parser looks ahead: when it comes to an option, it takes the words after it that belong to the
option.  The same can be told without looking ahead.  Read from left to right, a word is an argument
or none depending on what is awaited when it comes, and this depends on little: on an option that its
`=` may still follow, on a `=` that its value may still follow, and on a lone `--`.

What is awaited is `Awaited`, and what one word does to it is `Awaited.read`.  The arguments of a line
are then the words that `Awaited.arguments` keeps.

## Main results

* `arguments_value`, `arguments_afterEquals`: to await a value is to leave out the word that is one.
* `arguments_option`: an option is no argument, and neither are the words that it takes.
* `filterMap_argument?_ofWords`: the arguments that the parser finds are those that are found by
  reading from left to right.
-/

namespace PrefixShell

namespace Part

/-- The word that is an argument. -/
def argument? : Part → Option Word
  | positional w => some w
  | _ => none

end Part

namespace Word

/-- What is awaited of the words to come. -/
inductive Awaited where
  | nothing
  /-- The `=` of an option that was typed by itself. -/
  | equals
  /-- The value of an option, after a `=` that nothing is glued to. -/
  | value
  /-- Arguments and no more options, after a lone `--`. -/
  | anything
deriving DecidableEq, Repr

namespace Awaited

/-- What is awaited after the `=` of an option, given what is glued to it. -/
def afterEquals (glued : Word) : Awaited := if glued.isEmpty then .value else .nothing

/-- Whether a word that nothing is awaited of is an argument, and what is awaited after it. -/
def start : Word → Bool × Awaited
  | [] => (true, .nothing)
  | [t] =>
    if t.kind = .option then (false, if t.literal = ['-', '-'] then .anything else .equals)
    else (true, .nothing)
  | t :: e :: glued =>
    if t.kind = .option ∧ e.kind = .equals then (false, afterEquals glued) else (true, .nothing)

/-- Whether the next word is an argument, and what is awaited after it. -/
def read : Awaited → Word → Bool × Awaited
  | nothing, w => start w
  | equals, w => if Part.begins .equals w then (false, afterEquals w.tail) else start w
  | value, w =>
    if Part.begins .option w || Part.begins .equals w then start w else (false, .nothing)
  | anything, _ => (true, .anything)

/-- The words that are arguments. -/
def arguments : Awaited → List Word → List Word
  | _, [] => []
  | a, w :: ws => (if (a.read w).1 then [w] else []) ++ arguments (a.read w).2 ws

variable {t : Token} {glued : Word} {ws : List Word}

theorem arguments_cons {a after : Awaited} {w : Word} {keeps : Bool} (h : a.read w = (keeps, after))
    (ws : List Word) : a.arguments (w :: ws) = (if keeps then [w] else []) ++ after.arguments ws := by
  rw [arguments, h]

/-- After a lone `--` every word is an argument. -/
theorem arguments_anything (ws : List Word) : anything.arguments ws = ws := by
  induction ws with
  | nil => rfl
  | cons w ws ih => exact congrArg (w :: ·) ih

/-- To await a value is to leave out the word that is one. -/
theorem arguments_value (ws : List Word) :
    value.arguments ws = nothing.arguments (Part.separateValue ws).2 := by
  cases ws with
  | nil => rfl
  | cons w ws =>
      rw [Part.separateValue]
      by_cases h : (Part.begins .option w || Part.begins .equals w) = true
      · have hread : value.read w = nothing.read w := if_pos h
        rw [if_pos h, arguments_cons hread]
        rfl
      · have hread : value.read w = (false, .nothing) := if_neg h
        rw [if_neg h, arguments_cons hread]
        rfl

theorem arguments_afterEquals (glued : Word) (ws : List Word) :
    (afterEquals glued).arguments ws = nothing.arguments (Part.valueAfterEquals glued ws).2 := by
  rw [afterEquals, Part.valueAfterEquals]
  split
  · exact arguments_value ws
  · rfl

theorem read_of_ne_option (h : t.kind ≠ .option) (glued : Word) :
    nothing.read (t :: glued) = (true, .nothing) := by
  cases glued with
  | nil => exact if_neg h
  | cons e glued => exact if_neg fun hboth => h hboth.1

theorem read_of_lone (h : t.kind = .option) :
    nothing.read [t] = (false, if t.literal = ['-', '-'] then .anything else .equals) :=
  if_pos h

theorem read_of_glued {e : Token} (h : e.kind ≠ .equals) (t : Token) (glued : Word) :
    nothing.read (t :: e :: glued) = (true, .nothing) :=
  if_neg fun hboth => h hboth.2

/-- An option is no argument, and neither are the words that it takes. -/
theorem arguments_option {part : Part} {left : List Word} (hkind : t.kind = .option)
    (hspelled : '=' ∉ t.literal) (hend : ¬(t.literal = ['-', '-'] ∧ glued = []))
    (h : Part.ofOption t.literal glued ws = some (part, left)) :
    part.argument? = none ∧ nothing.arguments ((t :: glued) :: ws) = nothing.arguments left := by
  simp only [Part.ofOption, Part.splitAtEquals?_eq_none hspelled] at h
  cases glued with
  | cons e glued =>
      by_cases he : e.kind = .equals
      · simp only [he, if_true, Option.some.injEq] at h
        cases h
        have hread : nothing.read (t :: e :: glued) = (false, afterEquals glued) :=
          if_pos ⟨hkind, he⟩
        exact ⟨rfl, (arguments_cons hread ws).trans (arguments_afterEquals glued ws)⟩
      · simp only [he, if_false] at h
        cases h
  | nil =>
      have hliteral : t.literal ≠ ['-', '-'] := fun hliteral => hend ⟨hliteral, rfl⟩
      rw [arguments_cons (read_of_lone hkind), if_neg hliteral]
      -- Unless the `=` follows, to await it is to await nothing.
      cases ws with
      | nil =>
          cases h
          exact ⟨rfl, rfl⟩
      | cons w ws =>
          cases w with
          | nil =>
              cases h
              exact ⟨rfl, rfl⟩
          | cons e glued =>
              by_cases he : e.kind = .equals
              · have hnext : equals.read (e :: glued) = (false, afterEquals glued) :=
                  if_pos (by simp [Part.begins, he])
                simp only [he, if_true, Option.some.injEq] at h
                cases h
                exact ⟨rfl, (arguments_cons hnext ws).trans (arguments_afterEquals glued ws)⟩
              · have hnext : equals.read (e :: glued) = nothing.read (e :: glued) :=
                  if_neg (by simp [Part.begins, he])
                simp only [he, if_false, Option.some.injEq] at h
                cases h
                exact ⟨rfl, arguments_cons hnext ws⟩

end Awaited

end Word

namespace Part

/-- The arguments that the parser finds are those that are found by reading from left to right. -/
theorem filterMap_argument?_ofWords {ws : List Word} (hws : ∀ w ∈ ws, ∀ t ∈ w, t.Lexed) :
    (ofWords ws).filterMap argument? = Word.Awaited.nothing.arguments ws := by
  fun_induction ofWords ws with
  | case1 => rfl
  | case2 ws ih =>
      exact congrArg ([] :: ·) (ih fun w hw => hws w (List.mem_cons_of_mem _ hw))
  | case3 t glued ws hkind ih =>
      rw [Word.Awaited.arguments_cons (Word.Awaited.read_of_ne_option hkind glued)]
      exact congrArg ((t :: glued) :: ·) (ih fun w hw => hws w (List.mem_cons_of_mem _ hw))
  | case4 t glued ws hkind hend =>
      obtain ⟨hliteral, rfl⟩ := hend
      have hall : (ws.map positional).filterMap argument? = ws := by
        rw [List.filterMap_map]
        exact List.filterMap_some
      rw [Word.Awaited.arguments_cons (Word.Awaited.read_of_lone (Decidable.not_not.1 hkind)),
        if_pos hliteral, Word.Awaited.arguments_anything]
      exact hall
  | case5 t glued ws hkind hend part left h hle ih =>
      have hkind : t.kind = .option := Decidable.not_not.1 hkind
      have hspelled : '=' ∉ t.literal :=
        (hws _ List.mem_cons_self t List.mem_cons_self).option hkind
      obtain ⟨taken, rfl, -⟩ := madeOf_ofOption hkind hspelled hend h
      obtain ⟨hpart, harguments⟩ := Word.Awaited.arguments_option hkind hspelled hend h
      rw [List.filterMap_cons_none hpart, harguments]
      exact ih fun w hw => hws w (List.mem_cons_of_mem _ (List.mem_append_right taken hw))
  | case6 t glued ws hkind hend h ih =>
      have hkind : t.kind = .option := Decidable.not_not.1 hkind
      have hread : Word.Awaited.nothing.read (t :: glued) = (true, .nothing) := by
        cases glued with
        | nil => exact absurd rfl (glued_ne_nil_of_ofOption h)
        | cons e glued =>
            refine Word.Awaited.read_of_glued ?_ t glued
            intro he
            have hspelled : '=' ∉ t.literal :=
              (hws _ List.mem_cons_self t List.mem_cons_self).option hkind
            rw [ofOption_equals (splitAtEquals?_eq_none hspelled) he] at h
            cases h
      rw [Word.Awaited.arguments_cons hread]
      exact congrArg ((t :: glued) :: ·) (ih fun w hw => hws w (List.mem_cons_of_mem _ hw))

end Part

end PrefixShell
