import PrefixShell.Word

/-!
# Parts of a line

The words after the name of a command, sorted into arguments, options with a value, flags and the
`--` that ends the options. Which is which depends on the tokens alone: no value of a variable and
no file can change it.

An option takes its value from what is typed with it (`--key=value`), from what is glued to a
following `=` (`--key =value`, `--key= value`), or from the next word (`--key = value`), unless
that word is itself an option or begins with `=`.
-/

namespace PrefixShell

/-- One thing given after the name, before expansion. -/
inductive Part where
  /-- An argument. -/
  | positional (word : Word)
  /-- An option with a value: some of it typed within the option, the rest a word. -/
  | binding (option typed : Text) (value : Word)
  /-- An option without a value. -/
  | flag (spelling : Text)
  /-- The `--` after which no more options are read. -/
  | endOfOptions
deriving DecidableEq, Repr

namespace Part

/-- The text before the first `=` and the text after it. -/
def splitAtEquals? (t : Text) : Option (Text × Text) :=
  match t.dropWhile (· ≠ '=') with
  | [] => none
  | _ :: after => some (t.takeWhile (· ≠ '='), after)

theorem splitAtEquals?_eq_none {t : Text} (h : '=' ∉ t) : splitAtEquals? t = none := by
  have hall : ∀ c ∈ t, decide (c ≠ '=') = true := by
    intro c hc
    refine decide_eq_true ?_
    rintro rfl
    exact h hc
  have hdrop : (t ++ []).dropWhile (fun c => decide (c ≠ '=')) = [] :=
    List.dropWhile_append_of_pos hall
  rw [List.append_nil] at hdrop
  rw [splitAtEquals?, hdrop]

def begins (kind : TokenKind) (w : Word) : Bool := w.head?.any (·.kind = kind)

/-- The value for an option that ends in a `=`: the next word, unless it is an option or begins
with `=` itself; and the words left. -/
def separateValue : List Word → Word × List Word
  | [] => ([], [])
  | w :: ws => if begins .option w || begins .equals w then ([], w :: ws) else (w, ws)

/-- The value of an option after its `=`, given what is glued to that `=`, and the words left. -/
def valueAfterEquals (glued : Word) (ws : List Word) : Word × List Word :=
  if glued.isEmpty then separateValue ws else (glued, ws)

/-- An option with the value after its `=`, and the words left. -/
def bound (option : Text) (glued : Word) (ws : List Word) : Part × List Word :=
  (.binding option [] (valueAfterEquals glued ws).1, (valueAfterEquals glued ws).2)

/-- What a word that begins with an option is, given the option's spelling, the rest of the word
and the words after it; and the words left. An option glued to anything but a `=` is none. -/
def ofOption (spelling : Text) (glued : Word) (ws : List Word) : Option (Part × List Word) :=
  match splitAtEquals? spelling with
  | some (option, typed) => some (.binding option typed glued, ws)
  | none =>
    match glued with
    | e :: value => if e.kind = .equals then some (bound spelling value ws) else none
    | [] =>
      match ws with
      | (e :: value) :: ws' =>
        if e.kind = .equals then some (bound spelling value ws') else some (.flag spelling, ws)
      | _ => some (.flag spelling, ws)

theorem ofOption_equals {spelling : Text} {e : Token} {value : Word} {ws : List Word}
    (hspelling : splitAtEquals? spelling = none) (he : e.kind = .equals) :
    ofOption spelling (e :: value) ws = some (bound spelling value ws) := by
  simp only [ofOption, hspelling, he, if_true]

/-- An option on its own is a flag, unless the next word begins with `=`. -/
theorem ofOption_flag {spelling : Text} {ws : List Word}
    (hspelling : splitAtEquals? spelling = none)
    (hnext : ∀ w ∈ ws.head?, begins .equals w = false) :
    ofOption spelling [] ws = some (.flag spelling, ws) := by
  simp only [ofOption, hspelling]
  split
  · rename_i e value ws'
    have he : e.kind ≠ .equals := by simpa [begins] using hnext _ rfl
    rw [if_neg he]
  · rfl

theorem length_separateValue_le (ws : List Word) : (separateValue ws).2.length ≤ ws.length := by
  cases ws with
  | nil => exact Nat.le_refl _
  | cons w ws =>
    rw [separateValue]
    split
    · exact Nat.le_refl _
    · exact Nat.le_succ _

theorem length_valueAfterEquals_le (glued : Word) (ws : List Word) :
    (valueAfterEquals glued ws).2.length ≤ ws.length := by
  rw [valueAfterEquals]
  split
  · exact length_separateValue_le ws
  · exact Nat.le_refl _

/-- An option uses up none of the words after it, or some. -/
theorem length_ofOption_le {spelling : Text} {glued : Word} {ws : List Word}
    {r : Part × List Word} (h : ofOption spelling glued ws = some r) :
    r.2.length ≤ ws.length := by
  unfold ofOption at h
  split at h
  · cases h; exact Nat.le_refl _
  · split at h
    · split at h
      · cases h; exact length_valueAfterEquals_le _ _
      · cases h
    · split at h
      · split at h
        · cases h; exact Nat.le_succ_of_le (length_valueAfterEquals_le _ _)
        · cases h; exact Nat.le_refl _
      · cases h; exact Nat.le_refl _

/-- Sorts the words after the name of a command. -/
def ofWords : List Word → List Part
  | [] => []
  | [] :: ws => .positional [] :: ofWords ws
  | (t :: glued) :: ws =>
    if t.kind ≠ .option then .positional (t :: glued) :: ofWords ws
    else if t.literal = ['-', '-'] ∧ glued = [] then
      .endOfOptions :: ws.map .positional
    else
      match h : ofOption t.literal glued ws with
      | some (part, left) =>
        have : left.length ≤ ws.length := length_ofOption_le h
        part :: ofWords left
      | none => .positional (t :: glued) :: ofWords ws
termination_by ws => ws.length

theorem ofWords_nil : ofWords [] = [] := by
  rw [ofWords]

/-! ## What the first word is -/

variable {t : Token} {glued : Word} {ws : List Word}

/-- A word that does not begin with an option is an argument. -/
theorem ofWords_argument (hkind : t.kind ≠ .option) :
    ofWords ((t :: glued) :: ws) = .positional (t :: glued) :: ofWords ws := by
  rw [ofWords, if_pos hkind]

/-- After a lone `--` every word is an argument. -/
theorem ofWords_endOfOptions (hkind : t.kind = .option) (hliteral : t.literal = ['-', '-']) :
    ofWords ([t] :: ws) = .endOfOptions :: ws.map .positional := by
  rw [ofWords, if_neg (not_not_intro hkind), if_pos ⟨hliteral, rfl⟩]

/-- An option is a part, with the words it takes. -/
theorem ofWords_option {part : Part} {left : List Word} (hkind : t.kind = .option)
    (hend : ¬(t.literal = ['-', '-'] ∧ glued = []))
    (h : ofOption t.literal glued ws = some (part, left)) :
    ofWords ((t :: glued) :: ws) = part :: ofWords left := by
  rw [ofWords, if_neg (not_not_intro hkind), if_neg hend]
  split
  · rename_i heq
    rw [h] at heq
    cases heq
    rfl
  · rename_i heq
    rw [h] at heq
    cases heq

/-- An option glued to something that is not a value is an argument. -/
theorem ofWords_glued (hkind : t.kind = .option) (hend : ¬(t.literal = ['-', '-'] ∧ glued = []))
    (h : ofOption t.literal glued ws = none) :
    ofWords ((t :: glued) :: ws) = .positional (t :: glued) :: ofWords ws := by
  rw [ofWords, if_neg (not_not_intro hkind), if_neg hend]
  split
  · rename_i heq
    rw [h] at heq
    cases heq
  · rfl

end Part

end PrefixShell
