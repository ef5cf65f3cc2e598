import PrefixShell.Proofs.Token.Sequence

/-!
# Writing a command down

A command can be written so that nothing in it is taken for something else.  A text is quoted, with
an empty string in front of the quotation: a `~` is expanded only in the first piece of a word, and
there the first piece is empty.  An option is written as it is spelled, and its value is glued to a
`=`.

What can be written is held in types: a `Quotation`, a `Spelling`, a `Name` and an `Entry` carry the
proof that they may be written as they are.

## Main results

* `ofText_written`: a written entry is lexed into the lexemes it was made of.
* `ofText_render`: the lexemes of a written command are those of its name and its entries, each
  entry after a blank.
-/

namespace PrefixShell.Rendering

open Lexeme

/-! ## What can be written -/

/-- A text in quotes; any text between double ones, and one without `'` also between single ones. -/
inductive Quotation where
  | double (text : Text)
  | single (text : Text) (valid : '\'' ∉ text)

/-- The spelling of an option: a long one, or a cluster of one or more short ones. -/
inductive Spelling where
  | long (name : Text) (valid : ∀ c ∈ name, isLongOptionChar c = true)
  | short (first : Char) (others : Text)
    (valid : ∀ c ∈ first :: others, Text.isAlphanumeric c = true)

/-- The name of a command, made of letters and digits. -/
structure Name where
  first : Char
  others : Text
  valid : ∀ c ∈ first :: others, Text.isAlphanumeric c = true

namespace Quotation

/-- The text that is quoted. -/
def text : Quotation → Text
  | double s => s
  | single s _ => s

def quote : Quotation → Quote
  | double _ => .double
  | single _ _ => .single

/-- The text in its quotes. -/
def quoted : Quotation → Text
  | double s => '"' :: (escape s ++ ['"'])
  | single s _ => '\'' :: (s ++ ['\''])

/-- The quotation as it is written, an empty string in front. -/
def written (q : Quotation) : Text := '"' :: '"' :: q.quoted

def lexemes (q : Quotation) : List Lexeme :=
  [⟨.quoted .double, ['"', '"'], []⟩, ⟨.quoted q.quote, q.quoted, q.text⟩]

end Quotation

namespace Spelling

/-- The option as it is written. -/
def text : Spelling → Text
  | long name _ => '-' :: '-' :: name
  | short first others _ => '-' :: first :: others

/-- The flags that the option sets: a cluster sets one for each character. -/
def flags : Spelling → List Text
  | long name _ => ['-' :: '-' :: name]
  | short first others _ => (first :: others).map (['-', ·])

def lexeme (k : Spelling) : Lexeme := ⟨.option, k.text, k.text⟩

end Spelling

namespace Name

/-- The name as it is written. -/
def text (n : Name) : Text := n.first :: n.others

def lexeme (n : Name) : Lexeme := ⟨.word, n.text, n.text⟩

end Name

/-- One thing to write after the name: an argument, an option with a value, or a flag, which may not
be the `--` that ends the options. -/
inductive Entry where
  | positional (value : Quotation)
  | binding (option : Spelling) (value : Quotation)
  | flag (option : Spelling) (valid : option.text ≠ ['-', '-'])

namespace Entry

/-- The entry as it is written. -/
def written : Entry → Text
  | positional q => q.written
  | binding k v => k.text ++ '=' :: v.written
  | flag k _ => k.text

def lexemes : Entry → List Lexeme
  | positional q => q.lexemes
  | binding k v => k.lexeme :: ⟨.equals, ['='], ['=']⟩ :: v.lexemes
  | flag k _ => [k.lexeme]

end Entry

/-- The blank that parts the entries, as it is lexed. -/
def blank : Lexeme := ⟨.blank, [' '], [' ']⟩

/-- The line in which a command is written: its name, and a space before each entry. -/
def render (name : Name) (entries : List Entry) : Text :=
  name.text ++ entries.flatMap fun x => ' ' :: x.written

/-! ## What stops what -/

theorem isLongOptionChar_of_isAlphanumeric {c : Char} (h : Text.isAlphanumeric c = true) :
    isLongOptionChar c = true := by
  simp [isLongOptionChar, h]

theorem stops_alphanumeric {t : Text} (h : t.Stops isLongOptionChar) :
    t.Stops Text.isAlphanumeric := by
  intro c hc
  cases halpha : Text.isAlphanumeric c with
  | false => rfl
  | true =>
      have hlong := isLongOptionChar_of_isAlphanumeric halpha
      rw [h c hc] at hlong
      exact hlong.symm

theorem endsWord_of_isAlphanumeric {c : Char} (h : Text.isAlphanumeric c = true) :
    endsWord c = false := by
  have hspace : c ≠ ' ' := Text.ne_of_isAlphanumeric h (by decide)
  have htab : c ≠ '\t' := Text.ne_of_isAlphanumeric h (by decide)
  have hnewline : c ≠ '\n' := Text.ne_of_isAlphanumeric h (by decide)
  have hdouble : c ≠ '"' := Text.ne_of_isAlphanumeric h (by decide)
  have hsingle : c ≠ '\'' := Text.ne_of_isAlphanumeric h (by decide)
  have hdollar : c ≠ '$' := Text.ne_of_isAlphanumeric h (by decide)
  have hequals : c ≠ '=' := Text.ne_of_isAlphanumeric h (by decide)
  simp [endsWord, isBlank, *]

/-- The entries after something begin with a space, if there are any. -/
theorem stops_entries (entries : List Entry) {belongs : Char → Bool}
    (h : belongs ' ' = false) : Text.Stops belongs (entries.flatMap fun x => ' ' :: x.written) := by
  cases entries with
  | nil => exact Text.Stops.nil belongs
  | cons x entries => exact Text.Stops.cons h _

/-- An entry does not begin with a blank. -/
theorem stops_written (x : Entry) (t : Text) : (x.written ++ t).Stops isBlank := by
  have hdouble : isBlank '"' = false := by decide
  have hdash : isBlank '-' = false := by decide
  cases x with
  | positional q => exact Text.Stops.cons hdouble _
  | binding k v => cases k <;> exact Text.Stops.cons hdash _
  | flag k _ => cases k <;> exact Text.Stops.cons hdash _

/-! ## What is written is lexed again -/

theorem Quotation.ofText_quoted (q : Quotation) (t : Text) :
    ofText (q.quoted ++ t) = ⟨.quoted q.quote, q.quoted, q.text⟩ :: ofText t := by
  cases q with
  | double s =>
      have hquoted : ('"' :: (escape s ++ ['"'])) ++ t = '"' :: (escape s ++ '"' :: t) := by
        simp
      rw [quoted, hquoted, ofText_double]
      rfl
  | single s valid =>
      have hquoted : ('\'' :: (s ++ ['\''])) ++ t = '\'' :: (s ++ '\'' :: t) := by
        simp
      rw [quoted, hquoted, ofText_single valid]
      rfl

theorem Quotation.ofText_written (q : Quotation) (t : Text) :
    ofText (q.written ++ t) = q.lexemes ++ ofText t := by
  have hempty (u : Text) :
      ofText ('"' :: '"' :: u) = ⟨.quoted .double, ['"', '"'], []⟩ :: ofText u :=
    ofText_double [] u
  rw [written, List.cons_append, List.cons_append, hempty, q.ofText_quoted]
  rfl

theorem Spelling.ofText_text (k : Spelling) {t : Text} (ht : t.Stops isLongOptionChar) :
    ofText (k.text ++ t) = k.lexeme :: ofText t := by
  cases k with
  | long name valid => exact ofText_long valid ht
  | short first others valid => exact ofText_short valid (stops_alphanumeric ht)

theorem Name.ofText_text (n : Name) {t : Text} (ht : t.Stops fun d => !endsWord d) :
    ofText (n.text ++ t) = n.lexeme :: ofText t := by
  have hdash : n.first ≠ '-' :=
    Text.ne_of_isAlphanumeric (n.valid n.first List.mem_cons_self) (by decide)
  refine ofText_word hdash ?_ ht
  intro d hd
  exact endsWord_of_isAlphanumeric (n.valid d hd)

/-- An entry is lexed into the lexemes it was made of, if what follows does not go on with it. -/
theorem Entry.ofText_written (x : Entry) {t : Text} (ht : t.Stops isLongOptionChar) :
    ofText (x.written ++ t) = x.lexemes ++ ofText t := by
  cases x with
  | positional q => exact q.ofText_written t
  | binding k v =>
      have hequals : Text.Stops isLongOptionChar ('=' :: (v.written ++ t)) :=
        Text.Stops.cons (by decide) _
      rw [written, List.append_assoc, List.cons_append, k.ofText_text hequals, ofText_equals,
        v.ofText_written]
      rfl
  | flag k valid => exact k.ofText_text ht

theorem ofText_entries (entries : List Entry) :
    ofText (entries.flatMap fun x => ' ' :: x.written) =
      entries.flatMap fun x => blank :: x.lexemes := by
  induction entries with
  | nil => exact ofText_nil
  | cons x entries ih =>
      have hspace : isLongOptionChar ' ' = false := by decide
      have hstop := stops_entries entries hspace
      rw [List.flatMap_cons, List.flatMap_cons, List.cons_append,
        ofText_blank (stops_written x _), x.ofText_written hstop, ih]
      rfl

/-- A written command is lexed into its name and its entries, each after a blank. -/
theorem ofText_render (name : Name) (entries : List Entry) :
    ofText (render name entries) =
      name.lexeme :: entries.flatMap fun x => blank :: x.lexemes := by
  rw [render, name.ofText_text (stops_entries entries (by decide)), ofText_entries]

end PrefixShell.Rendering
