import PrefixShell.Text.Alphanumeric
import PrefixShell.Token

/-!
# Lexemes

How one lexical unit is read off the front of a text. The first character decides which unit it is:

* a space or a tab begins a run of them;
* a newline stands alone, and so does `=`;
* `"` and `'` begin a quoted string, `$` a variable, `-` an option;
* anything else begins a word, which goes on until a character of the above kinds other than `-`.

## Main results

* `first_raw_append_rest`: the text read and the rest are the whole text.
* `first_raw_ne_nil`: something is read.
* `length_rest_lt`: the rest is shorter, which is why reading a whole text ends.
-/

namespace PrefixShell

/-- A lexical unit without its place. -/
structure Lexeme where
  kind : TokenKind
  raw : Text
  literal : Text
deriving DecidableEq, Repr

/-- A lexeme read off the front of a text, and what follows it. -/
structure Reading where
  lexeme : Lexeme
  rest : Text
deriving DecidableEq, Repr

namespace Lexeme

/-! ## Classes of characters -/

/-- A space or a tab. -/
def isBlank (c : Char) : Bool := c = ' ' || c = '\t'

def isNameChar (c : Char) : Bool := Text.isAlphanumeric c || c = '_'

def isLongOptionChar (c : Char) : Bool := Text.isAlphanumeric c || c = '_' || c = '-'

/-- A character that ends an unquoted word. -/
def endsWord (c : Char) : Bool :=
  isBlank c || c = '\n' || c = '"' || c = '\'' || c = '$' || c = '='

/-! ## Quoted strings -/

/-- A quoted string after its opening quote: what it stands for, the characters read with the
closing quote among them, the rest, and whether there was a closing quote at all. -/
structure Body where
  literal : Text
  raw : Text
  rest : Text
  closed : Bool
deriving DecidableEq, Repr

/-- The body with more in front of it. -/
def Body.push (literal raw : Text) (b : Body) : Body :=
  { b with literal := literal ++ b.literal, raw := raw ++ b.raw }

/-- The character that a backslash and the given character stand for. -/
def escaped? (c : Char) : Option Char :=
  if c = '\\' || c = '"' || c = '$' then some c
  else if c = 'n' then some '\n'
  else if c = 't' then some '\t'
  else none

/-- Reads up to the closing `"`. A backslash that escapes nothing stands for itself, and the
character after it is read anew. -/
def doubleQuoted : Text → Body
  | [] => ⟨[], [], [], false⟩
  | '"' :: rest => ⟨[], ['"'], rest, true⟩
  | '\\' :: c :: rest =>
    match escaped? c with
    | some d => (doubleQuoted rest).push [d] ['\\', c]
    | none => (doubleQuoted (c :: rest)).push ['\\'] ['\\']
  | c :: rest => (doubleQuoted rest).push [c] [c]

/-- Reads up to the closing `'`. -/
def singleQuoted : Text → Body
  | [] => ⟨[], [], [], false⟩
  | c :: rest => if c = '\'' then ⟨[], ['\''], rest, true⟩ else (singleQuoted rest).push [c] [c]

theorem doubleQuoted_raw_append_rest (t : Text) :
    (doubleQuoted t).raw ++ (doubleQuoted t).rest = t := by
  fun_induction doubleQuoted t with
  | case1 => rfl
  | case2 => rfl
  | case3 c rest d h ih => simp [Body.push, ih]
  | case4 c rest h ih => simp [Body.push, ih]
  | case5 c rest h₁ h₂ ih => simp [Body.push, ih]

theorem singleQuoted_raw_append_rest (t : Text) :
    (singleQuoted t).raw ++ (singleQuoted t).rest = t := by
  induction t with
  | nil => rfl
  | cons c rest ih =>
    by_cases h : c = '\''
    · simp [singleQuoted, h]
    · simp [singleQuoted, h, Body.push, ih]

/-! ## The units -/

/-- The lexeme of a run: the characters in front that belong to a class. -/
def run (kind : TokenKind) (belongs : Char → Bool) (t : Text) : Reading :=
  ⟨⟨kind, t.takeWhile belongs, t.takeWhile belongs⟩, t.dropWhile belongs⟩

/-- The lexeme of a quoted string, given its quote and its body. -/
def ofBody (quote : Quote) (opening : Char) (b : Body) : Reading :=
  let kind := if b.closed then .quoted quote else .fault .unterminatedString
  ⟨⟨kind, opening :: b.raw, b.literal⟩, b.rest⟩

/-- The lexeme that begins with `$`, given what follows it: a name in braces, a bare name, or the
lone character as a word. -/
def ofDollar : Text → Reading
  | '{' :: t =>
    let name := t.takeWhile (· ≠ '}')
    match t.dropWhile (· ≠ '}') with
    | [] => ⟨⟨.fault .unterminatedVariable, '$' :: '{' :: name, name⟩, []⟩
    | c :: rest => ⟨⟨.variable, '$' :: '{' :: (name ++ [c]), name⟩, rest⟩
  | t =>
    match t.takeWhile isNameChar with
    | [] => ⟨⟨.word, ['$'], ['$']⟩, t⟩
    | name => ⟨⟨.variable, '$' :: name, name⟩, t.dropWhile isNameChar⟩

/-- The lexeme that begins with `-`, given what follows it: a long option, a cluster of short
options, or the lone character as a word. -/
def ofDash : Text → Reading
  | '-' :: t =>
    let spelling := '-' :: '-' :: t.takeWhile isLongOptionChar
    ⟨⟨.option, spelling, spelling⟩, t.dropWhile isLongOptionChar⟩
  | t =>
    match t.takeWhile Text.isAlphanumeric with
    | [] => ⟨⟨.word, ['-'], ['-']⟩, t⟩
    | cluster => ⟨⟨.option, '-' :: cluster, '-' :: cluster⟩, t.dropWhile Text.isAlphanumeric⟩

/-- The first lexeme of the text `c :: t`. -/
def first (c : Char) (t : Text) : Reading :=
  if isBlank c then run .blank isBlank (c :: t)
  else if c = '\n' then ⟨⟨.newline, ['\n'], ['\n']⟩, t⟩
  else if c = '"' then ofBody .double '"' (doubleQuoted t)
  else if c = '\'' then ofBody .single '\'' (singleQuoted t)
  else if c = '$' then ofDollar t
  else if c = '=' then ⟨⟨.equals, ['='], ['=']⟩, t⟩
  else if c = '-' then ofDash t
  else run .word (fun d => !endsWord d) (c :: t)

/-! ## Nothing is lost and something is read -/

theorem run_raw_append_rest (kind : TokenKind) (belongs : Char → Bool) (t : Text) :
    (run kind belongs t).lexeme.raw ++ (run kind belongs t).rest = t :=
  List.takeWhile_append_dropWhile

theorem ofDollar_raw_append_rest (t : Text) :
    (ofDollar t).lexeme.raw ++ (ofDollar t).rest = '$' :: t := by
  unfold ofDollar
  split
  · rename_i t
    have h := List.takeWhile_append_dropWhile (p := (· ≠ '}')) (l := t)
    generalize t.takeWhile (· ≠ '}') = name at h
    generalize t.dropWhile (· ≠ '}') = rest at h
    cases rest <;> simp_all
  · have h := List.takeWhile_append_dropWhile (p := isNameChar) (l := t)
    split <;> simp_all

theorem ofDash_raw_append_rest (t : Text) :
    (ofDash t).lexeme.raw ++ (ofDash t).rest = '-' :: t := by
  unfold ofDash
  split
  · simp [List.takeWhile_append_dropWhile]
  · have h := List.takeWhile_append_dropWhile (p := Text.isAlphanumeric) (l := t)
    split <;> simp_all

/-- What is read and what is left are the whole text. -/
theorem first_raw_append_rest (c : Char) (t : Text) :
    (first c t).lexeme.raw ++ (first c t).rest = c :: t := by
  unfold first
  repeat' split
  all_goals simp_all [run_raw_append_rest, ofDollar_raw_append_rest, ofDash_raw_append_rest,
    ofBody, doubleQuoted_raw_append_rest, singleQuoted_raw_append_rest]

theorem ofDollar_raw_ne_nil (t : Text) : (ofDollar t).lexeme.raw ≠ [] := by
  unfold ofDollar
  split <;> split <;> simp

theorem ofDash_raw_ne_nil (t : Text) : (ofDash t).lexeme.raw ≠ [] := by
  unfold ofDash
  split
  · simp
  · split <;> simp

/-- At least one character is read. -/
theorem first_raw_ne_nil (c : Char) (t : Text) : (first c t).lexeme.raw ≠ [] := by
  unfold first
  split
  · simp [run, *]
  all_goals repeat' split
  all_goals simp_all [ofBody, ofDollar_raw_ne_nil, ofDash_raw_ne_nil, run, endsWord]

/-- No lexeme is the end of the text. -/
theorem first_kind_ne_eof (c : Char) (t : Text) : (first c t).lexeme.kind ≠ .eof := by
  unfold first
  repeat' split
  all_goals simp only [run, ofBody, ofDollar, ofDash, ne_eq]
  all_goals repeat' split
  all_goals simp

/-- The rest is shorter than the text. -/
theorem length_rest_lt (c : Char) (t : Text) : (first c t).rest.length < (c :: t).length := by
  have h := congrArg List.length (first_raw_append_rest c t)
  have h' := List.length_pos_iff.2 (first_raw_ne_nil c t)
  rw [List.length_append] at h
  omega

end Lexeme

end PrefixShell
