import PrefixShell.Text

/-!
# Tokens

The lexical units of a command line, each with the exact text it was read from (`raw`), the text it
stands for (`literal`) and the place where it begins.
-/

namespace PrefixShell

/-! ## Places in a text -/

/-- A place in a text: the line and the column, both counted from one and the column in
characters, and the number of bytes before it in UTF-8. -/
structure Position where
  line : Nat
  column : Nat
  offset : Nat
deriving DecidableEq, Repr

namespace Position

def start : Position := ⟨1, 1, 0⟩

instance : Inhabited Position := ⟨start⟩

def advance (p : Position) (c : Char) : Position :=
  if c = '\n' then ⟨p.line + 1, 1, p.offset + c.utf8Size⟩
  else ⟨p.line, p.column + 1, p.offset + c.utf8Size⟩

def advanceBy (p : Position) (t : Text) : Position := t.foldl advance p

@[simp] theorem advanceBy_nil (p : Position) : p.advanceBy [] = p := rfl

theorem advanceBy_append (p : Position) (s t : Text) :
    p.advanceBy (s ++ t) = (p.advanceBy s).advanceBy t := by
  simp [advanceBy]

/-- How a place is named in a message. -/
def message (p : Position) : Text :=
  "line ".toList ++ Text.ofNat p.line ++ ", column ".toList ++ Text.ofNat p.column

end Position

/-! ## Kinds of token -/

/-- The two ways to quote a string. -/
inductive Quote where
  /-- `'…'`: every character stands for itself. -/
  | single
  /-- `"…"`: a few characters may be escaped by a backslash. -/
  | double
deriving DecidableEq, Repr

/-- What is wrong with a text that cannot be read to its end. -/
inductive Fault where
  /-- A quote is opened and never closed. -/
  | unterminatedString
  /-- A `${` is never closed by `}`. -/
  | unterminatedVariable
deriving DecidableEq, Repr

def Fault.message : Fault → Text
  | unterminatedString => "unterminated string".toList
  | unterminatedVariable => "unterminated variable".toList

/-- What a token is. -/
inductive TokenKind where
  /-- An unquoted run of ordinary characters. -/
  | word
  /-- A quoted string. -/
  | quoted (quote : Quote)
  /-- A long option `--name` or a cluster of short ones `-abc`. -/
  | option
  /-- A lone `=`. -/
  | equals
  /-- A variable, `$NAME` or `${NAME}`. -/
  | variable
  /-- A run of spaces and tabs. -/
  | blank
  /-- A line break, which ends the logical line. -/
  | newline
  /-- The end of the text. -/
  | eof
  /-- Text that cannot be read; nothing follows it. -/
  | fault (cause : Fault)
deriving DecidableEq, Repr

/-- A lexical unit. -/
structure Token where
  kind : TokenKind
  /-- The exact text read. -/
  raw : Text
  /-- What the text stands for: quotes and escapes undone, the bare name of a variable. -/
  literal : Text
  position : Position
deriving DecidableEq, Repr

namespace Token

/-- Whether the token parts words from each other. -/
def isSeparator (t : Token) : Bool :=
  t.kind = .blank || t.kind = .newline || t.kind = .eof

def endsLine (t : Token) : Bool := t.kind = .newline || t.kind = .eof

def isQuoted (t : Token) : Bool :=
  match t.kind with
  | .quoted _ => true
  | _ => false

/-- The fault that the token reports, if it reports one. -/
def fault? (t : Token) : Option Fault :=
  match t.kind with
  | .fault cause => some cause
  | _ => none

/-- The exact text that a list of tokens was read from. -/
def rawText (ts : List Token) : Text := ts.flatMap raw

end Token

end PrefixShell
