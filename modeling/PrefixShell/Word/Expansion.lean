import PrefixShell.Word

/-!
# Expansion

What a word stands for once its variables are replaced by their values and a leading `~` by the
home directory, and the pattern it stands for where it holds wildcards.
-/

namespace PrefixShell

/-- What expansion depends on. -/
structure Expansion where
  value? : Text → Option Text
  /-- The home directory in case `HOME` is not bound. -/
  fallbackHome : Text
  /-- Whether a leading `~` counts in a quoted piece as well. -/
  tildeInQuotes : Bool

namespace Expansion

/-- The value of a variable; one that is not bound is empty. -/
def value (e : Expansion) (name : Text) : Text := (e.value? name).getD []

def home (e : Expansion) : Text := (e.value? "HOME".toList).getD e.fallbackHome

/-- What follows a `~` that stands for the home directory: nothing, or a `/` and more. -/
def afterTilde? : Text → Option Text
  | '~' :: rest => if rest.isEmpty || rest.head? = some '/' then some rest else none
  | _ => none

theorem afterTilde?_of_ne {c : Char} (hc : c ≠ '~') (t : Text) : afterTilde? (c :: t) = none := by
  unfold afterTilde?
  split
  · rename_i heq
    exact absurd (List.cons.inj heq).1 hc
  · rfl

/-- A text with a leading `~` replaced by the home directory. -/
def tilde (e : Expansion) (t : Text) : Text :=
  match afterTilde? t with
  | some rest => e.home ++ rest
  | none => t

/-- What a piece of a word stands for; only the first piece can lead with `~`. -/
def piece (e : Expansion) (leading : Bool) (t : Token) : Text :=
  match t.kind with
  | .variable => e.value t.literal
  | .word | .option | .equals => if leading then e.tilde t.literal else t.literal
  | .quoted _ => if leading && e.tildeInQuotes then e.tilde t.literal else t.literal
  | .blank | .newline | .eof | .fault _ => []

/-- What a word stands for. -/
def word (e : Expansion) : Word → Text
  | [] => []
  | t :: ts => e.piece true t ++ ts.flatMap (e.piece false)

@[simp] theorem word_nil (e : Expansion) : e.word [] = [] := rfl

/-- The part that a piece has in the pattern of its word: only what was typed keeps its meaning. -/
def patternPiece (e : Expansion) (leading : Bool) (t : Token) : Text :=
  if t.kind = .variable then Glob.escape (e.value t.literal)
  else if leading then
    match afterTilde? t.literal with
    | some rest => Glob.escape e.home ++ rest
    | none => t.literal
  else t.literal

def pattern (e : Expansion) : Word → Text
  | [] => []
  | t :: ts => e.patternPiece true t ++ ts.flatMap (e.patternPiece false)

/-- The pattern for which files are to be looked up, if the word is one. -/
def pattern? (e : Expansion) (w : Word) : Option Text :=
  if !w.isQuoted && w.hasTypedWildcard then some (e.pattern w) else none

end Expansion

end PrefixShell
