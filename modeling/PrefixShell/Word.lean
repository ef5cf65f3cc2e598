import PrefixShell.Glob.Escape
import PrefixShell.Token

/-!
# Words

Tokens that touch each other form one word: `$HOME/bin`, `foo"bar"`, `--key=value`. Blanks part the
words of a line.
-/

namespace PrefixShell

/-- A word: tokens with no blank between them. -/
abbrev Word := List Token

namespace Word

/-- The words of a list of tokens, parted by the blanks in it. -/
def ofTokens (ts : List Token) : List Word :=
  (ts.splitOnP (·.kind = .blank)).filter (!·.isEmpty)

def isQuoted (w : Word) : Bool := w.any Token.isQuoted

/-- Whether a token is typed as it stands, being neither quoted nor a variable. -/
def isTyped (t : Token) : Bool := t.kind = .word || t.kind = .equals || t.kind = .option

/-- Whether a wildcard was typed in the word itself, outside quotes and variables. -/
def hasTypedWildcard (w : Word) : Bool := w.any fun t => isTyped t && Glob.hasWildcard t.literal

end Word

end PrefixShell
