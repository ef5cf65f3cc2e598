import PrefixShell.Command
import PrefixShell.Command.Part
import PrefixShell.Error
import PrefixShell.Token.Lexer
import PrefixShell.Word.Expansion

/-!
# Reading a command line

From the tokens of a line to its command: the first word is the name, the others are sorted into
parts, and each part is expanded to the items of the command. Only the tokens before the first
newline are read, and a line with a token that could not be read is refused as a whole.

An argument with wildcards is looked up by a matcher, which answers the paths to put in its place;
where there are none the argument stands for itself.

## Main results

* `parse_eq_error_iff`: a line is refused exactly for the first fault in it.
* `parse_eq_none_iff`: a line without faults is blank exactly if it has no words.
* `parse_eq_some_iff`: of the words of any other line the first is the name, and the others become the
  items.
-/

namespace PrefixShell

namespace Item

/-- The items that a part becomes, given the paths that match a pattern. -/
def ofPart (e : Expansion) (matching : Text → List Text) : Part → List Item
  | .positional w =>
    match (e.pattern? w).map matching with
    | none | some [] => [.argument (e.word w) w.isQuoted]
    | some paths => paths.map (.argument · false)
  | .binding option typed value => [.binding option (typed ++ e.word value)]
  | .flag spelling => [.flag spelling]
  | .endOfOptions => [.endOfOptions]

end Item

/-- The pattern that the matcher is asked for on account of a part. -/
def Part.pattern? (e : Expansion) : Part → Option Text
  | .positional w => e.pattern? w
  | _ => none

namespace Command

/-- The tokens that are read: those before the first newline. -/
def readable (ts : List Token) : List Token := ts.takeWhile (!·.endsLine)

/-- The first fault among tokens, as the error it causes. -/
def firstFault? (ts : List Token) : Option ShellError :=
  ts.findSome? fun t => t.fault?.map fun f => .malformed f.message t.position

/-- The name that a word stands for; one that stands for nothing is taken as it was typed. -/
def nameOf (e : Expansion) (w : Word) : Text :=
  if (e.word w).isEmpty then Token.rawText w else e.word w

/-- Reads a command from tokens; a blank line has none. -/
def parse (e : Expansion) (matching : Text → List Text) (ts : List Token) :
    Except ShellError (Option Command) :=
  match firstFault? (readable ts) with
  | some error => .error error
  | none =>
    match Word.ofTokens (readable ts) with
    | [] => .ok none
    | first :: rest =>
      .ok (some {
        name := nameOf e first
        items := (Part.ofWords rest).flatMap (Item.ofPart e matching)
        rawInput := Token.rawText ts })

def parseLine (e : Expansion) (matching : Text → List Text) (line : Text) :
    Except ShellError (Option Command) :=
  parse e matching (Token.ofLine line)

/-- The patterns that the matcher is asked for, in order. -/
def askedPatterns (e : Expansion) (ts : List Token) : List Text :=
  match firstFault? (readable ts) with
  | some _ => []
  | none => (Part.ofWords (Word.ofTokens (readable ts)).tail).filterMap (Part.pattern? e)

/-- There is no first fault exactly if there is none. -/
theorem firstFault?_eq_none_iff {ts : List Token} :
    firstFault? ts = none ↔ ∀ t ∈ ts, t.fault? = none := by
  simp [firstFault?]

/-! ## The three outcomes -/

/-- A line is refused exactly for the first fault in it. -/
theorem parse_eq_error_iff {e : Expansion} {matching : Text → List Text} {ts : List Token}
    {error : ShellError} :
    parse e matching ts = .error error ↔ firstFault? (readable ts) = some error := by
  unfold parse
  split
  · rename_i error' h; simp [h]
  · rename_i h; split <;> simp [h]

/-- A line is blank exactly if it has neither faults nor words. -/
theorem parse_eq_none_iff {e : Expansion} {matching : Text → List Text} {ts : List Token} :
    parse e matching ts = .ok none ↔
      firstFault? (readable ts) = none ∧ Word.ofTokens (readable ts) = [] := by
  unfold parse
  split
  · rename_i error' h; simp [h]
  · rename_i h; split <;> simp_all

/-- A line makes a command exactly if it has words and no faults. -/
theorem parse_eq_some_iff {e : Expansion} {matching : Text → List Text} {ts : List Token}
    {c : Command} :
    parse e matching ts = .ok (some c) ↔
      firstFault? (readable ts) = none ∧ ∃ first rest,
        Word.ofTokens (readable ts) = first :: rest ∧ c = {
          name := nameOf e first
          items := (Part.ofWords rest).flatMap (Item.ofPart e matching)
          rawInput := Token.rawText ts } := by
  unfold parse
  split
  · rename_i error' h; simp [h]
  · rename_i h
    split
    · rename_i hwords; simp [hwords]
    · rename_i first rest hwords
      constructor
      · intro heq
        cases heq
        exact ⟨h, first, rest, hwords, rfl⟩
      · rintro ⟨-, first', rest', hwords', rfl⟩
        cases hwords.symm.trans hwords'
        rfl

end Command

end PrefixShell
