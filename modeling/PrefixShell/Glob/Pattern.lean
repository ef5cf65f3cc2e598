import PrefixShell.Glob.Escape

/-!
# Patterns

What the wildcards in a text stand for: `*` for any text, `?` for any character, `[…]` for one of a
set of characters and `[!…]` for one that is not in the set. A `**` that fills the whole space
between two slashes stands for any number of directories.

Not every text is a pattern. Three `*` in a row, a `**` beside other characters and a `[` that is
never closed have no meaning.
-/

namespace PrefixShell.Glob

/-- What one wildcard, or one plain character, of a pattern stands for. -/
inductive Element where
  /-- A character that stands for itself. -/
  | char (c : Char)
  /-- `?`. -/
  | anyChar
  /-- `*`. -/
  | anyText
  /-- `**` and the slash after it, or all the rest at the end of a pattern. -/
  | anyDirectories
  /-- `[…]`: ranges of characters, both ends included. -/
  | oneOf (ranges : List (Char × Char))
  /-- `[!…]`. -/
  | noneOf (ranges : List (Char × Char))
deriving DecidableEq, Repr

abbrev Pattern := List Element

/-! ## Reading -/

/-- The ranges that the characters between brackets stand for. A `-` between two of them makes a
range of these; any other character is a range of its own. -/
def ranges : Text → List (Char × Char)
  | first :: '-' :: last :: rest => (first, last) :: ranges rest
  | c :: rest => (c, c) :: ranges rest
  | [] => []

/-- The characters of a set up to its closing bracket, and what follows the bracket. The first
character belongs to the set even if it is a bracket itself. -/
def splitSet? : Text → Option (Text × Text)
  | [] => none
  | c :: t =>
    match t.dropWhile (· ≠ ']') with
    | [] => none
    | _ :: rest => some (c :: t.takeWhile (· ≠ ']'), rest)

/-- The set after an opening bracket, and what follows it. -/
def readSet? : Text → Option (Element × Text)
  | '!' :: t => (splitSet? t).map fun (set, rest) => (.noneOf (ranges set), rest)
  | t => (splitSet? t).map fun (set, rest) => (.oneOf (ranges set), rest)

theorem length_splitSet?_lt {t set rest : Text} (h : splitSet? t = some (set, rest)) :
    rest.length < t.length := by
  cases t with
  | nil => simp [splitSet?] at h
  | cons c t =>
    have hle := (List.dropWhile_sublist (l := t) (· ≠ ']')).length_le
    rw [splitSet?] at h
    split at h
    · cases h
    · rename_i d rest' hd
      rw [hd] at hle
      simp only [Option.some.injEq, Prod.mk.injEq] at h
      simp only [← h.2, List.length_cons] at *
      omega

theorem length_readSet?_lt {t rest : Text} {e : Element} (h : readSet? t = some (e, rest)) :
    rest.length < t.length := by
  unfold readSet? at h
  split at h
  all_goals
    obtain ⟨⟨set, rest'⟩, hs, he⟩ := Option.map_eq_some_iff.1 h
    cases he
    have := length_splitSet?_lt hs
    simp only [List.length_cons] at *
    omega

/-- Reads a pattern. `fresh` tells whether it stands at the beginning or after a slash, where alone
`**` may stand. -/
def parseFrom? (fresh : Bool) : Text → Option Pattern
  | [] => some []
  | '?' :: t => (parseFrom? false t).map (.anyChar :: ·)
  | '*' :: '*' :: '*' :: _ => none
  | ['*', '*'] => if fresh then some [.anyDirectories] else none
  | '*' :: '*' :: c :: t =>
    if fresh && c = '/' then (parseFrom? true t).map (.anyDirectories :: ·) else none
  | '*' :: t => (parseFrom? false t).map (.anyText :: ·)
  | '[' :: t =>
    match h : readSet? t with
    | some (set, rest) =>
      have : rest.length < t.length := length_readSet?_lt h
      (parseFrom? false rest).map (set :: ·)
    | none => none
  | c :: t => (parseFrom? (c = '/') t).map (.char c :: ·)
termination_by t => t.length

def parse? (t : Text) : Option Pattern := parseFrom? true t

/-! ## Matching -/

def inRanges (ranges : List (Char × Char)) (c : Char) : Bool :=
  ranges.any fun (first, last) => first ≤ c && c ≤ last

/-- Whether an element that stands for one character stands for the given one. -/
def Element.accepts : Element → Char → Bool
  | char d, c => c = d
  | anyChar, _ => true
  | oneOf ranges, c => inRanges ranges c
  | noneOf ranges, c => !inRanges ranges c
  | anyText, _ => false
  | anyDirectories, _ => false

/-- What a text, or a pattern, can end in, the whole and nothing included. -/
def endings {α : Type} : List α → List (List α)
  | [] => [[]]
  | a :: l => (a :: l) :: endings l

/-- What follows the slashes of a text, and its end. -/
def afterSlashes : Text → List Text
  | [] => [[]]
  | c :: t => if c = '/' then t :: afterSlashes t else afterSlashes t

/-- Whether a pattern stands for a text. -/
def accepts : Pattern → Text → Bool
  | [], t => t.isEmpty
  | .anyText :: p, t => (endings t).any (accepts p)
  | .anyDirectories :: p, t => (t :: afterSlashes t).any (accepts p)
  | _ :: _, [] => false
  | e :: p, c :: t => e.accepts c && accepts p t

/-! ## Patterns without wildcards -/

/-- The text that a pattern without wildcards stands for. -/
def literal? (p : Pattern) : Option Text :=
  p.mapM fun
    | .char c => some c
    | _ => none

/-- Whether a pattern stands for directories at any depth. -/
def isDeep (p : Pattern) : Bool := p.contains .anyDirectories

end PrefixShell.Glob
