import PrefixShell.Text

/-!
# Wildcards in a text

Which texts hold a wildcard, and how a text is written so that as a pattern it stands for itself.
-/

namespace PrefixShell.Glob

/-- A character that begins a wildcard. -/
def isWildcard (c : Char) : Bool := c = '*' || c = '?' || c = '['

def hasWildcard (t : Text) : Bool := t.any isWildcard

/-- A character that has a meaning of its own in a pattern. -/
def isMeta (c : Char) : Bool := isWildcard c || c = ']'

/-- A character as a pattern that stands for just this character. -/
def escapeChar (c : Char) : Text := if isMeta c then ['[', c, ']'] else [c]

/-- A text as a pattern that stands for just this text. -/
def escape (t : Text) : Text := t.flatMap escapeChar

@[simp] theorem escape_nil : escape [] = [] := rfl

theorem escape_append (s t : Text) : escape (s ++ t) = escape s ++ escape t := by
  simp [escape]

/-- A text without characters of a special meaning is its own pattern. -/
theorem escape_eq_self {t : Text} (h : ∀ c ∈ t, isMeta c = false) : escape t = t := by
  induction t with
  | nil => rfl
  | cons c t ih =>
    have ht : escape t = t := ih fun d hd => h d (List.mem_cons_of_mem c hd)
    have hc : isMeta c = false := h c List.mem_cons_self
    rw [escape, List.flatMap_cons, ← escape, ht]
    simp [escapeChar, hc]

end PrefixShell.Glob
