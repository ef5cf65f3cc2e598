import PrefixShell.Text

/-!
# White space

The characters with the Unicode property `White_Space`, and texts without those at their ends.

## Main results

* `isWhiteSpace_of_isWhitespace`: the blank characters of ASCII are among them.
-/

namespace PrefixShell.Text

/-- Whether a character is white space. -/
def isWhiteSpace (c : Char) : Bool :=
  let n := c.toNat
  (0x09 ≤ n && n ≤ 0x0D) || n = 0x20 || n = 0x85 || n = 0xA0 || n = 0x1680 ||
    (0x2000 ≤ n && n ≤ 0x200A) || n = 0x2028 || n = 0x2029 || n = 0x202F || n = 0x205F ||
    n = 0x3000

theorem isWhiteSpace_of_isWhitespace {c : Char} (h : c.isWhitespace) : isWhiteSpace c := by
  simp only [Char.isWhitespace, Bool.or_eq_true, decide_eq_true_eq] at h
  rcases h with ((rfl | rfl) | rfl) | rfl <;> decide

/-- The text without white space at its ends. -/
def trim (t : Text) : Text :=
  ((t.dropWhile isWhiteSpace).reverse.dropWhile isWhiteSpace).reverse

/-- Whether two texts are equal when no difference is made between `A`–`Z` and `a`–`z`. -/
def equalIgnoringCase (s t : Text) : Bool := s.map Char.toLower = t.map Char.toLower

end PrefixShell.Text
