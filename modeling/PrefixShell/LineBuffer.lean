import PrefixShell.Text

/-!
# Line buffering

Standard output as the shell writes to it: complete lines are shown at once, and what follows the
last line break is held back until the line is complete, the buffer is full, or the output is
flushed. What a program writes on its own does not pass through the buffer, and so can come before
text that was written earlier.

## Main results

* `write_conserves`: writing shows or holds back what was held back and then what is written, all of
  it and nothing else.
-/

namespace PrefixShell

/-- The text that is held back. -/
structure LineBuffer where
  held : Text
deriving DecidableEq, Repr

namespace LineBuffer

def empty : LineBuffer := ⟨[]⟩

/-- The number of bytes that can be held back. -/
def capacity : Nat := 1024

/-- Shows what is held back if there is no room for a text beside it. -/
def makeRoom (b : LineBuffer) (t : Text) : Text × LineBuffer :=
  if t.byteLength > capacity - b.held.byteLength then (b.held, empty) else ([], b)

/-- Holds back an incomplete line; one that is too long ever to be held back is shown. -/
def hold (b : LineBuffer) (t : Text) : Text × LineBuffer :=
  let (shown, b') := b.makeRoom t
  if t.byteLength ≥ capacity then (shown ++ t, b') else (shown, ⟨b'.held ++ t⟩)

/-- The text up to its last line break, and what follows. -/
def splitAtLastBreak (t : Text) : Text × Text :=
  ((t.reverse.dropWhile (· ≠ '\n')).reverse, (t.reverse.takeWhile (· ≠ '\n')).reverse)

/-- Writes a text: what is shown now, and what is held back from now on. -/
def write (b : LineBuffer) (t : Text) : Text × LineBuffer :=
  match splitAtLastBreak t with
  | ([], rest) => b.hold rest
  | (complete, rest) =>
    let (shown, b') := empty.hold rest
    (b.held ++ complete ++ shown, b')

/-! ## Nothing is lost -/

theorem makeRoom_conserves (b : LineBuffer) (t : Text) :
    (b.makeRoom t).1 ++ (b.makeRoom t).2.held = b.held := by
  unfold makeRoom
  split
  · exact List.append_nil _
  · exact List.nil_append _

theorem makeRoom_held_eq_nil {b : LineBuffer} {t : Text} (h : t.byteLength ≥ capacity) :
    (b.makeRoom t).2.held = [] := by
  unfold makeRoom
  split
  · rfl
  · rename_i hroom
    cases hb : b.held with
    | nil => rfl
    | cons c rest =>
      have hpos := c.utf8Size_pos
      have hcap : capacity = 1024 := rfl
      rw [hb, Text.byteLength_cons] at hroom
      omega

theorem hold_conserves (b : LineBuffer) (t : Text) :
    (b.hold t).1 ++ (b.hold t).2.held = b.held ++ t := by
  rw [← makeRoom_conserves b t]
  unfold hold
  by_cases h : t.byteLength ≥ capacity
  · simp [h, makeRoom_held_eq_nil h]
  · simp [h]

theorem splitAtLastBreak_append (t : Text) :
    (splitAtLastBreak t).1 ++ (splitAtLastBreak t).2 = t := by
  rw [splitAtLastBreak, ← List.reverse_append, List.takeWhile_append_dropWhile,
    List.reverse_reverse]

/-- Writing shows or holds back what was held back and then what is written. -/
theorem write_conserves (b : LineBuffer) (t : Text) :
    (b.write t).1 ++ (b.write t).2.held = b.held ++ t := by
  have ht := splitAtLastBreak_append t
  unfold write
  split
  · rename_i rest h
    rw [h] at ht
    rw [hold_conserves, ← ht, List.nil_append]
  · rename_i complete rest _ h
    rw [h] at ht
    have hh := hold_conserves empty rest
    rw [← ht]
    simp only [List.append_assoc, hh]
    rfl

end LineBuffer

end PrefixShell
