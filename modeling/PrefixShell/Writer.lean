import PrefixShell.Text

/-!
# Writers

What a command is given to write to. A writer takes what is written, or it fails: then it has taken a
part of the text at most, and says why. It may take what is written to it later all the same.

A command that writes several texts stops at the first that is not taken. So the texts before have
been written, and it is up to the command to say what has happened.

## Main results

* `write_cases`, `writeAll_cases`: all is taken and no failure has come, or not all and one has.
-/

namespace PrefixShell

/-- A write that fails. -/
structure WriteFailure where
  /-- The number of characters that are taken before it fails. -/
  taken : Nat
  cause : Text
deriving DecidableEq, Repr

/-- Something to write to, as its answers to the writes to come: nothing to say if it takes the whole
text, or how it fails. Beyond the answers that are listed it takes everything. -/
structure Writer where
  answers : List (Option WriteFailure)
deriving DecidableEq, Repr

/-- What comes of writing. -/
structure Written where
  /-- What has been taken. -/
  taken : Text
  /-- Why not all has been taken. -/
  cause? : Option Text
  /-- The writer for what is written next. -/
  writer : Writer
deriving DecidableEq, Repr

namespace Writer

/-- The writer that takes everything. -/
def steady : Writer := ⟨[]⟩

/-- Writes a text. Where there is nothing to write, the writer is not asked. -/
def write (w : Writer) (t : Text) : Written :=
  if t.isEmpty then ⟨[], none, w⟩
  else
    match w.answers with
    | [] => ⟨t, none, w⟩
    | none :: answers => ⟨t, none, ⟨answers⟩⟩
    | some failure :: answers => ⟨t.take failure.taken, some failure.cause, ⟨answers⟩⟩

/-- Writes texts one after another, up to the first that is not taken. -/
def writeAll (w : Writer) : List Text → Written
  | [] => ⟨[], none, w⟩
  | t :: ts =>
    let first := w.write t
    match first.cause? with
    | some _ => first
    | none =>
      let rest := first.writer.writeAll ts
      { rest with taken := first.taken ++ rest.taken }

/-! ## What is taken -/

/-- How many of the writes to come are known to fail. -/
def failures (w : Writer) : Nat := w.answers.countP Option.isSome

/-- From one state of a writer to a later one no write has failed. -/
def Took (w w' : Writer) : Prop := w'.failures = w.failures

instance (w w' : Writer) : Decidable (w.Took w') := inferInstanceAs (Decidable (_ = _))

/-- What it is to have written a text: all is taken and no write has failed, or a part is taken and one
has. -/
inductive Writes (w : Writer) (t : Text) : Written → Prop
  | whole {w' : Writer} (h : w.Took w') : Writes w t ⟨t, none, w'⟩
  | part {taken cause : Text} {w' : Writer} (htaken : taken <+: t) (h : w'.failures < w.failures) :
      Writes w t ⟨taken, some cause, w'⟩

theorem write_cases (w : Writer) (t : Text) : w.Writes t (w.write t) := by
  obtain ⟨answers⟩ := w
  rw [write]
  by_cases ht : t = []
  · subst ht
    exact .whole rfl
  · rw [if_neg (by simpa using ht)]
    match answers with
    | [] => exact .whole rfl
    | none :: answers => exact .whole (List.countP_cons_of_neg Bool.false_ne_true).symm
    | some failure :: answers =>
        refine .part (List.take_prefix _ _) ?_
        show List.countP _ answers < List.countP _ (some failure :: answers)
        rw [List.countP_cons_of_pos rfl]
        exact Nat.lt_succ_self _

theorem writeAll_cases (w : Writer) (ts : List Text) : w.Writes ts.flatten (w.writeAll ts) := by
  induction ts generalizing w with
  | nil => exact .whole rfl
  | cons t ts ih =>
      rw [writeAll]
      have hfirst := w.write_cases t
      generalize w.write t = first at hfirst
      cases hfirst with
      | part htaken h => exact .part (htaken.trans (List.prefix_append t ts.flatten)) h
      | @whole w' h =>
          -- All of the first text is taken, and what comes of the others decides.
          show w.Writes (t ++ ts.flatten)
            { w'.writeAll ts with taken := t ++ (w'.writeAll ts).taken }
          have hothers := ih w'
          generalize w'.writeAll ts = rest at hothers
          cases hothers with
          | whole h' => exact .whole (h'.trans h)
          | part htaken' h' => exact .part ((List.prefix_append_right_inj t).2 htaken') (h ▸ h')

end Writer

end PrefixShell
