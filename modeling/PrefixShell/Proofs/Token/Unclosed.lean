import PrefixShell.Proofs.Token.Quotation

/-!
# Texts that are never closed

When a text cannot be read, said without the scanner: it opens a quotation or a brace, and what
closes it does not come.  For `'` and `}` this means that the character is missing.  A `"` may well
be there, but escaped.

## Main results

* `doubleQuoted_open_iff`, `singleQuoted_open_iff`: when a quotation is not closed.
* `first_kind_eq_fault_iff`: the faults are the texts that are never closed.
-/

namespace PrefixShell

namespace Lexeme

/-! ## Quotations that are not closed -/

/-- A `"` quotation is not closed exactly if every `"` in it is escaped. -/
theorem doubleQuoted_open_iff (t : Text) : (doubleQuoted t).closed = false ↔ AllEscaped t := by
  rw [← not_closable_iff]
  constructor
  · intro hopen hclosable
    obtain ⟨inner, rest, hclosed⟩ := exists_closedBy hclosable
    rw [doubleQuoted_of_closedBy hclosed] at hopen
    cases hopen
  · intro h
    rw [doubleQuoted_of_not_closable h]

/-- A `'` quotation is not closed exactly if there is no `'` in it. -/
theorem singleQuoted_open_iff (t : Text) : (singleQuoted t).closed = false ↔ '\'' ∉ t := by
  fun_induction singleQuoted t with
  | case1 => simp
  | case2 rest => simp
  | case3 c rest hc ih =>
      rw [List.mem_cons, not_or]
      exact ih.trans (and_iff_right (Ne.symm hc)).symm

/-! ## Faults -/

/-- A text that opens a quotation or a brace and never closes it, with the fault that this is. -/
inductive Unclosed : Fault → Text → Prop
  | double {t : Text} (h : AllEscaped t) : Unclosed .unterminatedString ('"' :: t)
  | single {t : Text} (h : '\'' ∉ t) : Unclosed .unterminatedString ('\'' :: t)
  | brace {t : Text} (h : '}' ∉ t) : Unclosed .unterminatedVariable ('$' :: '{' :: t)

theorem ofBody_kind_eq_fault_iff {quote : Quote} {opening : Char} {b : Body} {cause : Fault} :
    (ofBody quote opening b).lexeme.kind = .fault cause ↔
      cause = .unterminatedString ∧ b.closed = false := by
  cases h : b.closed with
  | false => simp [ofBody, h, eq_comm]
  | true => simp [ofBody, h]

theorem ofDollar_kind_eq_fault_iff {t : Text} {cause : Fault} :
    (ofDollar t).lexeme.kind = .fault cause ↔ Unclosed cause ('$' :: t) := by
  unfold ofDollar
  split
  · rename_i t
    have hdrop : t.dropWhile (· ≠ '}') = [] ↔ '}' ∉ t := by
      rw [List.dropWhile_eq_nil_iff]
      constructor
      · intro h hmem
        simpa using h '}' hmem
      · intro h c hc
        have hne : c ≠ '}' := by
          rintro rfl
          exact h hc
        simp [hne]
    split
    · rename_i hnil
      constructor
      · intro h
        cases h
        exact .brace (hdrop.1 hnil)
      · intro h
        cases h
        rfl
    · rename_i d rest hcons
      refine iff_of_false (by simp) ?_
      intro h
      cases h with
      | brace h =>
          rw [hdrop.2 h] at hcons
          cases hcons
  · rename_i hbrace
    refine iff_of_false ?_ ?_
    · split <;> simp
    · intro h
      cases h with
      | brace h => exact hbrace _ rfl

/-- The faults are the texts that are never closed. -/
theorem first_kind_eq_fault_iff (c : Char) (t : Text) (cause : Fault) :
    (first c t).lexeme.kind = .fault cause ↔ Unclosed cause (c :: t) := by
  apply first_cases (P := fun r => r.lexeme.kind = .fault cause ↔ Unclosed cause (c :: t)) c t
  case double =>
    rintro rfl
    rw [ofBody_kind_eq_fault_iff, doubleQuoted_open_iff]
    constructor
    · rintro ⟨rfl, h⟩
      exact .double h
    · intro h
      cases h with
      | double h => exact ⟨rfl, h⟩
  case single =>
    rintro rfl
    rw [ofBody_kind_eq_fault_iff, singleQuoted_open_iff]
    constructor
    · rintro ⟨rfl, h⟩
      exact .single h
    · intro h
      cases h with
      | single h => exact ⟨rfl, h⟩
  case dollar =>
    rintro rfl
    exact ofDollar_kind_eq_fault_iff
  case dash =>
    rintro rfl
    exact iff_of_false (ofDash_kind_ne_fault t cause) nofun
  case newline =>
    rintro rfl
    exact iff_of_false (by simp) nofun
  case equals =>
    rintro rfl
    exact iff_of_false (by simp) nofun
  case blank =>
    intro hblank
    refine iff_of_false (by simp [run]) ?_
    intro h
    cases h <;> exact absurd hblank (by decide)
  case word =>
    intro hends _
    refine iff_of_false (by simp [run]) ?_
    intro h
    cases h <;> exact absurd hends (by decide)

end Lexeme

end PrefixShell
