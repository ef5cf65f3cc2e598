import PrefixShell.Glob.Pattern

/-!
# Deciding patterns

Trying out every text that a `*` may stand for takes a number of steps that grows with every `*` in
the pattern. Here the text is taken character by character from its end, and what is kept on the
way is a table: for each ending of the pattern, whether it stands for the text read so far. So the
number of steps is the length of the pattern times that of the text.

## Main results

* `table_eq`: the table says of each ending of the pattern what `accepts` says.
* `decides_eq_accepts`: the decision is the one that `accepts` makes.
-/

namespace PrefixShell.Glob

/-- What is known of a pattern and a text. -/
structure Verdict where
  /-- The pattern stands for the text. -/
  accepted : Bool
  /-- The pattern stands for what follows a slash of the text, or for its end. -/
  later : Bool
deriving DecidableEq, Repr

/-- What is to be known of a pattern and a text. -/
def verdict (t : Text) (p : Pattern) : Verdict := ⟨accepts p t, (afterSlashes t).any (accepts p)⟩

def first (table : List Verdict) : Verdict := table.head?.getD ⟨false, false⟩

/-- The table of a pattern for the empty text. -/
def emptyTable : Pattern → List Verdict
  | [] => [⟨true, true⟩]
  | e :: p =>
    let table := emptyTable p
    let accepted := (e = .anyText || e = .anyDirectories) && (first table).accepted
    ⟨accepted, accepted⟩ :: table

/-- The table of a pattern for a text, from that for what follows the first character. -/
def extend (c : Char) : Pattern → List Verdict → List Verdict
  | [], old => [⟨false, (c = '/' && (first old).accepted) || (first old).later⟩]
  | e :: p, old =>
    let table := extend c p old.tail
    let accepted :=
      if e = .anyText then (first table).accepted || (first old).accepted
      else if e = .anyDirectories then (first table).accepted || (first table).later
      else e.accepts c && (first old.tail).accepted
    ⟨accepted, (c = '/' && (first old).accepted) || (first old).later⟩ :: table

/-- The table of a pattern for a text. -/
def table (p : Pattern) (t : Text) : List Verdict := t.foldr (extend · p) (emptyTable p)

/-- Whether a pattern stands for a text. -/
def decides (p : Pattern) (t : Text) : Bool := (first (table p t)).accepted

/-! ## The decision is right -/

theorem first_map_endings (f : Pattern → Verdict) (p : Pattern) :
    first ((endings p).map f) = f p := by
  cases p <;> rfl

theorem accepts_cons_nil {e : Element} (p : Pattern) :
    accepts (e :: p) [] = ((e = .anyText || e = .anyDirectories) && accepts p []) := by
  cases e <;> simp [accepts, endings, afterSlashes]

theorem accepts_cons_cons (e : Element) (p : Pattern) (c : Char) (t : Text) :
    accepts (e :: p) (c :: t) =
      if e = .anyText then accepts p (c :: t) || accepts (e :: p) t
      else if e = .anyDirectories then
        accepts p (c :: t) || (afterSlashes (c :: t)).any (accepts p)
      else e.accepts c && accepts p t := by
  cases e <;> simp [accepts, endings]

theorem later_cons (p : Pattern) (c : Char) (t : Text) :
    (verdict (c :: t) p).later =
      ((c = '/' && (verdict t p).accepted) || (verdict t p).later) := by
  by_cases h : c = '/' <;> simp [verdict, afterSlashes, h]

theorem emptyTable_eq (p : Pattern) : emptyTable p = (endings p).map (verdict []) := by
  induction p with
  | nil => rfl
  | cons e p ih =>
    simp only [emptyTable, ih, first_map_endings, endings, List.map_cons, List.cons.injEq, and_true]
    simp [verdict, afterSlashes, accepts_cons_nil]

theorem extend_eq (c : Char) (t : Text) (p : Pattern) :
    extend c p ((endings p).map (verdict t)) = (endings p).map (verdict (c :: t)) := by
  induction p with
  | nil =>
    have h := later_cons [] c t
    simp only [extend, endings, List.map_cons, List.map_nil, first, List.head?_cons,
      Option.getD_some, ← h]
    rfl
  | cons e p ih =>
    have h := later_cons (e :: p) c t
    simp only [extend, endings, List.map_cons, List.tail_cons, ih, first_map_endings]
    simp only [first, List.head?_cons, Option.getD_some, ← h, List.cons.injEq, and_true]
    simp only [verdict, Verdict.mk.injEq, and_true]
    exact (accepts_cons_cons e p c t).symm

/-- The table says of each ending of the pattern what there is to know. -/
theorem table_eq (p : Pattern) (t : Text) : table p t = (endings p).map (verdict t) := by
  induction t with
  | nil => exact emptyTable_eq p
  | cons c t ih => exact (congrArg (extend c p) ih).trans (extend_eq c t p)

/-- The decision is the one that trying out every text makes. -/
theorem decides_eq_accepts (p : Pattern) (t : Text) : decides p t = accepts p t := by
  rw [decides, table_eq, first_map_endings, verdict]

end PrefixShell.Glob
