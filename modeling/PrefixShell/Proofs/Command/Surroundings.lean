import PrefixShell.Proofs.Command.TypedWords

/-!
# What stands around a line

Blanks around a line, blanks in the place of other blanks and whatever is typed on the lines after it
make no difference to the command that is read, but that it keeps the text that was typed.  A line that
is refused stays refused with blanks in front of it.  The error is the same but for its place, and the
place moves along with the text: so does the offset, and so does the column of a fault on the first
line.  A fault on a later line, which can only be found inside a quotation, keeps its column.

## Main results

* `faultFrom?_blanks`: the fault of a text behind blanks is the fault of the text, read from where the
  blanks end.
* `faultFrom?_indented`: reading from a place further on moves the fault along.
* `parseLine_surrounded`: what stands around a line does not matter.
-/

namespace PrefixShell

/-- The text is made of spaces and tabs. -/
def Text.Blank (t : Text) : Prop := ∀ c ∈ t, c = ' ' ∨ c = '\t'

theorem Text.Blank.isBlank {t : Text} (h : t.Blank) : ∀ c ∈ t, Lexeme.isBlank c = true := by
  intro c hc
  simpa [Lexeme.isBlank] using h c hc

/-- Blanks, and whatever follows them if it begins with a break, begin with a break. -/
theorem Text.Blank.breaks_append {u t : Text} (hu : u.Blank) (ht : t.Breaks) :
    (u ++ t).Breaks := by
  cases u with
  | nil => exact ht
  | cons c u => exact Text.breaks_cons_iff.2 (.inl (hu.isBlank c List.mem_cons_self))

/-! ## Places behind blanks -/

namespace Position

/-- The place, with more characters of one byte in front of the first line. -/
def indented (n : Nat) (p : Position) : Position where
  line := p.line
  column := if p.line = 1 then p.column + n else p.column
  offset := p.offset + n

theorem line_pos_advance {p : Position} (hp : 1 ≤ p.line) (c : Char) : 1 ≤ (p.advance c).line := by
  rw [advance]
  split
  · exact Nat.le_add_left 1 p.line
  · exact hp

theorem indented_advance (n : Nat) {p : Position} (hp : 1 ≤ p.line) (c : Char) :
    (p.indented n).advance c = (p.advance c).indented n := by
  by_cases hc : c = '\n'
  · have hline : p.line ≠ 0 := Nat.one_le_iff_ne_zero.1 hp
    simp [advance, indented, hc, hline, Nat.add_right_comm]
  · by_cases hline : p.line = 1
    · simp [advance, indented, hc, hline, Nat.add_right_comm]
    · simp [advance, indented, hc, hline, Nat.add_right_comm]

theorem line_pos_advanceBy {p : Position} (hp : 1 ≤ p.line) (t : Text) :
    1 ≤ (p.advanceBy t).line := by
  induction t generalizing p with
  | nil => exact hp
  | cons c t ih => exact ih (line_pos_advance hp c)

theorem indented_advanceBy (n : Nat) {p : Position} (hp : 1 ≤ p.line) (t : Text) :
    (p.indented n).advanceBy t = (p.advanceBy t).indented n := by
  induction t generalizing p with
  | nil => rfl
  | cons c t ih =>
      show ((p.indented n).advance c).advanceBy t = ((p.advance c).advanceBy t).indented n
      rw [indented_advance n hp, ih (line_pos_advance hp c)]

/-- Behind blanks a text begins as many places further on. -/
theorem start_advanceBy_blanks {u : Text} (hu : u.Blank) :
    start.advanceBy u = start.indented u.length := by
  induction u using List.reverseRecOn with
  | nil => rfl
  | append_singleton u c ih =>
      have hbefore : Text.Blank u := fun d hd => hu d (List.mem_append_left [c] hd)
      rw [advanceBy_append, ih hbefore, List.length_append]
      rcases hu c (List.mem_append_right u List.mem_cons_self) with rfl | rfl <;> rfl

end Position

/-! ## Tokens further on -/

namespace Token

/-- The token, with more in front of the first line. -/
def indented (n : Nat) (t : Token) : Token := { t with position := t.position.indented n }

/-- The tokens of a text that is read from further on are those tokens, further on. -/
theorem tokensFrom_indented (n : Nat) {p : Position} (hp : 1 ≤ p.line) (t : Text) :
    tokensFrom (p.indented n) t = (tokensFrom p t).map (indented n) := by
  fun_induction tokensFrom p t with
  | case1 p =>
      rw [tokensFrom_nil]
      rfl
  | case2 p c t r ih =>
      rw [tokensFrom_cons, Position.indented_advanceBy n hp,
        ih (Position.line_pos_advanceBy hp r.lexeme.raw)]
      rfl

end Token

namespace Command

/-! ## Faults further on -/

/-- The fault for which a text is refused, read from a place. -/
def faultFrom? (p : Position) (line : Text) : Option ShellError :=
  firstFault? (readable (Token.tokensFrom p line))

theorem parseLine_eq_error {e : Expansion} {matching : Text → List Text} {line : Text}
    {error : ShellError} :
    parseLine e matching line = .error error ↔ faultFrom? .start line = some error :=
  parse_eq_error_iff

/-- A blank in front of a text only moves the place from which it is read. -/
theorem faultFrom?_blank {c : Char} (hc : Lexeme.isBlank c = true) (p : Position) (t : Text) :
    faultFrom? p (c :: t) = faultFrom? (p.advance c) t := by
  refine Lexeme.pass_blank (f := faultFrom?) ?_ hc p t
  intro q d u hd
  rw [faultFrom?, Token.tokensFrom_cons, Lexeme.first_blank hd, readable_cons_of_solid rfl,
    firstFault?, List.findSome?_cons, Lexeme.run, List.takeWhile_cons_of_pos hd,
    List.dropWhile_cons_of_pos hd]
  rfl

theorem faultFrom?_blanks {u : Text} (hu : u.Blank) (p : Position) (t : Text) :
    faultFrom? p (u ++ t) = faultFrom? (p.advanceBy u) t := by
  induction u generalizing p with
  | nil => rfl
  | cons c u ih =>
      rw [List.cons_append, faultFrom?_blank (hu.isBlank c List.mem_cons_self),
        ih fun d hd => hu d (List.mem_cons_of_mem c hd)]
      rfl

/-- Reading from a place further on moves the fault along. -/
theorem faultFrom?_indented (n : Nat) {p place : Position} (hp : 1 ≤ p.line) {t detail : Text}
    (h : faultFrom? p t = some (.malformed detail place)) :
    faultFrom? (p.indented n) t = some (.malformed detail (place.indented n)) := by
  have hread : readable ((Token.tokensFrom p t).map (Token.indented n)) =
      (readable (Token.tokensFrom p t)).map (Token.indented n) :=
    List.takeWhile_map
  rw [faultFrom?, firstFault?] at h ⊢
  rw [Token.tokensFrom_indented n hp, hread, List.findSome?_map]
  obtain ⟨before, x, after, hsplit, hx, hbefore⟩ := List.findSome?_eq_some_iff.1 h
  obtain ⟨cause, hcause, herror⟩ := Option.map_eq_some_iff.1 hx
  cases herror
  refine List.findSome?_eq_some_iff.2 ⟨before, x, after, hsplit, ?_, ?_⟩
  · show Option.map _ x.fault? = _
    rw [hcause]
    rfl
  · intro b hb
    have hnone := hbefore b hb
    rw [Option.map_eq_none_iff] at hnone
    show Option.map _ b.fault? = _
    rw [hnone]
    rfl

/-! ## Lines and what stands around them -/

/-- A text is read as the line is, if this is not refused: to the same command, but that it keeps the
text it was read from. -/
def ReadAs (e : Expansion) (matching : Text → List Text) (t line : Text) : Prop :=
  ∀ result, parseLine e matching line = .ok result →
    parseLine e matching t = .ok (result.map (·.typedAs t))

/-- What it is for a line to be read without regard to what stands around it. -/
structure Surrounded (e : Expansion) (matching : Text → List Text) (line : Text) : Prop where
  /-- Blanks in front of the line and behind it. -/
  blanks : ∀ u v : Text, u.Blank → v.Blank → ReadAs e matching (u ++ line ++ v) line
  /-- More lines after it, whatever is in them. -/
  followed : ∀ u v t : Text, u.Blank → v.Blank → ReadAs e matching (u ++ line ++ v ++ '\n' :: t) line
  /-- Blanks in the place of a blank. -/
  reblanked : ∀ before b after, Token.ofLine line = before ++ b :: after → b.kind = .blank →
    ∀ w : Text, w ≠ [] → w.Blank →
      ReadAs e matching (Token.rawText before ++ w ++ Token.rawText after) line
  /-- A refused line behind blanks: the fault moves along with the text. -/
  refused : ∀ detail place, parseLine e matching line = .error (.malformed detail place) →
    ∀ u : Text, u.Blank →
      parseLine e matching (u ++ line) = .error (.malformed detail (place.indented u.length))

section

variable {e : Expansion} {matching : Text → List Text} {line : Text}

theorem readAs_of_typedWords {t : Text}
    (h : ∀ ws, typedWords? line = some ws → typedWords? t = some ws) :
    ReadAs e matching t line := by
  intro result hline
  obtain ⟨ws, hws⟩ := Option.isSome_iff_exists.1 (typedWords?_isSome e matching hline)
  exact parseLine_of_typedWords e matching hline ((h ws hws).trans hws.symm)

/-- Blanks before a line and a text without words behind it do not matter. -/
theorem readAs_append {u t : Text} (hu : u.Blank) (ht : t.Breaks)
    (hnone : typedWords? t = some []) : ReadAs e matching (u ++ line ++ t) line := by
  refine readAs_of_typedWords ?_
  intro ws hws
  rw [List.append_assoc, typedWords?_blanks hu.isBlank]
  exact typedWords?_append hws ht hnone

end

/-- Blanks around a line, blanks in the place of other blanks and the lines after it do not matter to
the command that is read, nor do blanks before it to the error, but for its place. -/
theorem parseLine_surrounded (e : Expansion) (matching : Text → List Text) (line : Text) :
    Surrounded e matching line where
  blanks := by
    intro u v hu hv
    have hnone := typedWords?_blanks hv.isBlank []
    have hbreaks := hv.breaks_append Text.breaks_nil
    rw [List.append_nil] at hnone hbreaks
    exact readAs_append hu hbreaks (hnone.trans typedWords?_nil)
  followed := by
    intro u v t hu hv
    have hnone : typedWords? (v ++ '\n' :: t) = some [] :=
      (typedWords?_blanks hv.isBlank _).trans (typedWords?_newline t)
    rw [List.append_assoc]
    exact readAs_append hu (hv.breaks_append (Text.breaks_cons_iff.2 (.inr rfl))) hnone
  reblanked := by
    intro before b after hline hb w hne hw
    refine readAs_of_typedWords ?_
    intro ws hws
    rw [typedWords?_reblank hline hb hne hw.isBlank, hws]
  refused := by
    intro detail place herror u hu
    rw [parseLine_eq_error] at herror ⊢
    rw [faultFrom?_blanks hu, Position.start_advanceBy_blanks hu]
    exact faultFrom?_indented u.length (Nat.le_refl 1) herror

/-- It is not the offset alone that moves: behind a blank the quotation `"x` begins in the second
column. -/
theorem column_of_indented_quote :
    ¬∀ (e : Expansion) (matching : Text → List Text) (line detail : Text) (place : Position),
      parseLine e matching line = .error (.malformed detail place) → ∀ u : Text, u.Blank →
        parseLine e matching (u ++ line) =
          .error (.malformed detail { place with offset := place.offset + u.length }) := by
  intro h
  have hquote (p : Position) : faultFrom? p ['"', 'x'] =
      some (.malformed Fault.unterminatedString.message p) := by
    rw [faultFrom?, Token.tokensFrom_cons, Lexeme.first_double,
      Lexeme.doubleQuoted_ordinary (by decide) (by decide)]
    rfl
  have hblank : Text.Blank [' '] := by
    intro c hc
    exact .inl (List.mem_singleton.1 hc)
  have hsame := h ⟨fun _ => none, [], false⟩ (fun _ => []) ['"', 'x'] _ _
    (parseLine_eq_error.2 (hquote .start)) [' '] hblank
  rw [parseLine_eq_error, faultFrom?_blanks hblank, hquote] at hsame
  injection hsame with hsame
  injection hsame with _ hplace
  exact absurd (congrArg Position.column hplace) (by decide)

end Command

end PrefixShell
