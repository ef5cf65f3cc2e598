import PrefixShell.Token.Lexeme

/-!
# Reading one lexeme

What `Lexeme.first` does, told by the character that a text begins with.  Statements about lexemes
go through `first_cases` and so do not unfold the scanner.

## Main results

* `first_cases`: what holds of every kind of reading holds of the first lexeme.
* `first_separates`: blanks and line breaks are told by their first character.
* `rest_of_fault`: nothing follows a fault.
* `first_spelled`: an option is spelled without a `=`, and a `=` as itself.
-/

namespace PrefixShell.Lexeme

/-! ## The character that decides -/

theorem first_blank {c : Char} (h : isBlank c = true) (t : Text) :
    first c t = run .blank isBlank (c :: t) := by
  rw [first, if_pos h]

@[simp] theorem first_newline (t : Text) :
    first '\n' t = ⟨⟨.newline, ['\n'], ['\n']⟩, t⟩ := rfl

@[simp] theorem first_double (t : Text) :
    first '"' t = ofBody .double '"' (doubleQuoted t) := rfl

@[simp] theorem first_single (t : Text) :
    first '\'' t = ofBody .single '\'' (singleQuoted t) := rfl

@[simp] theorem first_dollar (t : Text) : first '$' t = ofDollar t := rfl

@[simp] theorem first_equals (t : Text) : first '=' t = ⟨⟨.equals, ['='], ['=']⟩, t⟩ := rfl

@[simp] theorem first_dash (t : Text) : first '-' t = ofDash t := rfl

theorem first_word {c : Char} (h : endsWord c = false) (hdash : c ≠ '-') (t : Text) :
    first c t = run .word (fun d => !endsWord d) (c :: t) := by
  simp only [endsWord, Bool.or_eq_false_iff, decide_eq_false_iff_not] at h
  simp [first, h, hdash]

/-- To prove something of the first lexeme of a text, prove it for each way in which one can
begin. -/
theorem first_cases {P : Reading → Prop} (c : Char) (t : Text)
    (blank : isBlank c = true → P (run .blank isBlank (c :: t)))
    (newline : c = '\n' → P ⟨⟨.newline, ['\n'], ['\n']⟩, t⟩)
    (double : c = '"' → P (ofBody .double '"' (doubleQuoted t)))
    (single : c = '\'' → P (ofBody .single '\'' (singleQuoted t)))
    (dollar : c = '$' → P (ofDollar t))
    (equals : c = '=' → P ⟨⟨.equals, ['='], ['=']⟩, t⟩)
    (dash : c = '-' → P (ofDash t))
    (word : endsWord c = false → c ≠ '-' → P (run .word (fun d => !endsWord d) (c :: t))) :
    P (first c t) := by
  by_cases hdash : c = '-'
  · subst hdash
    exact dash rfl
  · cases hends : endsWord c with
    | false =>
        rw [first_word hends hdash]
        exact word hends hdash
    | true =>
        simp only [endsWord, Bool.or_eq_true, decide_eq_true_eq] at hends
        rcases hends with ((((hb | rfl) | rfl) | rfl) | rfl) | rfl
        · rw [first_blank hb]
          exact blank hb
        · exact newline rfl
        · exact double rfl
        · exact single rfl
        · exact dollar rfl
        · exact equals rfl

/-- A lexeme begins where the text does. -/
theorem exists_raw_eq_cons (c : Char) (t : Text) : ∃ u, (first c t).lexeme.raw = c :: u := by
  obtain ⟨d, u, hraw⟩ := List.exists_cons_of_ne_nil (first_raw_ne_nil c t)
  have hsplit := first_raw_append_rest c t
  rw [hraw, List.cons_append] at hsplit
  exact ⟨u, (List.cons.inj hsplit).1 ▸ hraw⟩

/-! ## Blanks and line breaks -/

/-- A lexeme that neither parts words nor ends the line. -/
def Solid (x : Lexeme) : Prop := x.kind ≠ .blank ∧ x.kind ≠ .newline

theorem ofBody_solid (quote : Quote) (opening : Char) (b : Body) :
    (ofBody quote opening b).lexeme.Solid := by
  cases h : b.closed <;> simp [Solid, ofBody, h]

theorem ofDollar_solid (t : Text) : (ofDollar t).lexeme.Solid := by
  unfold ofDollar
  split
  · split <;> simp [Solid]
  · split <;> simp [Solid]

theorem ofDash_solid (t : Text) : (ofDash t).lexeme.Solid := by
  unfold ofDash
  split
  · simp [Solid]
  · split <;> simp [Solid]

/-- The first character tells whether a lexeme is blank, a line break, or neither. -/
theorem first_separates (c : Char) (t : Text) :
    isBlank c = true ∧ (first c t).lexeme.kind = .blank ∨
      c = '\n' ∧ (first c t).lexeme.kind = .newline ∨
      isBlank c = false ∧ c ≠ '\n' ∧ (first c t).lexeme.Solid := by
  apply first_cases (P := fun r => isBlank c = true ∧ r.lexeme.kind = .blank ∨
    c = '\n' ∧ r.lexeme.kind = .newline ∨ isBlank c = false ∧ c ≠ '\n' ∧ r.lexeme.Solid) c t
  case blank => exact fun hblank => .inl ⟨hblank, rfl⟩
  case newline => exact fun hc => .inr (.inl ⟨hc, rfl⟩)
  case double =>
    rintro rfl
    exact .inr (.inr ⟨by decide, by decide, ofBody_solid _ _ _⟩)
  case single =>
    rintro rfl
    exact .inr (.inr ⟨by decide, by decide, ofBody_solid _ _ _⟩)
  case dollar =>
    rintro rfl
    exact .inr (.inr ⟨by decide, by decide, ofDollar_solid t⟩)
  case equals =>
    rintro rfl
    exact .inr (.inr ⟨by decide, by decide, by simp [Solid]⟩)
  case dash =>
    rintro rfl
    exact .inr (.inr ⟨by decide, by decide, ofDash_solid t⟩)
  case word =>
    intro hends _
    simp only [endsWord, Bool.or_eq_false_iff, decide_eq_false_iff_not] at hends
    exact .inr (.inr ⟨hends.1.1.1.1.1, hends.1.1.1.1.2, by simp [Solid, run]⟩)

/-! ## Faults -/

theorem doubleQuoted_rest_of_open (t : Text) (h : (doubleQuoted t).closed = false) :
    (doubleQuoted t).rest = [] := by
  fun_induction doubleQuoted t with
  | case1 => rfl
  | case2 => cases h
  | case3 c rest d hd ih => exact ih h
  | case4 c rest hd ih => exact ih h
  | case5 c rest h₁ h₂ ih => exact ih h

theorem singleQuoted_rest_of_open (t : Text) (h : (singleQuoted t).closed = false) :
    (singleQuoted t).rest = [] := by
  fun_induction singleQuoted t with
  | case1 => rfl
  | case2 => cases h
  | case3 c rest hc ih => exact ih h

private theorem ofBody_rest_of_fault {quote : Quote} {opening : Char} {b : Body} {cause : Fault}
    (hb : b.closed = false → b.rest = [])
    (h : (ofBody quote opening b).lexeme.kind = .fault cause) :
    (ofBody quote opening b).rest = [] := by
  apply hb
  cases hclosed : b.closed with
  | false => rfl
  | true => simp [ofBody, hclosed] at h

private theorem ofDollar_rest_of_fault {t : Text} {cause : Fault}
    (h : (ofDollar t).lexeme.kind = .fault cause) : (ofDollar t).rest = [] := by
  unfold ofDollar at h ⊢
  split at h
  · split at h
    · rfl
    · cases h
  · split at h <;> cases h

theorem ofDash_kind_ne_fault (t : Text) (cause : Fault) :
    (ofDash t).lexeme.kind ≠ .fault cause := by
  unfold ofDash
  split
  · simp
  · split <;> simp

/-- Nothing follows a fault. -/
theorem rest_of_fault {c : Char} {t : Text} {cause : Fault} :
    (first c t).lexeme.kind = .fault cause → (first c t).rest = [] := by
  apply first_cases (P := fun r => r.lexeme.kind = .fault cause → r.rest = []) c t
  case double => exact fun _ => ofBody_rest_of_fault (doubleQuoted_rest_of_open t)
  case single => exact fun _ => ofBody_rest_of_fault (singleQuoted_rest_of_open t)
  case dollar => exact fun _ => ofDollar_rest_of_fault
  case dash => exact fun _ h => absurd h (ofDash_kind_ne_fault t cause)
  all_goals simp [run]

/-! ## Options -/

/-- What an option and a `=` stand for, told by how they are spelled. -/
structure Spelled (x : Lexeme) : Prop where
  option : x.kind = .option → '=' ∉ x.literal
  equals : x.kind = .equals → x.literal = ['=']

theorem spelled_of_kind {x : Lexeme} (hoption : x.kind ≠ .option) (hequals : x.kind ≠ .equals) :
    x.Spelled :=
  ⟨fun h => absurd h hoption, fun h => absurd h hequals⟩

theorem equals_notMem_takeWhile (belongs : Char → Bool) (h : belongs '=' = false) (t : Text) :
    '=' ∉ t.takeWhile belongs := by
  intro hmem
  have hbelongs : belongs '=' = true := List.all_eq_true.1 List.all_takeWhile _ hmem
  rw [h] at hbelongs
  cases hbelongs

theorem ofDash_spelled (t : Text) : (ofDash t).lexeme.Spelled := by
  have hlong := equals_notMem_takeWhile isLongOptionChar (by decide)
  have hshort := equals_notMem_takeWhile Text.isAlphanumeric (by decide) t
  unfold ofDash
  split
  · exact ⟨fun _ => by simpa using hlong _, by simp⟩
  · split
    · exact spelled_of_kind (by simp) (by simp)
    · exact ⟨fun _ => by simpa using hshort, by simp⟩

/-- An option is spelled without a `=`, and a `=` as itself. -/
theorem first_spelled (c : Char) (t : Text) : (first c t).lexeme.Spelled := by
  have hquoted (quote : Quote) (opening : Char) (b : Body) :
      (ofBody quote opening b).lexeme.Spelled := by
    cases h : b.closed <;> exact spelled_of_kind (by simp [ofBody, h]) (by simp [ofBody, h])
  apply first_cases (P := fun r => r.lexeme.Spelled) c t
  case double => exact fun _ => hquoted _ _ _
  case single => exact fun _ => hquoted _ _ _
  case dollar =>
    intro _
    unfold ofDollar
    split <;> split <;> exact spelled_of_kind (by simp) (by simp)
  case equals => exact fun _ => ⟨by simp, fun _ => rfl⟩
  case dash => exact fun _ => ofDash_spelled t
  case word => exact fun _ _ => spelled_of_kind (by simp [run]) (by simp [run])
  all_goals exact fun _ => spelled_of_kind (by simp [run]) (by simp [run])

end PrefixShell.Lexeme
