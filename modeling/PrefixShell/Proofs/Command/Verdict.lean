import PrefixShell.Command.Parse
import PrefixShell.Proofs.Token.Partition
import PrefixShell.Proofs.Token.Unclosed
import PrefixShell.Proofs.Word.Parting

/-!
# What reading a line comes to

A line is blank, or it is refused, or it is a command, and which of these it is can be seen in its
text.  Only what stands before the first line break counts.  The line is blank if there are only
spaces and tabs; it is refused if something is opened there and never closed, wherever in the rest
of the text that may be; and it is a command otherwise, with a name that is not empty.

## Main results

* `readable_blank_iff`: no word is read exactly where the first line is blank.
* `parseLine_eq_error_iff`: a line is refused for a fault before the first line break, and only so.
* `unclosed_of_faultyAt`: such a fault is a text that is never closed.
* `parseLine_verdict`: the three outcomes of a line, told by its text.
-/

namespace PrefixShell

/-- The text before the first line break, or all of it if there is none. -/
def Text.firstLine (t : Text) : Text := t.takeWhile (· ≠ '\n')

theorem Text.firstLine_append {s : Text} (h : ∀ c ∈ s, c ≠ '\n') (t : Text) :
    firstLine (s ++ t) = s ++ t.firstLine :=
  List.takeWhile_append_of_pos fun c hc => decide_eq_true (h c hc)

namespace Command

theorem readable_cons_of_solid {t : Token} (h : t.endsLine = false) (ts : List Token) :
    readable (t :: ts) = t :: readable ts :=
  List.takeWhile_cons_of_pos (by simp [h])

theorem readable_append_of_solid {before : List Token} (h : ∀ b ∈ before, b.endsLine = false)
    (ts : List Token) : readable (before ++ ts) = before ++ readable ts :=
  List.takeWhile_append_of_pos fun b hb => by simp [h b hb]

theorem readable_cons_of_endsLine {t : Token} (h : t.endsLine = true) (ts : List Token) :
    readable (t :: ts) = [] :=
  List.takeWhile_cons_of_neg (by simp [h])

theorem endsLine_of_mem_readable {t : Token} {ts : List Token} (h : t ∈ readable ts) :
    t.endsLine = false := by
  simpa using List.mem_takeWhile_imp h

/-! ## Blank lines -/

/-- There are only blanks to be read exactly where there are only blanks in the first line. -/
theorem readable_blank_iff (p : Position) (text : Text) :
    (∀ t ∈ readable (Token.tokensFrom p text), t.kind = .blank) ↔
      ∀ c ∈ text.firstLine, Lexeme.isBlank c = true := by
  fun_induction Token.tokensFrom p text with
  | case1 p => simp [readable, Token.eofAt, Token.endsLine, Text.firstLine]
  | case2 p c text r ih =>
      rcases Lexeme.first_separates c text with
        ⟨hblank, hkind⟩ | ⟨rfl, hkind⟩ | ⟨hblank, hc, hsolid⟩
      · have hends : (r.lexeme.at p).endsLine = false := by
          simp [Token.endsLine, Lexeme.at, r, hkind]
        have hrun : r = Lexeme.run .blank Lexeme.isBlank (c :: text) :=
          Lexeme.first_blank hblank text
        have hraw : ∀ d ∈ r.lexeme.raw, Lexeme.isBlank d = true := by
          rw [hrun]
          intro d hd
          exact List.mem_takeWhile_imp hd
        have hbreak : ∀ d ∈ r.lexeme.raw, d ≠ '\n' := by
          rintro d hd rfl
          exact absurd (hraw _ hd) (by decide)
        have htext : c :: text = r.lexeme.raw ++ r.rest :=
          (Lexeme.first_raw_append_rest c text).symm
        rw [readable_cons_of_solid hends, List.forall_mem_cons, ih, htext,
          Text.firstLine_append hbreak, List.forall_mem_append]
        exact ⟨fun h => ⟨hraw, h.2⟩, fun h => ⟨hkind, h.2⟩⟩
      · have hends : (r.lexeme.at p).endsLine = true := by
          simp [Token.endsLine, Lexeme.at, r]
        rw [readable_cons_of_endsLine hends]
        simp [Text.firstLine]
      · have hends : (r.lexeme.at p).endsLine = false := by
          simp [Token.endsLine, Lexeme.at, r, hsolid.2, Lexeme.first_kind_ne_eof]
        have hline : Text.firstLine (c :: text) = c :: Text.firstLine text :=
          List.takeWhile_cons_of_pos (decide_eq_true hc)
        rw [readable_cons_of_solid hends, hline, List.forall_mem_cons, List.forall_mem_cons]
        refine iff_of_false (fun h => hsolid.1 h.1) ?_
        rw [hblank]
        simp

/-! ## Refused lines -/

/-- A token of a line that is a fault and has no line break before it. -/
def FaultyAt (line : Text) (t : Token) (cause : Fault) : Prop :=
  ∃ before after, Token.ofLine line = before ++ t :: after ∧ t.kind = .fault cause ∧
    ∀ b ∈ before, b.kind ≠ .newline

theorem fault?_eq_some_iff {t : Token} {cause : Fault} :
    t.fault? = some cause ↔ t.kind = .fault cause := by
  obtain ⟨kind, raw, literal, position⟩ := t
  cases kind <;> simp [Token.fault?]

/-- What stands before a fault is neither a fault nor the end of the text. -/
theorem before_fault {p : Position} {text : Text} {before : List Token} {t : Token}
    {after : List Token} {cause : Fault} (h : Token.tokensFrom p text = before ++ t :: after)
    (hfault : t.kind = .fault cause) : ∀ b ∈ before, b.fault? = none ∧ b.kind ≠ .eof := by
  -- Whatever is one of the two is followed by the end of the text at most, and not by the fault.
  have hlast : ∀ place, t ≠ Token.eofAt place := by
    rintro place rfl
    cases hfault
  intro b hb
  obtain ⟨u, v, rfl⟩ := List.append_of_mem hb
  have hsplit : Token.tokensFrom p text = u ++ b :: (v ++ t :: after) := by
    rw [h, List.append_assoc, List.cons_append]
  constructor
  · cases hcause : b.fault? with
    | none => rfl
    | some other =>
        have hafter := (Token.after_of_fault hsplit (fault?_eq_some_iff.1 hcause)).1
        cases v with
        | nil => exact absurd (List.cons.inj hafter).1 (hlast _)
        | cons c v => simp at hafter
  · obtain ⟨body, hbody, hall⟩ := Token.tokensFrom_ends p text
    refine (hall b ?_).1
    have hfront : body = (u ++ b :: (v ++ t :: after)).dropLast := by
      rw [← hsplit, hbody, List.dropLast_concat]
    rw [hfront, List.dropLast_append_of_ne_nil (List.cons_ne_nil _ _),
      List.dropLast_cons_of_ne_nil (by simp)]
    simp

/-- A line is refused for a fault before the first line break, and only so. -/
theorem parseLine_eq_error_iff {e : Expansion} {matching : Text → List Text} {line : Text}
    {error : ShellError} :
    parseLine e matching line = .error error ↔
      ∃ t cause, FaultyAt line t cause ∧ error = .malformed cause.message t.position := by
  rw [parseLine, parse_eq_error_iff, firstFault?, List.findSome?_eq_some_iff]
  constructor
  · rintro ⟨before, t, after, hread, hfault, -⟩
    obtain ⟨cause, hcause, rfl⟩ := Option.map_eq_some_iff.1 hfault
    obtain ⟨rest, hrest⟩ : readable (Token.ofLine line) <+: Token.ofLine line :=
      List.takeWhile_prefix _
    refine ⟨t, cause, ⟨before, after ++ rest, ?_, fault?_eq_some_iff.1 hcause, ?_⟩, rfl⟩
    · rw [← hrest, hread]
      simp
    · intro b hb hnewline
      have hmem : b ∈ readable (Token.ofLine line) := by
        rw [hread]
        exact List.mem_append_left _ hb
      have hends := endsLine_of_mem_readable hmem
      simp [Token.endsLine, hnewline] at hends
  · rintro ⟨t, cause, ⟨before, after, hline, hfault, hbreaks⟩, rfl⟩
    have hbefore := before_fault hline hfault
    have hends : ∀ b ∈ before, b.endsLine = false := by
      intro b hb
      simp [Token.endsLine, hbreaks b hb, (hbefore b hb).2]
    have htends : t.endsLine = false := by simp [Token.endsLine, hfault]
    refine ⟨before, t, readable after, ?_, ?_, ?_⟩
    · rw [hline, readable_append_of_solid hends, readable_cons_of_solid htends]
    · rw [fault?_eq_some_iff.2 hfault]
      rfl
    · intro b hb
      rw [(hbefore b hb).1]
      rfl

/-- A fault is found where the rest of the line, from the offset that is reported, is never
closed. -/
theorem unclosed_of_faultyAt {line : Text} {t : Token} {cause : Fault}
    (h : FaultyAt line t cause) :
    ∃ read rest, line = read ++ rest ∧ read.byteLength = t.position.offset ∧
      Lexeme.Unclosed cause rest := by
  obtain ⟨before, after, hline, hfault, -⟩ := h
  obtain ⟨rest, htext, hrest⟩ := Token.tokensFrom_split hline
  refine ⟨Token.rawText before, rest, htext, ?_, ?_⟩
  · rw [Token.position_of_split hline, Position.start_advanceBy]
    rfl
  · cases rest with
    | nil =>
        rw [Token.tokensFrom_nil] at hrest
        rw [← (List.cons.inj hrest).1] at hfault
        cases hfault
    | cons c rest =>
        rw [Token.tokensFrom_cons] at hrest
        rw [← (List.cons.inj hrest).1] at hfault
        exact (Lexeme.first_kind_eq_fault_iff c rest cause).1 hfault

/-! ## Commands -/

theorem rawText_ne_nil {w : Word} (hne : w ≠ []) (h : ∀ t ∈ w, t.raw ≠ []) :
    Token.rawText w ≠ [] := by
  cases w with
  | nil => exact absurd rfl hne
  | cons t w =>
      rw [Token.rawText_cons]
      simp [h t List.mem_cons_self]

/-- A word that was read gives a name, whatever it stands for. -/
theorem nameOf_ne_nil (e : Expansion) {line : Text} {w : Word}
    (hw : w ∈ Word.ofTokens (readable (Token.ofLine line))) : nameOf e w ≠ [] := by
  obtain ⟨hne, hmem⟩ := Word.mem_of_mem_ofTokens hw
  obtain ⟨body, hbody, hall⟩ := Token.tokensFrom_ends .start line
  have hraw : ∀ t ∈ w, t.raw ≠ [] := by
    intro t ht
    have hread := (hmem t ht).1
    have hline : t ∈ Token.ofLine line := (List.takeWhile_sublist _).subset hread
    rw [Token.ofLine, hbody] at hline
    rcases List.mem_append.1 hline with hin | hlast
    · exact (hall t hin).2
    · have hends := endsLine_of_mem_readable hread
      rw [List.mem_singleton.1 hlast] at hends
      cases hends
  rw [nameOf]
  split
  · exact rawText_ne_nil hne hraw
  · rename_i hword
    simpa using hword

/-- Where there is a command, its first word gives the name, and the line is kept as it is. -/
theorem exists_name {e : Expansion} {matching : Text → List Text} {line : Text} {c : Command}
    (h : parseLine e matching line = .ok (some c)) :
    ∃ w ∈ Word.ofTokens (readable (Token.ofLine line)),
      c.name = nameOf e w ∧ c.resolved = none ∧ c.rawInput = line := by
  obtain ⟨-, first, rest, hwords, rfl⟩ := parse_eq_some_iff.1 h
  refine ⟨first, ?_, rfl, rfl, Token.rawText_tokensFrom .start line⟩
  rw [hwords]
  exact List.mem_cons_self

/-! ## The three outcomes -/

/-- What it is for a result to be the one that the text of a line asks for. -/
structure Verdict (line : Text) (result : Except ShellError (Option Command)) : Prop where
  blank_iff : result = .ok none ↔ ∀ c ∈ line.firstLine, c = ' ' ∨ c = '\t'
  refused_iff : (∃ error, result = .error error) ↔ ∃ t cause, FaultyAt line t cause
  /-- The error names the fault and its place. -/
  refused_string : ∀ t, FaultyAt line t .unterminatedString →
    result = .error (.malformed "unterminated string".toList t.position)
  refused_variable : ∀ t, FaultyAt line t .unterminatedVariable →
    result = .error (.malformed "unterminated variable".toList t.position)
  /-- At its place the line goes on with something that is never closed. -/
  unclosed : ∀ t cause, FaultyAt line t cause →
    ∃ read rest, line = read ++ rest ∧ read.byteLength = t.position.offset ∧
      Lexeme.Unclosed cause rest
  command : ¬(∀ c ∈ line.firstLine, c = ' ' ∨ c = '\t') → ¬(∃ t cause, FaultyAt line t cause) →
    ∃ c, result = .ok (some c) ∧ c.name ≠ [] ∧ c.resolved = none ∧ c.rawInput = line

theorem parseLine_eq_none_iff {e : Expansion} {matching : Text → List Text} {line : Text} :
    parseLine e matching line = .ok none ↔ ∀ c ∈ line.firstLine, c = ' ' ∨ c = '\t' := by
  have hblank := readable_blank_iff .start line
  simp only [Lexeme.isBlank, Bool.or_eq_true, decide_eq_true_eq] at hblank
  rw [parseLine, parse_eq_none_iff, ← hblank, Word.ofTokens_eq_nil_iff]
  refine and_iff_right_of_imp ?_
  intro hall
  rw [firstFault?_eq_none_iff]
  intro t ht
  have hkind : t.kind = .blank := hall t ht
  simp [Token.fault?, hkind]

/-- A command that is read has a name, and the line is kept as it is. -/
theorem parseLine_command {e : Expansion} {matching : Text → List Text} {line : Text} {c : Command}
    (h : parseLine e matching line = .ok (some c)) :
    c.name ≠ [] ∧ c.resolved = none ∧ c.rawInput = line := by
  obtain ⟨w, hw, hname, hresolved, hraw⟩ := exists_name h
  rw [hname]
  exact ⟨nameOf_ne_nil e hw, hresolved, hraw⟩

/-- Whatever variables are bound to and whatever files there are, the text of a line tells what
reading it comes to. -/
theorem parseLine_verdict (e : Expansion) (matching : Text → List Text) (line : Text) :
    Verdict line (parseLine e matching line) where
  blank_iff := parseLine_eq_none_iff
  refused_iff := by
    constructor
    · rintro ⟨error, herror⟩
      obtain ⟨t, cause, hfault, -⟩ := parseLine_eq_error_iff.1 herror
      exact ⟨t, cause, hfault⟩
    · rintro ⟨t, cause, hfault⟩
      exact ⟨_, parseLine_eq_error_iff.2 ⟨t, cause, hfault, rfl⟩⟩
  refused_string t hfault := parseLine_eq_error_iff.2 ⟨t, _, hfault, rfl⟩
  refused_variable t hfault := parseLine_eq_error_iff.2 ⟨t, _, hfault, rfl⟩
  unclosed _ _ := unclosed_of_faultyAt
  command := by
    intro hblank hfault
    cases hresult : parseLine e matching line with
    | error error =>
        obtain ⟨t, cause, hat, -⟩ := parseLine_eq_error_iff.1 hresult
        exact absurd ⟨t, cause, hat⟩ hfault
    | ok result =>
        cases result with
        | none => exact absurd (parseLine_eq_none_iff.1 hresult) hblank
        | some c => exact ⟨c, rfl, parseLine_command hresult⟩

end Command

end PrefixShell
