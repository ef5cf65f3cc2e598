import PrefixShell.Proofs.Glob.Splicing
import PrefixShell.Proofs.Word.Substitution

/-!
# A word and its pattern

What a word stands for and the pattern it stands for are worked out by two walks over its pieces, each
with a rule of its own for variables, for a leading `~` and for all else.  Here a word is parted a third
time, with no regard to values: into the stretches that are typed, those that make way for the value of
a variable, and the one that may make way for the home directory.  Both walks then put a text in the
place of each stretch, and they differ only in that the pattern has the texts that were not typed
escaped.

So a word is its own pattern as long as these texts hold nothing that is escaped.  In the same way the
pattern stands for the word alone as long as what was typed holds nothing that would be.

## Main results

* `piece_eq_stretches`, `patternPiece_eq_stretches`: what the walks make of one piece.
* `pattern_eq_word_iff`: the words that are their own pattern.
* `accepts_pattern`: the words whose pattern stands for nothing else.
* `pattern_follows_word`: a word and its pattern, stretch by stretch.
-/

namespace PrefixShell

/-! ## Texts that are not changed by escaping -/

namespace Glob

/-- Whether no character of a text has a meaning of its own in a pattern. -/
def MetaFree (t : Text) : Prop := '*' ∉ t ∧ '?' ∉ t ∧ '[' ∉ t ∧ ']' ∉ t

instance (t : Text) : Decidable (MetaFree t) := inferInstanceAs (Decidable (_ ∧ _))

theorem metaFree_iff {t : Text} : MetaFree t ↔ ∀ c ∈ t, isMeta c = false := by
  constructor
  · rintro ⟨hstar, hmark, hopen, hclose⟩ c hc
    have hne {d : Char} (hd : d ∉ t) : c ≠ d := fun h => hd (h ▸ hc)
    simp [isMeta, isWildcard, hne hstar, hne hmark, hne hopen, hne hclose]
  · intro h
    have hnot {c : Char} (hmeta : isMeta c = true) : c ∉ t := fun hc => by simp [h c hc] at hmeta
    exact ⟨hnot rfl, hnot rfl, hnot rfl, hnot rfl⟩

/-- Escaping puts two brackets around each character that has a meaning of its own. -/
theorem length_escape (t : Text) : (escape t).length = t.length + 2 * t.countP isMeta := by
  induction t with
  | nil => rfl
  | cons c t ih =>
      rw [escape_cons, List.length_append, ih, List.length_cons, List.countP_cons, escapeChar]
      split <;> simp_all <;> omega

theorem length_le_length_escape (t : Text) : t.length ≤ (escape t).length := by
  rw [length_escape]
  exact Nat.le_add_right _ _

/-- Just the texts without such characters stay as they are. -/
theorem escape_eq_self_iff {t : Text} : escape t = t ↔ MetaFree t := by
  rw [metaFree_iff]
  refine ⟨?_, escape_eq_self⟩
  intro h c hc
  have hlength := length_escape t
  rw [h] at hlength
  have hcount : t.countP isMeta = 0 := by omega
  exact Bool.eq_false_iff.2 (List.countP_eq_zero.1 hcount c hc)

end Glob

/-- Texts put together from parts, each of which is at least as long as its counterpart, are equal just
if the parts are. -/
theorem Text.flatMap_eq_flatMap_iff {α : Type} {f g : α → Text} {l : List α}
    (hle : ∀ a, (g a).length ≤ (f a).length) :
    l.flatMap f = l.flatMap g ↔ ∀ a ∈ l, f a = g a := by
  refine ⟨?_, List.flatMap_congr⟩
  induction l with
  | nil => exact fun _ _ ha => absurd ha List.not_mem_nil
  | cons a l ih =>
      intro h
      rw [List.flatMap_cons, List.flatMap_cons] at h
      have hrest : (l.flatMap g).length ≤ (l.flatMap f).length := by
        rw [List.length_flatMap, List.length_flatMap]
        exact List.sum_le_sum fun b _ => hle b
      have hlength : (f a).length = (g a).length := by
        have htotal := congrArg List.length h
        rw [List.length_append, List.length_append] at htotal
        have ha := hle a
        omega
      obtain ⟨hhead, htail⟩ := List.append_inj h hlength
      exact List.forall_mem_cons.2 ⟨hhead, ih htail⟩

/-! ## Stretches -/

/-- A stretch of a word, by where its text comes from: it was typed, it is the value of a variable, or
it is the home directory. -/
inductive Stretch
  | typed (t : Text)
  | value (name : Text)
  | home
  deriving DecidableEq, Repr

namespace Stretch

/-- What was typed for a stretch, or the name of the variable. -/
def literal : Stretch → Text
  | typed t => t
  | value name => name
  | home => ['~']

/-- The text that a stretch stands for. -/
def text (e : Expansion) : Stretch → Text
  | typed t => t
  | value name => e.value name
  | home => e.home

/-- The part of a pattern that a stretch stands for: only what was typed keeps its meaning. -/
def pattern (e : Expansion) : Stretch → Text
  | typed t => t
  | value name => Glob.escape (e.value name)
  | home => Glob.escape e.home

def isTyped : Stretch → Bool
  | typed _ => true
  | value _ | home => false

variable (e : Expansion) {s : Stretch}

theorem pattern_of_isTyped (h : s.isTyped = true) : s.pattern e = s.text e := by
  cases s with
  | typed t => rfl
  | value name => cases h
  | home => cases h

theorem pattern_of_not_isTyped (h : s.isTyped = false) : s.pattern e = Glob.escape (s.text e) := by
  cases s with
  | typed t => cases h
  | value name => rfl
  | home => rfl

theorem length_text_le (s : Stretch) : (s.text e).length ≤ (s.pattern e).length := by
  cases h : s.isTyped with
  | true => rw [s.pattern_of_isTyped e h]
  | false =>
      rw [s.pattern_of_not_isTyped e h]
      exact Glob.length_le_length_escape _

theorem length_pattern_le (s : Stretch) :
    (s.pattern e).length ≤ (Glob.escape (s.text e)).length := by
  cases h : s.isTyped with
  | true =>
      rw [s.pattern_of_isTyped e h]
      exact Glob.length_le_length_escape _
  | false => rw [s.pattern_of_not_isTyped e h]

theorem pattern_eq_text_iff :
    s.pattern e = s.text e ↔ (s.isTyped = false → Glob.MetaFree (s.text e)) := by
  cases h : s.isTyped with
  | true => simp [s.pattern_of_isTyped e h]
  | false => simp [s.pattern_of_not_isTyped e h, Glob.escape_eq_self_iff]

theorem escape_text_eq_pattern_iff :
    Glob.escape (s.text e) = s.pattern e ↔ (s.isTyped = true → Glob.MetaFree (s.text e)) := by
  cases h : s.isTyped with
  | true => simp [s.pattern_of_isTyped e h, Glob.escape_eq_self_iff]
  | false => simp [s.pattern_of_not_isTyped e h]

end Stretch

/-- The stretches of a piece.  Only the first piece of a word leads home, and no variable does. -/
def Token.stretches (leading : Bool) (t : Token) : List Stretch :=
  if t.kind = .variable then [.value t.literal]
  else if leading = true ∧ t.literal.Homeward then [.home, .typed t.literal.tail]
  else [.typed t.literal]

/-- The stretches of a word. -/
def Word.stretches : Word → List Stretch
  | [] => []
  | t :: w => t.stretches true ++ w.flatMap (Token.stretches false)

namespace Token

variable {leading : Bool} {t : Token}

theorem flatMap_literal_stretches (leading : Bool) (t : Token) :
    (t.stretches leading).flatMap Stretch.literal = t.literal := by
  rw [stretches]
  split
  · exact List.append_nil _
  · split
    · rename_i hhome
      rw [List.flatMap_cons, List.flatMap_singleton]
      exact hhome.2.eq_cons_tail.symm
    · exact List.append_nil _

theorem kind_of_value_mem_stretches {name : Text} (h : .value name ∈ t.stretches leading) :
    t.kind = .variable ∧ name = t.literal := by
  rw [stretches] at h
  split at h
  · rename_i hkind
    exact ⟨hkind, by simpa using h⟩
  · split at h <;> simp at h

end Token

namespace Word

/-- The stretches of a word make up all that was typed for it, each in its place. -/
theorem flatMap_literal_stretches (w : Word) :
    w.stretches.flatMap Stretch.literal = w.flatMap (·.literal) := by
  cases w with
  | nil => rfl
  | cons t w =>
      rw [stretches, List.flatMap_append, List.flatMap_assoc, t.flatMap_literal_stretches,
        List.flatMap_cons]
      exact congrArg (t.literal ++ ·)
        (List.flatMap_congr fun u _ => u.flatMap_literal_stretches false)

/-- A stretch is the value of a variable only if the variable is a piece of the word. -/
theorem exists_of_value_mem_stretches {w : Word} {name : Text} (h : .value name ∈ w.stretches) :
    ∃ t ∈ w, t.kind = .variable ∧ name = t.literal := by
  cases w with
  | nil => cases h
  | cons t w =>
      rw [stretches, List.mem_append, List.mem_flatMap] at h
      rcases h with ht | ⟨u, hu, hname⟩
      · exact ⟨t, List.mem_cons_self, Token.kind_of_value_mem_stretches ht⟩
      · exact ⟨u, List.mem_cons_of_mem t hu, Token.kind_of_value_mem_stretches hname⟩

end Word

namespace Expansion

variable (e : Expansion) {t : Token} {w : Word}

/-! ## The two walks -/

theorem mindsTilde_of_unquoted (hkind : t.kind ≠ .variable) (hquotes : t.isQuoted = false) :
    e.mindsTilde t = true := by
  simp [mindsTilde, hkind, hquotes]

theorem tilde_of_homeward {t : Text} (h : t.Homeward) : e.tilde t = e.home ++ t.tail := by
  rw [tilde, afterTilde?_eq_some_iff.2 ⟨h.eq_cons_tail, h⟩]

/-- What the first walk makes of a piece that is not quoted. -/
theorem piece_eq_stretches (ht : t.IsPiece) (hquotes : t.isQuoted = false) (leading : Bool) :
    e.piece leading t = (t.stretches leading).flatMap (Stretch.text e) := by
  rw [Token.stretches]
  by_cases hkind : t.kind = .variable
  · rw [if_pos hkind, piece, hkind]
    exact (List.append_nil _).symm
  · rw [if_neg hkind]
    cases leading with
    | false =>
        rw [e.piece_inner ht, substitutedPiece, if_neg hkind, if_neg (fun h => Bool.false_ne_true h.1)]
        exact (List.append_nil _).symm
    | true =>
        rw [e.piece_leading ht, e.mindsTilde_of_unquoted hkind hquotes, if_pos rfl]
        by_cases hhome : t.literal.Homeward
        · rw [if_pos ⟨rfl, hhome⟩, e.tilde_of_homeward hhome]
          exact congrArg (e.home ++ ·) (List.append_nil _).symm
        · rw [if_neg (fun h => hhome h.2), e.tilde_of_not_homeward hhome]
          exact (List.append_nil _).symm

/-- What the second walk makes of a piece. -/
theorem patternPiece_eq_stretches (leading : Bool) (t : Token) :
    e.patternPiece leading t = (t.stretches leading).flatMap (Stretch.pattern e) := by
  rw [Token.stretches, patternPiece]
  by_cases hkind : t.kind = .variable
  · rw [if_pos hkind, if_pos hkind]
    exact (List.append_nil _).symm
  · rw [if_neg hkind, if_neg hkind]
    cases leading with
    | false => exact (List.append_nil _).symm
    | true =>
        rw [if_pos rfl]
        by_cases hhome : t.literal.Homeward
        · rw [if_pos ⟨rfl, hhome⟩, afterTilde?_eq_some_iff.2 ⟨hhome.eq_cons_tail, hhome⟩]
          exact congrArg (Glob.escape e.home ++ ·) (List.append_nil _).symm
        · rw [if_neg (fun h => hhome h.2), afterTilde?_eq_none_iff.2 hhome]
          exact (List.append_nil _).symm

theorem word_eq_stretches (hw : ∀ t ∈ w, t.IsPiece) (hquotes : ∀ t ∈ w, t.isQuoted = false) :
    e.word w = w.stretches.flatMap (Stretch.text e) := by
  cases w with
  | nil => rfl
  | cons t w =>
      obtain ⟨ht, hw⟩ := List.forall_mem_cons.1 hw
      obtain ⟨htquotes, hquotes⟩ := List.forall_mem_cons.1 hquotes
      rw [word, Word.stretches, List.flatMap_append, List.flatMap_assoc,
        e.piece_eq_stretches ht htquotes]
      exact congrArg (_ ++ ·)
        (List.flatMap_congr fun u hu => e.piece_eq_stretches (hw u hu) (hquotes u hu) false)

theorem pattern_eq_stretches (w : Word) :
    e.pattern w = w.stretches.flatMap (Stretch.pattern e) := by
  cases w with
  | nil => rfl
  | cons t w =>
      rw [pattern, Word.stretches, List.flatMap_append, List.flatMap_assoc,
        e.patternPiece_eq_stretches]
      exact congrArg (_ ++ ·) (List.flatMap_congr fun u _ => e.patternPiece_eq_stretches false u)

/-! ## Words that are their own pattern, and words that match nothing else -/

/-- A word is its own pattern just if nothing is escaped in what was not typed. -/
theorem pattern_eq_word_iff (hw : ∀ t ∈ w, t.IsPiece) (hquotes : ∀ t ∈ w, t.isQuoted = false) :
    e.pattern w = e.word w ↔
      ∀ s ∈ w.stretches, s.isTyped = false → Glob.MetaFree (s.text e) := by
  rw [e.pattern_eq_stretches, e.word_eq_stretches hw hquotes,
    Text.flatMap_eq_flatMap_iff (Stretch.length_text_le e)]
  exact forall₂_congr fun s _ => s.pattern_eq_text_iff e

/-- The pattern of a word is the word escaped just if nothing would be escaped in what was typed. -/
theorem escape_word_eq_pattern_iff (hw : ∀ t ∈ w, t.IsPiece)
    (hquotes : ∀ t ∈ w, t.isQuoted = false) :
    Glob.escape (e.word w) = e.pattern w ↔
      ∀ s ∈ w.stretches, s.isTyped = true → Glob.MetaFree (s.text e) := by
  rw [e.pattern_eq_stretches, e.word_eq_stretches hw hquotes, Glob.escape, List.flatMap_assoc]
  exact (Text.flatMap_eq_flatMap_iff (Stretch.length_pattern_le e)).trans
    (forall₂_congr fun s _ => s.escape_text_eq_pattern_iff e)

/-- Only what was typed matches anything but itself: without it the pattern of a word stands for the
word, whatever the values in it. -/
theorem accepts_pattern (hw : ∀ t ∈ w, t.IsPiece) (hquotes : ∀ t ∈ w, t.isQuoted = false)
    (htyped : ∀ s ∈ w.stretches, s.isTyped = true → Glob.MetaFree (s.text e)) :
    ∃ p, Glob.parse? (e.pattern w) = some p ∧ ∀ s, Glob.accepts p s = true ↔ s = e.word w := by
  rw [← (e.escape_word_eq_pattern_iff hw hquotes).2 htyped]
  exact Glob.accepts_escape (e.word w)

/-- How the pattern of a word follows the word. -/
structure Follows (w : Word) : Prop where
  /-- The stretches are all that was typed, parted with no regard to values. -/
  literal : w.stretches.flatMap Stretch.literal = w.flatMap (·.literal)
  word : e.word w = w.stretches.flatMap (Stretch.text e)
  /-- The pattern has the values and the home directory in the same places, escaped. -/
  pattern : e.pattern w = w.stretches.flatMap (Stretch.pattern e)
  same_iff : e.pattern w = e.word w ↔
    ∀ s ∈ w.stretches, s.isTyped = false → Glob.MetaFree (s.text e)
  same : (∀ t ∈ w, t.kind = .variable → Glob.MetaFree (e.value t.literal)) →
    Glob.MetaFree e.home → e.pattern w = e.word w

/-- A word without quotes and its pattern are made of the same stretches.  The pattern has the values of
variables and the home directory escaped and nothing else, so it is the word itself as long as there is
nothing to escape in them. -/
theorem pattern_follows_word (hw : ∀ t ∈ w, t.IsPiece) (hquotes : ∀ t ∈ w, t.isQuoted = false) :
    e.Follows w where
  literal := w.flatMap_literal_stretches
  word := e.word_eq_stretches hw hquotes
  pattern := e.pattern_eq_stretches w
  same_iff := e.pattern_eq_word_iff hw hquotes
  same := by
    intro hvalues hhome
    refine (e.pattern_eq_word_iff hw hquotes).2 ?_
    intro s hs htyped
    cases s with
    | typed t => cases htyped
    | value name =>
        obtain ⟨t, ht, hkind, rfl⟩ := Word.exists_of_value_mem_stretches hs
        exact hvalues t ht hkind
    | home => exact hhome

/-- A home directory and a variable that both have to be escaped. -/
def starred : Expansion where
  value? name := if name = ['D'] then some "a*b".toList else none
  fallbackHome := "/home/[me]".toList
  tildeInQuotes := false

/-- The words of a line, where `HOME` is not bound. -/
theorem pattern_follows_starred : ∃ w,
    (Word.ofTokens (Command.readable (Token.ofLine "ls ~/$D/*.rs".toList))).tail = [w] ∧
      (∀ t ∈ w, t.IsPiece) ∧ (∀ t ∈ w, t.isQuoted = false) ∧
      w.stretches = [.home, .typed ['/'], .value ['D'], .typed "/*.rs".toList] ∧
      starred.word w = "/home/[me]/a*b/*.rs".toList ∧
      starred.pattern w = "/home/[[]me[]]/a[*]b/*.rs".toList ∧ starred.Follows w := by
  obtain ⟨w, hwords, hw⟩ : ∃ w,
      (Word.ofTokens (Command.readable (Token.ofLine "ls ~/$D/*.rs".toList))).tail = [w] ∧
        w = [⟨.word, "~/".toList, "~/".toList, ⟨1, 4, 3⟩⟩,
          ⟨.variable, "$D".toList, ['D'], ⟨1, 6, 5⟩⟩,
          ⟨.word, "/*.rs".toList, "/*.rs".toList, ⟨1, 8, 7⟩⟩] :=
    ⟨_, by cbv, rfl⟩
  subst hw
  refine ⟨_, hwords, by decide, by decide, by decide, by decide, by decide, ?_⟩
  exact starred.pattern_follows_word (by decide) (by decide)

end Expansion

end PrefixShell
