import Mathlib
import PrefixShell.Command.Parse

/-!
# What variables make of a word

With each variable in the place of its value, and all else as it stands, a word has a text.  The word
stands for this text unless it leads home, that is, unless a leading `~` makes way for the home
directory.

Whether it does is asked of the first piece alone and not of the text.  A `~` that is a piece by itself
leads home whatever is glued to it, even if the text goes on as the name of a user would.

## Main results

* `afterTilde?_eq_none_iff`: which texts do not lead home.
* `word_eq_substituted`: a word stands for its text if none of its pieces leads home.
* `word_of_not_homeward`: a word whose text does not lead home stands for its text, unless its first
  piece is a lone `~`.
-/

namespace PrefixShell

/-! ## Texts that lead home -/

/-- Whether a text is `~` or begins with `~/`. -/
def Text.Homeward (t : Text) : Prop := t = ['~'] ∨ ['~', '/'] <+: t

instance (t : Text) : Decidable t.Homeward := inferInstanceAs (Decidable (_ ∨ _))

theorem Text.Homeward.eq_cons_tail {t : Text} (h : t.Homeward) : t = '~' :: t.tail := by
  rcases h with rfl | ⟨after, rfl⟩ <;> rfl

namespace Expansion

theorem afterTilde?_eq_some_iff {t rest : Text} :
    afterTilde? t = some rest ↔ t = '~' :: rest ∧ t.Homeward := by
  unfold afterTilde? Text.Homeward
  split
  · rename_i after
    cases after with
    | nil => simp
    | cons c after =>
        by_cases hc : c = '/'
        · simp [hc]
        · simp [hc, Ne.symm hc]
  · rename_i hne
    refine iff_of_false nofun ?_
    rintro ⟨rfl, -⟩
    exact hne rest rfl

theorem afterTilde?_eq_none_iff {t : Text} : afterTilde? t = none ↔ ¬t.Homeward := by
  constructor
  · intro hnone hhome
    rw [afterTilde?_eq_some_iff.2 ⟨hhome.eq_cons_tail, hhome⟩] at hnone
    cases hnone
  · intro hhome
    cases h : afterTilde? t with
    | none => rfl
    | some rest => exact absurd (afterTilde?_eq_some_iff.1 h).2 hhome

theorem tilde_of_not_homeward (e : Expansion) {t : Text} (h : ¬t.Homeward) : e.tilde t = t := by
  rw [tilde, afterTilde?_eq_none_iff.2 h]

end Expansion

/-! ## The text of a word -/

/-- A piece of a word, neither a separator nor a fault. -/
def Token.IsPiece (t : Token) : Prop := t.isSeparator = false ∧ t.fault? = none

instance (t : Token) : Decidable t.IsPiece := inferInstanceAs (Decidable (_ ∧ _))

namespace Expansion

/-- The text of a piece: the value of a variable, and anything else as it stands. -/
def substitutedPiece (e : Expansion) (t : Token) : Text :=
  if t.kind = .variable then e.value t.literal else t.literal

/-- The text of a word, its variables in the place of their values. -/
def substituted (e : Expansion) (w : Word) : Text := w.flatMap e.substitutedPiece

/-- Whether a leading `~` of a piece is minded: not in the value of a variable, and in quotes only if the
shell is set to do so. -/
def mindsTilde (e : Expansion) (t : Token) : Bool :=
  t.kind ≠ .variable && (!t.isQuoted || e.tildeInQuotes)

/-- Whether the first piece of a word is a lone `~` that is minded. -/
def leadsHome (e : Expansion) (w : Word) : Bool :=
  w.head?.any fun t => e.mindsTilde t && t.literal = ['~']

variable (e : Expansion) {t : Token} {w : Word}

theorem substituted_cons (t : Token) (w : Word) :
    e.substituted (t :: w) = e.substitutedPiece t ++ e.substituted w := rfl

/-- A piece further back in a word stands for its text. -/
theorem piece_inner (ht : t.IsPiece) : e.piece false t = e.substitutedPiece t := by
  obtain ⟨kind, raw, literal, position⟩ := t
  cases kind <;> simp_all [Token.IsPiece, Token.isSeparator, Token.fault?, piece, substitutedPiece]

/-- The first piece of a word stands for its text too, unless a `~` is minded in it. -/
theorem piece_leading (ht : t.IsPiece) :
    e.piece true t = if e.mindsTilde t then e.tilde t.literal else e.substitutedPiece t := by
  obtain ⟨kind, raw, literal, position⟩ := t
  cases kind <;>
    simp_all [Token.IsPiece, Token.isSeparator, Token.fault?, piece, substitutedPiece, mindsTilde,
      Token.isQuoted]

theorem kind_ne_variable_of_mindsTilde (h : e.mindsTilde t = true) : t.kind ≠ .variable := by
  rw [mindsTilde, Bool.and_eq_true, decide_eq_true_eq] at h
  exact h.1

theorem substitutedPiece_of_mindsTilde (h : e.mindsTilde t = true) :
    e.substitutedPiece t = t.literal :=
  if_neg (e.kind_ne_variable_of_mindsTilde h)

/-- After its first piece a word stands for its text. -/
theorem word_cons (hw : ∀ u ∈ w, u.IsPiece) (t : Token) :
    e.word (t :: w) = e.piece true t ++ e.substituted w :=
  congrArg (e.piece true t ++ ·) (List.flatMap_congr fun u hu => e.piece_inner (hw u hu))

/-- A word stands for its text if none of its pieces leads home. -/
theorem word_eq_substituted (hw : ∀ u ∈ w, u.IsPiece)
    (htilde : ∀ u ∈ w, u.kind ≠ .variable → ¬u.literal.Homeward) :
    e.word w = e.substituted w := by
  cases w with
  | nil => rfl
  | cons t w =>
      obtain ⟨ht, hw⟩ := List.forall_mem_cons.1 hw
      rw [e.word_cons hw, substituted_cons, e.piece_leading ht]
      cases hminds : e.mindsTilde t with
      | false => rfl
      | true =>
          have hkind : t.kind ≠ .variable := e.kind_ne_variable_of_mindsTilde hminds
          rw [if_pos rfl, e.tilde_of_not_homeward (htilde t List.mem_cons_self hkind),
            e.substitutedPiece_of_mindsTilde hminds]

/-- A word whose text neither is `~` nor begins with `~/` stands for its text.  The one exception is a
word whose first piece is a `~` by itself: this piece makes way for the home directory, and the rest of
the text comes after it. -/
theorem word_of_not_homeward (hw : ∀ u ∈ w, u.IsPiece) (htext : ¬(e.substituted w).Homeward) :
    e.word w =
      if e.leadsHome w then e.home ++ (e.substituted w).tail else e.substituted w := by
  cases w with
  | nil => rfl
  | cons t w =>
      obtain ⟨ht, hw⟩ := List.forall_mem_cons.1 hw
      have hleads : e.leadsHome (t :: w) = (e.mindsTilde t && t.literal = ['~']) := rfl
      rw [e.word_cons hw, e.piece_leading ht, hleads]
      rw [substituted_cons] at htext ⊢
      cases hminds : e.mindsTilde t with
      | false => rfl
      | true =>
          rw [e.substitutedPiece_of_mindsTilde hminds] at htext ⊢
          by_cases hlone : t.literal = ['~']
          · have hhome : e.tilde ['~'] = e.home := List.append_nil e.home
            simp [hlone, hhome]
          · -- A piece that is more than a `~` leads home only if its text does.
            have hliteral : ¬t.literal.Homeward := by
              rintro (h | h)
              · exact hlone h
              · exact htext (.inr (h.trans (List.prefix_append _ _)))
            simp [hlone, e.tilde_of_not_homeward hliteral]

/-- The home directory of one user, and the name of another one in a variable. -/
def homeOfMe : Expansion where
  value? name :=
    if name = "HOME".toList then some "/home/me".toList
    else if name = "USER".toList then some "bob".toList
    else none
  fallbackHome := []
  tildeInQuotes := true

/-- A `~` that is not a piece by itself, in front of more than a `/`. -/
theorem word_user_file :
    ∃ w ∈ Word.ofTokens (Command.readable (Token.ofLine "~bob/$USER".toList)),
      (∀ u ∈ w, u.IsPiece) ∧ ¬(homeOfMe.substituted w).Homeward ∧
        homeOfMe.word w = "~bob/bob".toList := by
  have hwords : Word.ofTokens (Command.readable (Token.ofLine "~bob/$USER".toList)) =
      [[⟨.word, "~bob/".toList, "~bob/".toList, ⟨1, 1, 0⟩⟩,
        ⟨.variable, "$USER".toList, "USER".toList, ⟨1, 6, 5⟩⟩]] := by
    cbv
  rw [hwords]
  refine ⟨_, List.mem_cons_self, by decide, by decide, ?_⟩
  exact homeOfMe.word_of_not_homeward (by decide) (by decide)

/-- Words that begin with a `~` and go on with a variable, with quotes and with `=`. -/
def gluedTildes : List Word :=
  (Word.ofTokens (Command.readable (Token.ofLine "ls ~$USER ~\"bob\" ~=x".toList))).tail

/-- The texts of these words do not lead home, and yet the words do. -/
theorem word_of_glued_tilde :
    (∀ w ∈ gluedTildes, (∀ u ∈ w, u.IsPiece) ∧ ¬(homeOfMe.substituted w).Homeward) ∧
      gluedTildes.map homeOfMe.substituted = ["~bob".toList, "~bob".toList, "~=x".toList] ∧
      gluedTildes.map homeOfMe.word =
        ["/home/mebob".toList, "/home/mebob".toList, "/home/me=x".toList] := by
  have hwords : gluedTildes =
      [[⟨.word, ['~'], ['~'], ⟨1, 4, 3⟩⟩,
          ⟨.variable, "$USER".toList, "USER".toList, ⟨1, 5, 4⟩⟩],
        [⟨.word, ['~'], ['~'], ⟨1, 11, 10⟩⟩,
          ⟨.quoted .double, "\"bob\"".toList, "bob".toList, ⟨1, 12, 11⟩⟩],
        [⟨.word, ['~'], ['~'], ⟨1, 18, 17⟩⟩, ⟨.equals, ['='], ['='], ⟨1, 19, 18⟩⟩,
          ⟨.word, ['x'], ['x'], ⟨1, 20, 19⟩⟩]] := by
    cbv
  rw [hwords]
  decide

end Expansion

end PrefixShell
