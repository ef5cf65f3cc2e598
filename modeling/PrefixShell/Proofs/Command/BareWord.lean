import Mathlib.Data.List.Basic
import PrefixShell.Proofs.Command.Leading
import PrefixShell.Proofs.Word.Substitution

/-!
# Bare words

In a text without quotes, variables, `=` and line breaks nothing but blanks parts the words.  The lexer
may still cut such a word into several lexemes: a word that begins with `-` is an option as far as it
can be one, and what is left of it begins anew.  But each of these lexemes stands for itself, so the
word stands for itself, unless it begins with a `~` for the home directory.

## Main results

* `Text.words_induction`: what is kept by a blank and by a word in front holds of every text.
* `Lexeme.ofText_append_of_bare`: a bare word has the same lexemes in front of a blank.
* `Word.ofTokens_ofText`: the words of a bare text are its pieces between blanks.
* `Word.expand_ofText`: a bare word stands for itself.
-/

namespace PrefixShell

/-! ## The words of a text -/

namespace Text

/-- The pieces of a text between its blanks, but for the empty ones. -/
def words (t : Text) : List Text := (t.splitOnP Lexeme.isBlank).filter (· ≠ [])

variable {c : Char} {w t : Text}

theorem words_cons_blank (hc : Lexeme.isBlank c = true) (t : Text) : words (c :: t) = words t := by
  rw [words, List.splitOnP_cons_eq_if_modifyHead, if_pos hc, List.filter_cons_of_neg (by simp)]
  rfl

/-- A word in front of a blank, or of nothing, is the first one. -/
theorem words_append (hne : w ≠ []) (hw : ∀ c ∈ w, Lexeme.isBlank c = false) (ht : t.Parted) :
    words (w ++ t) = w :: words t := by
  cases t with
  | nil =>
      rw [List.append_nil, words, List.splitOnP_eq_singleton hw,
        List.filter_cons_of_pos (by simp [hne])]
      rfl
  | cons b t =>
      have hb : Lexeme.isBlank b = true := ht.isBlank b rfl
      rw [words_cons_blank hb, words, List.splitOnP_append_cons_of_forall_mem hw b hb,
        List.filter_cons_of_pos (by simp [hne])]
      rfl

/-- To prove something of a text, go through it blank by blank and word by word. -/
theorem words_induction {P : Text → Prop} (nil : P [])
    (blank : ∀ c t, Lexeme.isBlank c = true → P t → P (c :: t))
    (word : ∀ w t, w ≠ [] → (∀ c ∈ w, Lexeme.isBlank c = false) → t.Parted → P t → P (w ++ t))
    (t : Text) : P t := by
  induction h : t.length using Nat.strong_induction_on generalizing t with
  | _ n ih =>
      cases t with
      | nil => exact nil
      | cons c t =>
          cases hc : Lexeme.isBlank c with
          | true => exact blank c t hc (ih t.length (by simp [← h]) t rfl)
          | false =>
              obtain ⟨w, r, hsplit, hw, hr⟩ := exists_run (!Lexeme.isBlank ·) (c :: t)
              have hne : w ≠ [] := by
                rintro rfl
                obtain rfl : c :: t = r := hsplit
                simpa [hc] using hr c rfl
              have hlt : r.length < n := by
                have hpos := List.length_pos_of_ne_nil hne
                rw [← h, hsplit, List.length_append]
                omega
              rw [hsplit]
              refine word w r hne ?_ ?_ (ih _ hlt r rfl)
              · intro d hd
                simpa using hw d hd
              · intro d hd
                have hblank : Lexeme.isBlank d = true := by simpa using hr d hd
                simpa [Lexeme.isBlank] using hblank

theorem words_eq_nil_iff : words t = [] ↔ ∀ c ∈ t, Lexeme.isBlank c = true := by
  induction t using words_induction with
  | nil => simp [words]
  | blank c t hc ih =>
      rw [words_cons_blank hc, ih, List.forall_mem_cons]
      exact (and_iff_right hc).symm
  | word w t hne hw ht ih =>
      rw [words_append hne hw ht]
      refine iff_of_false (List.cons_ne_nil _ _) ?_
      intro hall
      obtain ⟨c, rest, rfl⟩ := List.exists_cons_of_ne_nil hne
      have hc := hall c (List.mem_append_left t List.mem_cons_self)
      rw [hw c List.mem_cons_self] at hc
      cases hc

/-- A word is not empty, and it is a piece of the text without blanks. -/
theorem mem_words : ∀ w ∈ words t, w ≠ [] ∧ ∀ c ∈ w, c ∈ t ∧ Lexeme.isBlank c = false := by
  induction t using words_induction with
  | nil => simp [words]
  | blank c t hc ih =>
      rw [words_cons_blank hc]
      intro w hw
      obtain ⟨hne, hmem⟩ := ih w hw
      refine ⟨hne, ?_⟩
      intro d hd
      exact ⟨List.mem_cons_of_mem c (hmem d hd).1, (hmem d hd).2⟩
  | word v t hne hv ht ih =>
      rw [words_append hne hv ht]
      intro w hw
      rcases List.mem_cons.1 hw with rfl | hw
      · exact ⟨hne, fun d hd => ⟨List.mem_append_left t hd, hv d hd⟩⟩
      · obtain ⟨hne, hmem⟩ := ih w hw
        refine ⟨hne, ?_⟩
        intro d hd
        exact ⟨List.mem_append_right v (hmem d hd).1, (hmem d hd).2⟩

end Text

/-! ## The lexemes of a bare word -/

/-- A text without any of the characters that mean something wherever they stand: quotes, `$`, `=` and
line breaks. -/
def Text.Bare (t : Text) : Prop := ∀ c ∈ t, c ∉ ['"', '\'', '$', '=', '\n']

namespace Lexeme

variable {c : Char} {s t : Text}

theorem ofDash_short (hc : Text.isAlphanumeric c = true) (t : Text) :
    ofDash (c :: t) = ⟨⟨.option, '-' :: c :: t.takeWhile Text.isAlphanumeric,
      '-' :: c :: t.takeWhile Text.isAlphanumeric⟩, t.dropWhile Text.isAlphanumeric⟩ := by
  have hdash : c ≠ '-' := Text.ne_of_isAlphanumeric hc (by decide)
  unfold ofDash
  split
  · rename_i heq
    exact absurd (List.cons.inj heq).1 hdash
  · rw [List.takeWhile_cons_of_pos hc, List.dropWhile_cons_of_pos hc]

theorem ofDash_lone (hdash : c ≠ '-') (hc : Text.isAlphanumeric c = false) (t : Text) :
    ofDash (c :: t) = ⟨⟨.word, ['-'], ['-']⟩, c :: t⟩ := by
  unfold ofDash
  split
  · rename_i heq
    exact absurd (List.cons.inj heq).1 hdash
  · rw [List.takeWhile_cons_of_neg (by simp [hc])]

theorem mem_of_mem_rest {d : Char} (hd : d ∈ (first c s).rest) : d ∈ c :: s := by
  rw [← first_raw_append_rest c s]
  exact List.mem_append_right _ hd

/-- A lexeme that was typed as it stands, and stands for itself. -/
structure Literal (x : Lexeme) : Prop where
  kind : x.kind = .word ∨ x.kind = .option
  literal_eq : x.literal = x.raw

theorem ofDash_literal (t : Text) : (ofDash t).lexeme.Literal := by
  unfold ofDash
  split
  · exact ⟨.inr rfl, rfl⟩
  · split
    · exact ⟨.inl rfl, rfl⟩
    · exact ⟨.inr rfl, rfl⟩

/-- What begins neither a blank nor anything special stands for itself. -/
theorem first_literal (hc : endsWord c = false) (t : Text) : (first c t).lexeme.Literal := by
  by_cases hdash : c = '-'
  · subst hdash
    exact ofDash_literal t
  · rw [first_word hc hdash]
    exact ⟨.inl rfl, rfl⟩

/-- The lexemes of a bare word stand for themselves. -/
theorem literal_of_bare (hs : ∀ d ∈ s, endsWord d = false) : ∀ x ∈ ofText s, x.Literal := by
  fun_induction ofText s with
  | case1 => simp
  | case2 c s ih =>
      refine List.forall_mem_cons.2 ⟨first_literal (hs c List.mem_cons_self) s, ?_⟩
      exact ih fun d hd => hs d (mem_of_mem_rest hd)

/-- A bare word has the same lexemes in front of a blank. -/
theorem ofText_append_of_bare (hs : ∀ d ∈ s, endsWord d = false) (ht : t.Parted) :
    ofText (s ++ t) = ofText s ++ ofText t := by
  refine ofText_append ?_ ht.breaks
  intro x hx
  rcases (literal_of_bare hs x hx).kind with hkind | hkind
  all_goals
    rw [hkind]
    exact ⟨TokenKind.noConfusion, fun _ => TokenKind.noConfusion⟩

theorem flatMap_raw_ofText (t : Text) : (ofText t).flatMap raw = t := by
  fun_induction ofText t with
  | case1 => rfl
  | case2 c t ih =>
      rw [List.flatMap_cons, ih]
      exact first_raw_append_rest c t

/-- What follows a blank or nothing begins with a blank. -/
theorem head_ofText_of_parted (ht : t.Parted) : ∀ x ∈ (ofText t).head?, x.kind = .blank := by
  cases t with
  | nil => simp
  | cons c t =>
      rw [ofText_cons, first_blank (ht.isBlank c rfl)]
      rintro x ⟨⟩
      rfl

end Lexeme

/-! ## The words of a bare text -/

namespace Word

/-- The tokens of a text, as if each began it. -/
def ofText (t : Text) : Word := (Lexeme.ofText t).map (·.at .start)

variable {c : Char} {w t : Text}

/-- A blank in front of a text is passed over. -/
theorem ofTokens_ofText_cons_blank (hc : Lexeme.isBlank c = true) (t : Text) :
    ofTokens (ofText (c :: t)) = ofTokens (ofText t) := by
  refine Lexeme.pass_blank (f := fun _ t => ofTokens (ofText t)) ?_ hc .start t
  intro _ d u hd
  rw [ofText, Lexeme.ofText_cons, Lexeme.first_blank hd, List.map_cons]
  show ofTokens (_ :: ofText ((d :: u).dropWhile Lexeme.isBlank)) = _
  rw [ofTokens_blank rfl, List.dropWhile_cons_of_pos hd]

theorem ofText_ne_nil (hne : t ≠ []) : ofText t ≠ [] := by
  intro h
  exact hne (Lexeme.ofText_eq_nil_iff.1 (List.map_eq_nil_iff.1 h))

theorem kind_of_bare (hw : ∀ d ∈ w, Lexeme.endsWord d = false) :
    ∀ x ∈ ofText w, x.kind = .word ∨ x.kind = .option := by
  intro x hx
  obtain ⟨l, hl, rfl⟩ := List.mem_map.1 hx
  exact (Lexeme.literal_of_bare hw l hl).kind

end Word

theorem Text.Bare.endsWord_eq {t : Text} (h : t.Bare) {c : Char} (hc : c ∈ t) :
    Lexeme.endsWord c = Lexeme.isBlank c := by
  have hbare := h c hc
  simp only [List.mem_cons, List.not_mem_nil, or_false, not_or] at hbare
  simp [Lexeme.endsWord, hbare]

/-- In a bare text there are blanks, and lexemes that stand for themselves. -/
theorem Lexeme.literal_of_bare_text {t : Text} (ht : t.Bare) :
    ∀ x ∈ ofText t, x.kind = .blank ∨ x.Literal := by
  fun_induction ofText t with
  | case1 => simp
  | case2 c t ih =>
      refine List.forall_mem_cons.2 ⟨?_, ih fun d hd => ht d (mem_of_mem_rest hd)⟩
      cases hc : isBlank c with
      | true =>
          rw [first_blank hc]
          exact .inl rfl
      | false => exact .inr (first_literal ((ht.endsWord_eq List.mem_cons_self).trans hc) t)

namespace Word

variable {w t : Text}

/-- The words of a bare text are its pieces between blanks. -/
theorem ofTokens_ofText (ht : t.Bare) : ofTokens (ofText t) = t.words.map ofText := by
  induction t using Text.words_induction with
  | nil =>
      rw [ofText, Lexeme.ofText_nil]
      rfl
  | blank c t hc ih =>
      rw [ofTokens_ofText_cons_blank hc, Text.words_cons_blank hc]
      exact ih fun d hd => ht d (List.mem_cons_of_mem c hd)
  | word w t hne hw hparted ih =>
      have hends : ∀ d ∈ w, Lexeme.endsWord d = false := by
        intro d hd
        rw [ht.endsWord_eq (List.mem_append_left t hd), hw d hd]
      have hsolid : ∀ x ∈ ofText w, x.kind ≠ .blank := by
        intro x hx hblank
        have hkind := kind_of_bare hends x hx
        simp [hblank] at hkind
      have hhead : ∀ x ∈ (ofText t).head?, x.kind = .blank := by
        intro x hx
        rw [ofText, List.head?_map] at hx
        obtain ⟨l, hl, rfl⟩ := Option.map_eq_some_iff.1 hx
        exact Lexeme.head_ofText_of_parted hparted l hl
      have hsplit : ofText (w ++ t) = ofText w ++ ofText t := by
        rw [ofText, Lexeme.ofText_append_of_bare hends hparted, List.map_append]
        rfl
      rw [hsplit, ofTokens_append (ofText_ne_nil hne) hsolid hhead, Text.words_append hne hw hparted,
        List.map_cons, ih fun d hd => ht d (List.mem_append_right w hd)]

/-! ## What a bare word stands for -/

/-- Only a lone `~` and one before a `/` stand for the home directory. -/
theorem afterTilde?_eq_none (hlone : w ≠ ['~']) (hslash : ¬['~', '/'] <+: w) :
    Expansion.afterTilde? w = none := by
  refine Expansion.afterTilde?_eq_none_iff.2 ?_
  rintro (hhome | hhome)
  · exact hlone hhome
  · exact hslash hhome

theorem piece_of_literal (e : Expansion) {x : Lexeme} (hx : x.Literal) :
    e.piece false (x.at .start) = x.raw ∧ e.piece true (x.at .start) = e.tilde x.raw := by
  rw [← hx.literal_eq]
  rcases hx.kind with hkind | hkind <;>
    simp [Expansion.piece, Lexeme.at, hkind]

/-- A bare word stands for itself, unless a `~` in front of it stands for the home directory. -/
theorem expand_ofText (e : Expansion) (hw : ∀ d ∈ w, Lexeme.endsWord d = false)
    (htilde : Expansion.afterTilde? w = none) : e.word (ofText w) = w := by
  cases w with
  | nil => rw [ofText, Lexeme.ofText_nil]; rfl
  | cons c s =>
      have hliteral := Lexeme.literal_of_bare hw
      rw [Lexeme.ofText_cons] at hliteral
      obtain ⟨hfirst, hrest⟩ := List.forall_mem_cons.1 hliteral
      -- A `~` does not begin an option, so that the lexeme it begins is the whole word.
      have hlead : Expansion.afterTilde? (Lexeme.first c s).lexeme.raw = none := by
        by_cases hc : c = '~'
        · subst hc
          rw [Lexeme.first_word_self hw (by decide)]
          exact htilde
        · obtain ⟨u, hu⟩ := Lexeme.exists_raw_eq_cons c s
          rw [hu]
          exact Expansion.afterTilde?_of_ne hc u
      have hothers : ((Lexeme.ofText (Lexeme.first c s).rest).map (·.at .start)).flatMap
          (e.piece false) = (Lexeme.first c s).rest := by
        rw [List.flatMap_map]
        refine (List.flatMap_congr fun x hx => ?_).trans (Lexeme.flatMap_raw_ofText _)
        exact (piece_of_literal e (hrest x hx)).1
      rw [ofText, Lexeme.ofText_cons, List.map_cons, Expansion.word, (piece_of_literal e hfirst).2,
        Expansion.tilde, hlead, hothers]
      exact Lexeme.first_raw_append_rest c s

end Word

end PrefixShell
