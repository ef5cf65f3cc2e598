import Mathlib.Data.List.TakeWhile
import PrefixShell.Glob.Pattern

/-!
# Patterns put together

A pattern is read from left to right, one element after the other.  So what is put behind a pattern
is read by itself, unless the pattern ends within a bracket, or in a `**` that takes the slash after it
along.

A text that is escaped is read as the characters that it is made of.  Put behind a pattern that does
not end within a bracket, it stands for itself, whatever comes before it and after it.

## Main results

* `parseFrom?_eq_next?`: a pattern is read one element after the other.
* `endsInSet_append`: whether a pattern ends within a bracket is settled by its last pieces.
* `parseFrom?_append`: a pattern that is put together is read piece by piece.
* `exists_suffix_of_accepts_append`: the last pieces stand for an end of the text.
* `parseFrom?_escape_append`, `accepts_only_append`: how an escaped text is read, and what it stands
  for.
* `accepts_escape`: an escaped text is a pattern for itself and for nothing else.
-/

namespace PrefixShell.Glob

/-! ## One element -/

/-- The element that a pattern begins with, whether what follows it is fresh, and what follows it. -/
def next? (fresh : Bool) : Text → Option (Element × Bool × Text)
  | [] => none
  | '?' :: t => some (.anyChar, false, t)
  | '*' :: '*' :: '*' :: _ => none
  | ['*', '*'] => if fresh then some (.anyDirectories, false, []) else none
  | '*' :: '*' :: c :: t => if fresh && c = '/' then some (.anyDirectories, true, t) else none
  | '*' :: t => some (.anyText, false, t)
  | '[' :: t => (readSet? t).map fun (set, rest) => (set, false, rest)
  | c :: t => some (.char c, c = '/', t)

/-- A pattern is read one element after the other. -/
theorem parseFrom?_eq_next? (fresh : Bool) {t : Text} (h : t ≠ []) :
    parseFrom? fresh t =
      (next? fresh t).bind fun (e, g, rest) => (parseFrom? g rest).map (e :: ·) := by
  fun_cases next? fresh t with
  | case1 => exact absurd rfl h
  | case2 t => rw [parseFrom?]; rfl
  | case3 t => rw [parseFrom?]; rfl
  | case4 hfresh => simp [parseFrom?, hfresh]
  | case5 hfresh => simp [parseFrom?, hfresh]
  | case6 c t hc hslash => rw [parseFrom?, if_pos hslash]; rfl; exact hc
  | case7 c t hc hslash => rw [parseFrom?, if_neg hslash]; rfl; exact hc
  | case8 t h₁ h₂ h₃ => rw [parseFrom?]; rfl; all_goals assumption
  | case9 t =>
      rw [parseFrom?]
      split
      · rename_i set rest hset
        simp [hset]
      · rename_i hset
        simp [hset]
  | case10 c t h₁ h₂ h₃ h₄ h₅ h₆ => rw [parseFrom?]; rfl; all_goals assumption

/-! ## Brackets -/

theorem splitSet?_eq_some_iff {t set rest : Text} :
    splitSet? t = some (set, rest) ↔
      ∃ c s, set = c :: s ∧ t = c :: s ++ ']' :: rest ∧ ']' ∉ s := by
  cases t with
  | nil => simp [splitSet?]
  | cons c t =>
      constructor
      · intro h
        have hhead := List.head?_dropWhile_not (· ≠ ']') t
        rw [splitSet?] at h
        split at h
        · cases h
        · rename_i d rest' hdrop
          cases h
          rw [hdrop] at hhead
          have hd : d = ']' := by simpa using hhead
          refine ⟨c, t.takeWhile (· ≠ ']'), rfl, ?_, fun hmem => ?_⟩
          · rw [← hd] at hdrop ⊢
            rw [List.cons_append, ← hdrop, List.takeWhile_append_dropWhile]
          · simpa using List.mem_takeWhile_imp hmem
      · rintro ⟨c, s, rfl, ht, hs⟩
        obtain ⟨rfl, rfl⟩ : _ ∧ t = s ++ ']' :: rest := List.cons.inj ht
        have hall : ∀ d ∈ s, decide (d ≠ ']') = true := by
          rintro d hd
          refine decide_eq_true ?_
          rintro rfl
          exact hs hd
        rw [splitSet?, List.takeWhile_append_of_pos hall, List.dropWhile_append_of_pos hall]
        simp

theorem splitSet?_append {t set rest : Text} (h : splitSet? t = some (set, rest)) (x : Text) :
    splitSet? (t ++ x) = some (set, rest ++ x) := by
  obtain ⟨c, s, rfl, rfl, hs⟩ := splitSet?_eq_some_iff.1 h
  exact splitSet?_eq_some_iff.2 ⟨c, s, rfl, by simp, hs⟩

theorem readSet?_append {t rest : Text} {e : Element} (h : readSet? t = some (e, rest)) (x : Text) :
    readSet? (t ++ x) = some (e, rest ++ x) := by
  unfold readSet? at h
  split at h
  · rename_i t
    obtain ⟨⟨set, rest⟩, hset, he⟩ := Option.map_eq_some_iff.1 h
    cases he
    show readSet? ('!' :: (t ++ x)) = _
    rw [readSet?, splitSet?_append hset]
    rfl
  · rename_i hbang
    obtain ⟨⟨set, rest⟩, hset, he⟩ := Option.map_eq_some_iff.1 h
    cases he
    unfold readSet?
    split
    · rename_i s hs
      obtain ⟨c, u, -, rfl, -⟩ := splitSet?_eq_some_iff.1 hset
      cases hs
      exact absurd rfl (hbang _)
    · rw [splitSet?_append hset]
      rfl

theorem readSet?_suffix {t rest : Text} {e : Element} (h : readSet? t = some (e, rest)) :
    rest <:+ t := by
  unfold readSet? at h
  split at h
  all_goals
    obtain ⟨⟨set, rest⟩, hset, he⟩ := Option.map_eq_some_iff.1 h
    cases he
    obtain ⟨c, s, -, rfl, -⟩ := splitSet?_eq_some_iff.1 hset
  · exact ⟨'!' :: c :: s ++ [']'], by simp⟩
  · exact ⟨c :: s ++ [']'], by simp⟩

/-- Whether a text, as the beginning of a pattern, ends within a bracket. -/
def endsInSet : Text → Bool
  | [] => false
  | '[' :: t =>
    match h : readSet? t with
    | some (_, rest) =>
      have : rest.length < t.length := length_readSet?_lt h
      endsInSet rest
    | none => true
  | _ :: t => endsInSet t
termination_by t => t.length

theorem endsInSet_nil : endsInSet [] = false := by
  rw [endsInSet]

theorem endsInSet_cons {c : Char} (h : c ≠ '[') (t : Text) : endsInSet (c :: t) = endsInSet t := by
  rw [endsInSet]
  exact h

theorem endsInSet_bracket {t rest : Text} {e : Element} (h : readSet? t = some (e, rest)) :
    endsInSet ('[' :: t) = endsInSet rest := by
  rw [endsInSet]
  split
  · rename_i heq
    rw [h] at heq
    cases heq
    rfl
  · rename_i heq
    rw [h] at heq
    cases heq

theorem exists_readSet? {t : Text} (h : endsInSet ('[' :: t) = false) :
    ∃ e rest, readSet? t = some (e, rest) ∧ endsInSet rest = false := by
  rw [endsInSet] at h
  split at h
  · rename_i e rest heq
    exact ⟨e, rest, heq, h⟩
  · cases h

theorem endsInSet_append {u : Text} (h : endsInSet u = false) (x : Text) :
    endsInSet (u ++ x) = endsInSet x := by
  fun_induction endsInSet u with
  | case1 => rfl
  | case2 t e rest hread hlt ih =>
      show endsInSet ('[' :: (t ++ x)) = _
      rw [endsInSet_bracket (readSet?_append hread x), ih h]
  | case3 => cases h
  | case4 c t hc ih =>
      rw [List.cons_append, endsInSet_cons hc, ih h]

/-! ## Splitting -/

theorem next?_star {x : Text} (hx : x.head? ≠ some '*') (fresh : Bool) :
    next? fresh ('*' :: x) = some (.anyText, false, x) := by
  cases x with
  | nil => rfl
  | cons c x =>
      have hc : c ≠ '*' := fun hc => hx (congrArg some hc)
      rw [next?]
      all_goals simp [hc]

/-- A `**` is read together with the slash after it. -/
theorem next?_doubleStar {fresh g : Bool} {e : Element} {c : Char} {x rest : Text}
    (h : next? fresh ('*' :: '*' :: c :: x) = some (e, g, rest)) :
    c = '/' ∧ g = true ∧ rest = x := by
  by_cases hc : c = '*'
  · subst hc
    cases h
  · rw [next?] at h
    · split at h
      · rename_i hslash
        cases h
        simp_all
      · cases h
    · exact hc

theorem next?_plain {c : Char} (h : isWildcard c = false) (fresh : Bool) (t : Text) :
    next? fresh (c :: t) = some (.char c, decide (c = '/'), t) := by
  unfold next?
  split <;> simp_all [isWildcard]

/-- What begins with a `*` is read from the first part of a pattern, or it is a `**` and reaches for the
slash after it. -/
theorem next?_star_append {fresh g : Bool} {e : Element} {u x rest : Text}
    (hclosed : endsInSet u = false) (hx : x.head? ≠ some '*')
    (h : next? fresh ('*' :: u ++ x) = some (e, g, rest)) :
    (∃ v, v <:+ u ∧ endsInSet v = false ∧ rest = v ++ x) ∨
      (u = ['*'] ∧ g = true ∧ x = '/' :: rest) := by
  rcases u with _ | ⟨d, u⟩
  · rw [List.singleton_append, next?_star hx] at h
    cases h
    exact .inl ⟨[], List.nil_suffix, endsInSet_nil, rfl⟩
  · by_cases hd : d = '*'
    · subst hd
      rcases u with _ | ⟨d, u⟩
      · rcases x with _ | ⟨y, x⟩
        · have hrest : rest = [] := by
            rw [List.append_nil, next?] at h
            split at h
            · cases h
              rfl
            · cases h
          exact .inl ⟨[], List.nil_suffix, endsInSet_nil, hrest⟩
        · obtain ⟨rfl, rfl, rfl⟩ := next?_doubleStar h
          exact .inr ⟨rfl, rfl, rfl⟩
      · obtain ⟨rfl, rfl, rfl⟩ := next?_doubleStar h
        refine .inl ⟨u, ⟨['*', '/'], rfl⟩, ?_, rfl⟩
        rwa [endsInSet_cons (by decide), endsInSet_cons (by decide)] at hclosed
    · have hhead : (d :: u ++ x).head? ≠ some '*' := fun hhead => hd (Option.some.inj hhead)
      rw [List.cons_append, next?_star hhead] at h
      cases h
      exact .inl ⟨d :: u, List.suffix_rfl, hclosed, rfl⟩

/-- An element of a pattern is read from the first part of it if that does not end within a bracket;
only a `**` reaches beyond it, for the slash that follows. -/
theorem next?_append {fresh g : Bool} {e : Element} {c : Char} {u x rest : Text}
    (hclosed : endsInSet (c :: u) = false) (hx : x.head? ≠ some '*')
    (h : next? fresh (c :: u ++ x) = some (e, g, rest)) :
    (∃ v, v <:+ u ∧ endsInSet v = false ∧ rest = v ++ x) ∨
      (c :: u = ['*', '*'] ∧ g = true ∧ x = '/' :: rest) := by
  by_cases hbracket : c = '['
  · subst hbracket
    obtain ⟨set, v, hread, hv⟩ := exists_readSet? hclosed
    have hnext : next? fresh ('[' :: u ++ x) = some (set, false, v ++ x) := by
      show (readSet? (u ++ x)).map _ = _
      rw [readSet?_append hread]
      rfl
    cases hnext.symm.trans h
    exact .inl ⟨v, readSet?_suffix hread, hv, rfl⟩
  · rw [endsInSet_cons hbracket] at hclosed
    by_cases hstar : c = '*'
    · subst hstar
      exact (next?_star_append hclosed hx h).imp_right fun ⟨hu, hrest⟩ => ⟨by rw [hu], hrest⟩
    · have hread : ∃ d, next? fresh (c :: (u ++ x)) = some (d, decide (c = '/'), u ++ x) := by
        by_cases hany : c = '?'
        · subst hany
          exact ⟨.anyChar, rfl⟩
        · have hplain : isWildcard c = false := by simp [isWildcard, hbracket, hstar, hany]
          exact ⟨.char c, next?_plain hplain fresh _⟩
      obtain ⟨d, hread⟩ := hread
      cases hread.symm.trans h
      exact .inl ⟨u, List.suffix_rfl, hclosed, rfl⟩

/-- A pattern that is put together is read piece by piece, except that a `**` takes the slash after it
along. -/
theorem parseFrom?_append {u x : Text} (hclosed : endsInSet u = false) (hx : x.head? ≠ some '*')
    {fresh : Bool} {p : Pattern} (h : parseFrom? fresh (u ++ x) = some p) :
    ∃ before after, p = before ++ after ∧
      ((∃ g, parseFrom? g x = some after) ∨
        ['*', '*'] <:+ u ∧ ∃ rest, x = '/' :: rest ∧ parseFrom? true rest = some after) := by
  induction hlen : u.length using Nat.strong_induction_on generalizing u fresh p with
  | _ n ih =>
      rcases u with _ | ⟨c, u⟩
      · exact ⟨[], p, rfl, .inl ⟨fresh, h⟩⟩
      · rw [parseFrom?_eq_next? fresh (by simp), Option.bind_eq_some_iff] at h
        obtain ⟨⟨e, g, rest⟩, hnext, hrest⟩ := h
        obtain ⟨q, hq, rfl⟩ := Option.map_eq_some_iff.1 hrest
        rcases next?_append hclosed hx hnext with ⟨v, hsuffix, hv, rfl⟩ | ⟨hu, rfl, rfl⟩
        · have hlt : v.length < n := by
            have hle := hsuffix.length_le
            rw [← hlen, List.length_cons]
            omega
          obtain ⟨before, after, rfl, hafter⟩ := ih v.length hlt hv hq rfl
          refine ⟨e :: before, after, rfl, hafter.imp_right ?_⟩
          exact fun hstar => ⟨(hstar.1.trans hsuffix).trans (List.suffix_cons c u), hstar.2⟩
        · exact ⟨[e], q, rfl, .inr ⟨hu ▸ List.suffix_rfl, rest, rfl, hq⟩⟩

/-! ## Accepting -/

theorem suffix_of_mem_endings {α : Type} {r l : List α} (h : r ∈ endings l) : r <:+ l := by
  induction l with
  | nil =>
      have hr : r = [] := List.mem_singleton.1 h
      exact hr ▸ List.suffix_rfl
  | cons a l ih =>
      rcases List.mem_cons.1 h with rfl | h
      · exact List.suffix_rfl
      · exact (ih h).trans (List.suffix_cons a l)

theorem suffix_of_mem_afterSlashes {r t : Text} (h : r ∈ afterSlashes t) : r <:+ t := by
  induction t with
  | nil =>
      have hr : r = [] := List.mem_singleton.1 h
      exact hr ▸ List.suffix_rfl
  | cons c t ih =>
      rw [afterSlashes] at h
      split at h
      · rcases List.mem_cons.1 h with rfl | h
        · exact List.suffix_cons c r
        · exact (ih h).trans (List.suffix_cons c t)
      · exact (ih h).trans (List.suffix_cons c t)

/-- What the first element leaves of a text is an end of it. -/
theorem exists_suffix_of_accepts_cons {e : Element} {p : Pattern} {s : Text}
    (h : accepts (e :: p) s = true) : ∃ r, r <:+ s ∧ accepts p r = true := by
  unfold accepts at h
  split at h
  · rename_i heq
    cases heq
  · rename_i heq
    cases heq
    obtain ⟨r, hr, hp⟩ := List.any_eq_true.1 h
    exact ⟨r, suffix_of_mem_endings hr, hp⟩
  · rename_i heq
    cases heq
    obtain ⟨r, hr, hp⟩ := List.any_eq_true.1 h
    rcases List.mem_cons.1 hr with rfl | hr
    · exact ⟨r, List.suffix_rfl, hp⟩
    · exact ⟨r, suffix_of_mem_afterSlashes hr, hp⟩
  · cases h
  · rename_i c t _ _ heq
    cases heq
    exact ⟨t, List.suffix_cons c t, (Bool.and_eq_true_iff.1 h).2⟩

/-- The last pieces of a pattern stand for the end of the text. -/
theorem exists_suffix_of_accepts_append {p q : Pattern} {s : Text}
    (h : accepts (p ++ q) s = true) : ∃ r, r <:+ s ∧ accepts q r = true := by
  induction p generalizing s with
  | nil => exact ⟨s, List.suffix_rfl, h⟩
  | cons e p ih =>
      obtain ⟨t, ht, hp⟩ := exists_suffix_of_accepts_cons h
      obtain ⟨r, hr, hq⟩ := ih hp
      exact ⟨r, hr.trans ht, hq⟩

/-! ## Escaped texts -/

/-- The element that stands for one character alone, as it is read once it is escaped. -/
def Element.only (c : Char) : Element := if isMeta c then .oneOf [(c, c)] else .char c

theorem readSet?_only {c : Char} (h : isMeta c = true) (x : Text) :
    readSet? (c :: ']' :: x) = some (.oneOf [(c, c)], x) := by
  have hset : splitSet? (c :: ']' :: x) = some ([c], x) :=
    splitSet?_eq_some_iff.2 ⟨c, [], rfl, rfl, List.not_mem_nil⟩
  unfold readSet?
  split
  · rename_i heq
    rw [(List.cons.inj heq).1] at h
    cases h
  · rw [hset]
    rfl

/-- Whether a pattern is fresh after a text. -/
def freshAfter : Bool → Text → Bool
  | fresh, [] => fresh
  | _, c :: t => freshAfter (c = '/') t

theorem parseFrom?_escapeChar_append (fresh : Bool) (c : Char) (x : Text) :
    parseFrom? fresh (escapeChar c ++ x) =
      (parseFrom? (c = '/') x).map (Element.only c :: ·) := by
  rw [escapeChar, Element.only]
  by_cases hmeta : isMeta c = true
  · have hslash : c ≠ '/' := by
      rintro rfl
      cases hmeta
    have hnext : next? fresh ('[' :: c :: ']' :: x) = some (.oneOf [(c, c)], false, x) := by
      show (readSet? (c :: ']' :: x)).map _ = _
      rw [readSet?_only hmeta]
      rfl
    simp only [if_pos hmeta, List.cons_append, List.nil_append, decide_eq_false hslash]
    rw [parseFrom?_eq_next? fresh (by simp), hnext]
    rfl
  · have hplain : isWildcard c = false := by
      rw [isMeta, Bool.or_eq_true, not_or, Bool.not_eq_true] at hmeta
      exact hmeta.1
    simp only [if_neg hmeta, List.singleton_append]
    rw [parseFrom?_eq_next? fresh (by simp), next?_plain hplain]
    rfl

theorem escape_cons (c : Char) (t : Text) : escape (c :: t) = escapeChar c ++ escape t :=
  List.flatMap_cons

/-- An escaped text is read as the characters that it is made of. -/
theorem parseFrom?_escape_append (fresh : Bool) (t x : Text) :
    parseFrom? fresh (escape t ++ x) =
      (parseFrom? (freshAfter fresh t) x).map (t.map Element.only ++ ·) := by
  induction t generalizing fresh with
  | nil => exact Option.map_id'.symm
  | cons c t ih =>
      rw [escape_cons, List.append_assoc, parseFrom?_escapeChar_append, ih, Option.map_map]
      rfl

theorem accepts_only_cons {c : Char} {p : Pattern} {s : Text} :
    accepts (Element.only c :: p) s = true ↔ ∃ r, s = c :: r ∧ accepts p r = true := by
  have hone (d : Char) : inRanges [(c, c)] d = true ↔ d = c := by
    simp only [inRanges, List.any_cons, List.any_nil, Bool.or_false, Bool.and_eq_true,
      decide_eq_true_eq]
    exact ⟨fun h => Char.le_antisymm h.2 h.1, fun h => h ▸ ⟨Char.le_refl d, Char.le_refl d⟩⟩
  cases s with
  | nil =>
      rw [Element.only]
      split <;> simp [accepts]
  | cons d s =>
      have hstep : accepts (Element.only c :: p) (d :: s) = true ↔ d = c ∧ accepts p s = true := by
        rw [Element.only]
        split
        · rw [accepts, Bool.and_eq_true, Element.accepts, hone]
          all_goals nofun
        · rw [accepts, Bool.and_eq_true, Element.accepts, decide_eq_true_eq]
          all_goals nofun
      rw [hstep]
      constructor
      · rintro ⟨rfl, hs⟩
        exact ⟨s, rfl, hs⟩
      · rintro ⟨r, hr, hs⟩
        cases hr
        exact ⟨rfl, hs⟩

/-- Escaped characters stand for themselves, one after the other. -/
theorem accepts_only_append {t : Text} {p : Pattern} {s : Text} :
    accepts (t.map Element.only ++ p) s = true ↔ ∃ r, s = t ++ r ∧ accepts p r = true := by
  induction t generalizing s with
  | nil => simp
  | cons c t ih =>
      rw [List.map_cons, List.cons_append, accepts_only_cons]
      constructor
      · rintro ⟨r, rfl, hr⟩
        obtain ⟨q, rfl, hq⟩ := ih.1 hr
        exact ⟨q, rfl, hq⟩
      · rintro ⟨r, rfl, hr⟩
        exact ⟨t ++ r, rfl, ih.2 ⟨r, rfl, hr⟩⟩

/-- An escaped text is a pattern for itself and for nothing else. -/
theorem accepts_escape (t : Text) :
    ∃ p, parse? (escape t) = some p ∧ ∀ s, accepts p s = true ↔ s = t := by
  refine ⟨t.map Element.only, ?_, ?_⟩
  · have h := parseFrom?_escape_append true t []
    rwa [List.append_nil, parseFrom?, Option.map_some, List.append_nil] at h
  · intro s
    have h : accepts (t.map Element.only ++ []) s = true ↔ _ := accepts_only_append
    rw [List.append_nil] at h
    rw [h]
    simp [accepts]

/-- An escaped text does not end within a bracket. -/
theorem endsInSet_escape (t : Text) : endsInSet (escape t) = false := by
  induction t with
  | nil => exact endsInSet_nil
  | cons c t ih =>
      rw [escape_cons, escapeChar]
      by_cases hmeta : isMeta c = true
      · rw [if_pos hmeta]
        exact (endsInSet_bracket (readSet?_only hmeta _)).trans ih
      · have hbracket : c ≠ '[' := by
          rintro rfl
          exact hmeta rfl
        rw [if_neg hmeta]
        exact (endsInSet_cons hbracket _).trans ih

/-! ## Where an escaped text begins -/

theorem head?_escape_append {t : Text} (h : t ≠ []) (x : Text) :
    (escape t ++ x).head? ≠ some '*' := by
  cases t with
  | nil => exact absurd rfl h
  | cons c t =>
      rw [escape_cons, escapeChar]
      split
      · exact fun hhead => absurd (Option.some.inj hhead) (by decide)
      · rename_i hmeta
        intro hhead
        have hc : c = '*' := Option.some.inj hhead
        exact hmeta (hc ▸ rfl)

/-- A slash at the beginning of an escaped text is a slash at the beginning of the text. -/
theorem exists_tail_of_escape_append {t x rest : Text} (h : t ≠ [])
    (hslash : escape t ++ x = '/' :: rest) : ∃ u, t = '/' :: u ∧ rest = escape u ++ x := by
  cases t with
  | nil => exact absurd rfl h
  | cons c t =>
      rw [escape_cons, escapeChar] at hslash
      split at hslash
      · exact absurd (List.cons.inj hslash).1 (by decide)
      · obtain ⟨rfl, rfl⟩ : c = '/' ∧ escape t ++ x = rest := List.cons.inj hslash
        exact ⟨t, rfl, rfl⟩

end PrefixShell.Glob
