import PrefixShell.Proofs.Command.Asking
import PrefixShell.Proofs.Glob.Splicing

/-!
# The values of variables in a pattern

The pattern of a word has the values of its variables in it, escaped, so that only what was typed is a
wildcard.  Whatever text the pattern stands for has the values in it, one after the other, as long as
each of them stands where an escaped text stands for itself.

There are two places where it does not.  Within a bracket that was typed before the variable, the value
is taken for characters of the set.  And behind a `**` its first character, if that is a slash, is taken
for the end of the directories, which may be missing.

## Main results

* `inOrder_keptFrom`: what values keep of themselves is in every text that the pattern stands for.
* `keptFrom_eq_values`: values keep all of themselves where none stands in one of those two places.
* `inOrder_values_of_accepts`: which values are in a text that the pattern of a word stands for.
-/

namespace PrefixShell

/-- Whether texts occur in a text one after the other, without overlap. -/
def Text.InOrder : List Text → Text → Prop
  | [], _ => True
  | v :: vs, s => ∃ before after, s = before ++ v ++ after ∧ InOrder vs after

namespace Expansion

variable (e : Expansion)

/-- The values of the variables of a word. -/
def values (w : Word) : List Text :=
  (w.filter (·.kind = .variable)).map fun t => e.value t.literal

theorem values_cons (t : Token) (w : Word) :
    e.values (t :: w) =
      (if t.kind = .variable then [e.value t.literal] else []) ++ e.values w := by
  rw [values, List.filter_cons]
  by_cases hkind : t.kind = .variable <;> simp [hkind, values]

/-- Whether a slash at the beginning of a value is taken along by the pattern before it. -/
def losesSlash (before value : Text) : Bool :=
  ['*', '*'].isSuffixOf before && value.head? = some '/'

/-- What the value of a variable keeps of itself in the texts that a pattern stands for, given the
pattern before it. -/
def kept (before value : Text) : List Text :=
  if Glob.endsInSet before then []
  else if losesSlash before value then [value.tail]
  else [value]

/-- The pattern of the rest of a word, or of a whole word if it is leading. -/
def patternFrom (leading : Bool) : Word → Text
  | [] => []
  | t :: w => e.patternPiece leading t ++ patternFrom false w

/-- What the values of the variables of a word keep of themselves, given the pattern before it. -/
def keptFrom (before : Text) (leading : Bool) : Word → List Text
  | [] => []
  | t :: w =>
    (if t.kind = .variable then kept before (e.value t.literal) else []) ++
      keptFrom (before ++ e.patternPiece leading t) false w

def keptValues (w : Word) : List Text := e.keptFrom [] true w

theorem pattern_eq (w : Word) : e.pattern w = e.patternFrom true w := by
  have hfrom (w : Word) : w.flatMap (e.patternPiece false) = e.patternFrom false w := by
    induction w with
    | nil => rfl
    | cons t w ih => exact congrArg (e.patternPiece false t ++ ·) ih
  cases w with
  | nil => rfl
  | cons t w => exact congrArg (e.patternPiece true t ++ ·) (hfrom w)

theorem patternPiece_variable {t : Token} (h : t.kind = .variable) (leading : Bool) :
    e.patternPiece leading t = Glob.escape (e.value t.literal) :=
  if_pos h

end Expansion

namespace Text

theorem InOrder.of_suffix {vs : List Text} {r s : Text} (h : InOrder vs r) (hr : r <:+ s) :
    InOrder vs s := by
  cases vs with
  | nil => trivial
  | cons v vs =>
      obtain ⟨front, rfl⟩ := hr
      obtain ⟨before, after, rfl, hvs⟩ := h
      exact ⟨front ++ before, after, by simp, hvs⟩

theorem InOrder.cons_of_suffix {v w : Text} {vs : List Text} {r : Text} (h : InOrder vs r)
    (hv : v <:+ w) : InOrder (v :: vs) (w ++ r) := by
  obtain ⟨front, rfl⟩ := hv
  exact ⟨front, r, rfl, h⟩

end Text

namespace Expansion

open Text (InOrder)

variable (e : Expansion)

/-- Outside a bracket a value keeps all of itself, but perhaps a slash. -/
theorem exists_kept {before : Text} (h : Glob.endsInSet before = false) (value : Text) :
    ∃ v, kept before value = [v] ∧ v <:+ value := by
  rw [kept, h]
  by_cases hslash : losesSlash before value = true
  · exact ⟨value.tail, if_pos hslash, List.tail_suffix value⟩
  · exact ⟨value, if_neg hslash, List.suffix_rfl⟩

theorem kept_of_doubleStar {before v : Text} (h : Glob.endsInSet before = false)
    (hstar : ['*', '*'] <:+ before) : kept before ('/' :: v) = [v] := by
  have hslash : losesSlash before ('/' :: v) = true := by
    rw [losesSlash, List.isSuffixOf_iff_suffix.2 hstar]
    rfl
  rw [kept, h, hslash]
  rfl

/-- A value that is put behind a pattern is read by itself, and what it keeps is in the text. -/
theorem exists_rest_of_accepts {read value x : Text} (hread : Glob.endsInSet read = false)
    (hvalue : value ≠ []) {fresh : Bool} {p : Glob.Pattern} {s : Text}
    (hp : Glob.parseFrom? fresh (read ++ (Glob.escape value ++ x)) = some p)
    (hs : Glob.accepts p s = true) :
    ∃ g q v r, Glob.parseFrom? g x = some q ∧ Glob.accepts q r = true ∧ v ++ r <:+ s ∧
      (v = value ∨ ['*', '*'] <:+ read ∧ value = '/' :: v) := by
  have hstar := Glob.head?_escape_append hvalue x
  obtain ⟨before, after, rfl, hafter⟩ := Glob.parseFrom?_append hread hstar hp
  obtain ⟨left, hleft, haccepts⟩ := Glob.exists_suffix_of_accepts_append hs
  rcases hafter with ⟨g, hg⟩ | ⟨hdouble, rest, hslash, hrest⟩
  · rw [Glob.parseFrom?_escape_append] at hg
    obtain ⟨q, hq, rfl⟩ := Option.map_eq_some_iff.1 hg
    obtain ⟨r, rfl, hr⟩ := Glob.accepts_only_append.1 haccepts
    exact ⟨_, q, value, r, hq, hr, hleft, .inl rfl⟩
  · obtain ⟨v, rfl, rfl⟩ := Glob.exists_tail_of_escape_append hvalue hslash
    rw [Glob.parseFrom?_escape_append] at hrest
    obtain ⟨q, hq, rfl⟩ := Option.map_eq_some_iff.1 hrest
    obtain ⟨r, rfl, hr⟩ := Glob.accepts_only_append.1 haccepts
    exact ⟨_, q, v, r, hq, hr, hleft, .inr ⟨hdouble, rfl⟩⟩

/-- What a value keeps is in the text, and what is in any rest of the text comes after it. -/
theorem inOrder_kept_append {past read value x : Text} (hpast : Glob.endsInSet past = false)
    (hclosed : Glob.endsInSet (past ++ read) = false) (hvalue : value ≠ []) {fresh : Bool}
    {p : Glob.Pattern} {s : Text} {vs : List Text}
    (hp : Glob.parseFrom? fresh (read ++ (Glob.escape value ++ x)) = some p)
    (hs : Glob.accepts p s = true)
    (hvs : ∀ g q r, Glob.parseFrom? g x = some q → Glob.accepts q r = true → InOrder vs r) :
    InOrder (kept (past ++ read) value ++ vs) s := by
  have hread : Glob.endsInSet read = false := by
    rwa [Glob.endsInSet_append hpast] at hclosed
  obtain ⟨v, hv, hsuffix⟩ := exists_kept hclosed value
  obtain ⟨g, q, u, r, hq, hr, hleft, hcases⟩ := exists_rest_of_accepts hread hvalue hp hs
  have hvu : v <:+ u := by
    rcases hcases with rfl | ⟨hdouble, rfl⟩
    · exact hsuffix
    · rw [kept_of_doubleStar hclosed (hdouble.trans (List.suffix_append past read))] at hv
      exact (List.cons.inj hv).1 ▸ List.suffix_rfl
  rw [hv]
  exact ((hvs g q r hq hr).cons_of_suffix hvu).of_suffix hleft

/-- What values keep of themselves is in every text that the pattern stands for.  Of the pattern before
the word, `past` is what has been left behind with the last value, and `read` what came after it. -/
theorem inOrder_keptFrom {w : Word} {leading fresh : Bool} {past read : Text} {p : Glob.Pattern}
    {s : Text} (hpast : Glob.endsInSet past = false)
    (hp : Glob.parseFrom? fresh (read ++ e.patternFrom leading w) = some p)
    (hs : Glob.accepts p s = true) : InOrder (e.keptFrom (past ++ read) leading w) s := by
  induction w generalizing leading fresh past read p s with
  | nil => trivial
  | cons t w ih =>
      -- Unless it leaves something behind, a piece goes with what has been read.
      have hgoes : InOrder (e.keptFrom (past ++ read ++ e.patternPiece leading t) false w) s := by
        have hpiece : Glob.parseFrom? fresh
            (read ++ e.patternPiece leading t ++ e.patternFrom false w) = some p := by
          rwa [List.append_assoc]
        rw [List.append_assoc]
        exact ih hpast hpiece hs
      rw [keptFrom]
      by_cases hkind : t.kind = .variable
      · rw [if_pos hkind]
        cases hclosed : Glob.endsInSet (past ++ read) with
        | true =>
            have hnothing : kept (past ++ read) (e.value t.literal) = [] := if_pos hclosed
            rw [hnothing]
            exact hgoes
        | false =>
            rw [patternFrom] at hp
            rw [e.patternPiece_variable hkind] at hp hgoes ⊢
            by_cases hvalue : e.value t.literal = []
            · obtain ⟨v, hv, hsuffix⟩ := exists_kept hclosed (e.value t.literal)
              rw [hvalue] at hsuffix
              rw [hv, List.suffix_nil.1 hsuffix]
              exact ⟨[], s, rfl, hgoes⟩
            · refine inOrder_kept_append hpast hclosed hvalue hp hs ?_
              intro g q r hq hr
              have hafter : Glob.endsInSet
                  (past ++ read ++ Glob.escape (e.value t.literal)) = false := by
                rw [Glob.endsInSet_append hclosed, Glob.endsInSet_escape]
              have hrest : Glob.parseFrom? g ([] ++ e.patternFrom false w) = some q := hq
              have h := ih hafter hrest hr
              rwa [List.append_nil] at h
      · rw [if_neg hkind]
        exact hgoes

/-! ## Words -/

/-- Whether the value of a variable stands for itself behind the first part of a word. -/
def StandsAlone (before : Word) (t : Token) : Prop :=
  Glob.endsInSet (e.pattern before) = false ∧
    ¬(['*', '*'] <:+ e.pattern before ∧ (e.value t.literal).head? = some '/')

/-- Values that stand for themselves keep all of themselves. -/
theorem keptFrom_eq_values {w : Word} {past : Text} {leading : Bool}
    (h : ∀ before t after, w = before ++ t :: after → t.kind = .variable →
      kept (past ++ e.patternFrom leading before) (e.value t.literal) = [e.value t.literal]) :
    e.keptFrom past leading w = e.values w := by
  induction w generalizing past leading with
  | nil => rfl
  | cons t w ih =>
      have hrest : e.keptFrom (past ++ e.patternPiece leading t) false w = e.values w := by
        refine ih ?_
        rintro before u after rfl hkind
        have hu := h (t :: before) u after rfl hkind
        rwa [patternFrom, ← List.append_assoc] at hu
      rw [keptFrom, hrest, e.values_cons]
      by_cases hkind : t.kind = .variable
      · have ht := h [] t w rfl hkind
        rw [patternFrom, List.append_nil] at ht
        rw [if_pos hkind, if_pos hkind, ht]
      · rw [if_neg hkind, if_neg hkind]

theorem kept_of_standsAlone {before : Word} {t : Token} (h : e.StandsAlone before t) :
    kept (e.pattern before) (e.value t.literal) = [e.value t.literal] := by
  have hslash : ¬losesSlash (e.pattern before) (e.value t.literal) = true := by
    rw [losesSlash, Bool.and_eq_true, List.isSuffixOf_iff_suffix, decide_eq_true_eq]
    exact h.2
  rw [kept, h.1, if_neg hslash]
  rfl

/-- Every text that the pattern of a word stands for has in it what the values of the variables keep of
themselves, so all values if each stands for itself. -/
theorem inOrder_values_of_accepts {w : Word} {p : Glob.Pattern} {s : Text}
    (hp : Glob.parse? (e.pattern w) = some p) (hs : Glob.accepts p s = true) :
    InOrder (e.keptValues w) s ∧
      ((∀ before t after, w = before ++ t :: after → t.kind = .variable → e.StandsAlone before t) →
        InOrder (e.values w) s) := by
  have hkept : InOrder (e.keptValues w) s := by
    rw [e.pattern_eq] at hp
    exact e.inOrder_keptFrom Glob.endsInSet_nil hp hs
  refine ⟨hkept, ?_⟩
  intro halone
  have hall : e.keptValues w = e.values w := by
    refine e.keptFrom_eq_values ?_
    intro before t after hw hkind
    rw [List.nil_append, ← e.pattern_eq]
    exact e.kept_of_standsAlone (halone before t after hw hkind)
  rwa [hall] at hkept

/-- The variables have a value that has a meaning of its own within a bracket. -/
def negating : Expansion := ⟨fun _ => some ['!', 'a'], [], true⟩

theorem inOrder_values_of_two : ∃ w p,
    Command.argumentWords "ls *$X?[$X]$X".toList = [w] ∧
      Glob.parse? (negating.pattern w) = some p ∧ Glob.accepts p "z!aqb!a".toList = true ∧
      negating.keptValues w = ["!a".toList, "!a".toList] ∧
      InOrder (negating.keptValues w) "z!aqb!a".toList := by
  obtain ⟨w, hw, hkept, hpattern⟩ : ∃ w, Command.argumentWords "ls *$X?[$X]$X".toList = [w] ∧
      negating.keptValues w = ["!a".toList, "!a".toList] ∧
        negating.pattern w = "*!a?[!a]!a".toList :=
    ⟨_, by cbv, by cbv, by cbv⟩
  obtain ⟨p, hp, hs⟩ : ∃ p, Glob.parse? "*!a?[!a]!a".toList = some p ∧
      Glob.accepts p "z!aqb!a".toList = true :=
    ⟨_, by cbv, by cbv⟩
  rw [← hpattern] at hp
  exact ⟨w, p, hw, hp, hs, hkept, (negating.inOrder_values_of_accepts hp hs).1⟩

/-- Within a bracket a value is taken for characters of the set. -/
theorem not_inOrder_values_of_bracket : ∃ w p,
    Command.argumentWords "ls [$X]".toList = [w] ∧ w.Wild ∧
      Glob.parse? (negating.pattern w) = some p ∧ Glob.accepts p ['b'] = true ∧
      ¬InOrder (negating.values w) ['b'] := by
  obtain ⟨w, hw, hvalues, hpattern, hwild⟩ : ∃ w,
      Command.argumentWords "ls [$X]".toList = [w] ∧ negating.values w = [['!', 'a']] ∧
        negating.pattern w = "[!a]".toList ∧ (!w.isQuoted && w.hasTypedWildcard) = true :=
    ⟨_, by cbv, by cbv, by cbv, by cbv⟩
  obtain ⟨p, hp, hs⟩ : ∃ p, Glob.parse? "[!a]".toList = some p ∧ Glob.accepts p ['b'] = true :=
    ⟨_, by cbv, by cbv⟩
  refine ⟨w, p, hw, Word.wild_iff.1 hwild, by rwa [hpattern], hs, ?_⟩
  rw [hvalues]
  rintro ⟨before, after, hb, -⟩
  have hlength := congrArg List.length hb
  simp only [List.length_append, List.length_cons, List.length_nil] at hlength
  omega

end Expansion

end PrefixShell
