import PrefixShell.Proofs.Token.Unclosed

/-!
# What a lexeme depends on

A lexeme is read from its own characters and at most one more, the one after it, which tells that a
run goes no further.  A quotation is closed by its last character and asks for nothing.  So a lexeme
that is not a fault is read again from its text, wherever this stands, if what follows stops the same
runs (`StopsAs`).  So it does if it begins alike: with the same character, or with any break where
there was a break.

Blanks are read again only before what is not blank.  Two runs of them become one when they meet.

## Main results

* `ofDollar_cases`, `ofDash_cases`: what a text looks like behind a `$` and behind a `-`.
* `first_resume`: a lexeme is read again from its text, before whatever stops it.
* `first_append`, `ofText_append`: a text that begins with a break does not change what stands before
  it.
-/

namespace PrefixShell

/-! ## Breaks -/

namespace Text

/-- The text is empty, or begins with a blank or a line break. -/
def Breaks (t : Text) : Prop := ∀ c ∈ t.head?, Lexeme.isBlank c = true ∨ c = '\n'

/-- Two texts that a lexeme cannot tell apart when they follow it. -/
def BeginAlike (s t : Text) : Prop := s.head? = t.head? ∨ s.Breaks ∧ t.Breaks

variable {belongs : Char → Bool} {s t : Text}

theorem breaks_nil : Breaks [] := by
  intro c hc
  cases hc

theorem breaks_cons_iff {c : Char} : Breaks (c :: t) ↔ Lexeme.isBlank c = true ∨ c = '\n' := by
  simp [Breaks]

theorem Breaks.stops (h : t.Breaks) (hspace : belongs ' ' = false) (htab : belongs '\t' = false)
    (hnewline : belongs '\n' = false) : t.Stops belongs := by
  intro c hc
  rcases h c hc with hblank | rfl
  · simp only [Lexeme.isBlank, Bool.or_eq_true, decide_eq_true_eq] at hblank
    rcases hblank with rfl | rfl
    · exact hspace
    · exact htab
  · exact hnewline

theorem BeginAlike.breaks_iff (h : s.BeginAlike t) : s.Breaks ↔ t.Breaks := by
  rcases h with hhead | ⟨hs, ht⟩
  · rw [Breaks, Breaks, hhead]
  · exact iff_of_true hs ht

/-- Whatever stops before `s`, of the runs that do not go on over blanks and line breaks, stops before
`t` as well. -/
def StopsAs (s t : Text) : Prop :=
  ∀ ⦃belongs : Char → Bool⦄, belongs ' ' = false → belongs '\t' = false → belongs '\n' = false →
    s.Stops belongs → t.Stops belongs

theorem BeginAlike.stopsAs (h : s.BeginAlike t) : s.StopsAs t := by
  intro belongs hspace htab hnewline hs
  rcases h with hhead | ⟨-, ht⟩
  · rwa [Stops, ← hhead]
  · exact ht.stops hspace htab hnewline

/-- What follows a break in either text does not matter to how it begins. -/
theorem beginAlike_append (s : Text) (h : s ≠ [] ∨ t.Breaks) : s.BeginAlike (s ++ t) := by
  cases s with
  | nil => exact .inr ⟨breaks_nil, h.resolve_left fun hne => hne rfl⟩
  | cons c s => exact .inl rfl

/-- What is left behind a run stops it. -/
theorem stops_dropWhile (belongs : Char → Bool) (t : Text) : Stops belongs (t.dropWhile belongs) := by
  intro c hc
  have hends := List.head?_dropWhile_not belongs t
  rw [hc] at hends
  simpa using hends

/-- Every text is a run, perhaps an empty one, before something that stops it. -/
theorem exists_run (belongs : Char → Bool) (t : Text) :
    ∃ s r, t = s ++ r ∧ (∀ c ∈ s, belongs c = true) ∧ Stops belongs r := by
  refine ⟨t.takeWhile belongs, t.dropWhile belongs, List.takeWhile_append_dropWhile.symm, ?_,
    stops_dropWhile belongs t⟩
  intro c hc
  exact List.mem_takeWhile_imp hc

end Text

namespace Lexeme

/-! ## Closed quotations -/

/-- A closed `"` quotation is read again from its characters, whatever follows them. -/
theorem doubleQuoted_resume {t : Text} (h : (doubleQuoted t).closed = true) (r : Text) :
    doubleQuoted ((doubleQuoted t).raw ++ r) = { doubleQuoted t with rest := r } := by
  have hclosable : Closable t := by
    by_contra hopen
    rw [doubleQuoted_of_not_closable hopen] at h
    cases h
  obtain ⟨inner, rest, hclosed⟩ := exists_closedBy hclosable
  rw [doubleQuoted_of_closedBy hclosed, List.append_assoc]
  exact doubleQuoted_of_closedBy ⟨rfl, hclosed.even, hclosed.first⟩

theorem singleQuoted_resume {t : Text} (h : (singleQuoted t).closed = true) (r : Text) :
    singleQuoted ((singleQuoted t).raw ++ r) = { singleQuoted t with rest := r } := by
  fun_induction singleQuoted t with
  | case1 => cases h
  | case2 rest => rfl
  | case3 c rest hc ih =>
      show singleQuoted (c :: ((singleQuoted rest).raw ++ r)) = _
      rw [singleQuoted, if_neg hc, ih h]
      rfl

/-- A quotation that is not a fault is read again from its text. -/
theorem ofBody_resume {quote : Quote} {opening : Char} {body : Text → Body} {t s r : Text}
    (hbody : (body t).closed = true → body ((body t).raw ++ r) = { body t with rest := r })
    (hfault : (ofBody quote opening (body t)).lexeme.kind ≠ .fault .unterminatedString)
    (hraw : (ofBody quote opening (body t)).lexeme.raw = opening :: s) :
    ofBody quote opening (body (s ++ r)) = ⟨(ofBody quote opening (body t)).lexeme, r⟩ := by
  have hclosed : (body t).closed = true := by
    cases h : (body t).closed with
    | true => rfl
    | false => exact absurd (by simp [ofBody, h]) hfault
  have hs : (body t).raw = s := (List.cons.inj hraw).2
  rw [← hs, hbody hclosed]
  rfl

/-! ## Behind a `$` -/

/-- A name in braces. -/
theorem ofDollar_braced {name : Text} (h : '}' ∉ name) (r : Text) :
    ofDollar ('{' :: (name ++ '}' :: r)) =
      ⟨⟨.variable, '$' :: '{' :: (name ++ ['}']), name⟩, r⟩ := by
  have hname : ∀ c ∈ name, decide (c ≠ '}') = true := by
    intro c hc
    refine decide_eq_true ?_
    rintro rfl
    exact h hc
  have hstops : Text.Stops (fun c => decide (c ≠ '}')) ('}' :: r) := .cons (by decide) r
  rw [ofDollar, hstops.takeWhile_append hname, hstops.dropWhile_append hname]

/-- A bare name. -/
theorem ofDollar_named {c : Char} {name r : Text} (hname : ∀ d ∈ c :: name, isNameChar d = true)
    (hr : r.Stops isNameChar) :
    ofDollar (c :: name ++ r) = ⟨⟨.variable, '$' :: c :: name, c :: name⟩, r⟩ := by
  have htake := hr.takeWhile_append hname
  have hdrop := hr.dropWhile_append hname
  have hbrace : c ≠ '{' := by
    rintro rfl
    exact absurd (hname '{' List.mem_cons_self) (by decide)
  unfold ofDollar
  split
  · rename_i heq
    exact absurd (List.cons.inj heq).1 hbrace
  · rw [htake, hdrop]

/-- Neither of the two. -/
theorem ofDollar_lone {r : Text} (hbrace : r.Stops (· = '{')) (hr : r.Stops isNameChar) :
    ofDollar r = ⟨⟨.word, ['$'], ['$']⟩, r⟩ := by
  unfold ofDollar
  split
  · exact absurd (hbrace '{' rfl) (by decide)
  · rw [hr.takeWhile_eq_nil]

/-- What a text looks like behind a `$`. -/
theorem ofDollar_cases (t : Text) :
    (ofDollar t).lexeme.kind = .fault .unterminatedVariable ∨
    (∃ name r, '}' ∉ name ∧ t = '{' :: (name ++ '}' :: r)) ∨
    (∃ c name, ∃ r : Text, (∀ d ∈ c :: name, isNameChar d = true) ∧ r.Stops isNameChar ∧
      t = c :: name ++ r) ∨
    t.Stops (· = '{') ∧ t.Stops isNameChar := by
  by_cases hbrace : t.head? = some '{'
  · obtain ⟨t, rfl⟩ := List.head?_eq_some_iff.1 hbrace
    by_cases hclosed : '}' ∈ t
    · obtain ⟨name, r, rfl, hname⟩ := List.eq_append_cons_of_mem hclosed
      exact .inr (.inl ⟨name, r, hname, rfl⟩)
    · exact .inl (ofDollar_kind_eq_fault_iff.2 (.brace hclosed))
  · obtain ⟨s, r, rfl, hs, hr⟩ := Text.exists_run isNameChar t
    cases s with
    | cons c name => exact .inr (.inr (.inl ⟨c, name, r, hs, hr, rfl⟩))
    | nil =>
        refine .inr (.inr (.inr ⟨?_, hr⟩))
        intro c hc
        refine decide_eq_false ?_
        rintro rfl
        exact hbrace hc

theorem ofDollar_resume {t s r : Text} (hfault : ∀ cause, (ofDollar t).lexeme.kind ≠ .fault cause)
    (hraw : (ofDollar t).lexeme.raw = '$' :: s) (hr : (ofDollar t).rest.StopsAs r) :
    ofDollar (s ++ r) = ⟨(ofDollar t).lexeme, r⟩ := by
  rcases ofDollar_cases t with
    hbad | ⟨name, r', hname, rfl⟩ | ⟨c, name, r', hname, hstops, rfl⟩ | ⟨hbrace, hstops⟩
  · exact absurd hbad (hfault _)
  · rw [ofDollar_braced hname] at hraw hr ⊢
    obtain rfl := (List.cons.inj hraw).2
    rw [List.cons_append, List.append_assoc]
    exact ofDollar_braced hname r
  · rw [ofDollar_named hname hstops] at hraw hr ⊢
    obtain rfl := (List.cons.inj hraw).2
    exact ofDollar_named hname (hr (by decide) (by decide) (by decide) hstops)
  · rw [ofDollar_lone hbrace hstops] at hraw hr ⊢
    obtain rfl := (List.cons.inj hraw).2
    exact ofDollar_lone (hr (by decide) (by decide) (by decide) hbrace)
      (hr (by decide) (by decide) (by decide) hstops)

/-! ## Behind a `-` -/

/-- Neither a long option nor a cluster of short ones. -/
theorem ofDash_nothing {r : Text} (hdash : r.Stops (· = '-')) (hr : r.Stops Text.isAlphanumeric) :
    ofDash r = ⟨⟨.word, ['-'], ['-']⟩, r⟩ := by
  unfold ofDash
  split
  · exact absurd (hdash '-' rfl) (by decide)
  · rw [hr.takeWhile_eq_nil]

/-- What a text looks like behind a `-`. -/
theorem ofDash_cases (t : Text) :
    (∃ name, ∃ r : Text, (∀ c ∈ name, isLongOptionChar c = true) ∧ r.Stops isLongOptionChar ∧
      t = '-' :: (name ++ r)) ∨
    (∃ c cluster, ∃ r : Text, (∀ d ∈ c :: cluster, Text.isAlphanumeric d = true) ∧
      r.Stops Text.isAlphanumeric ∧ t = c :: cluster ++ r) ∨
    t.Stops (· = '-') ∧ t.Stops Text.isAlphanumeric := by
  by_cases hdash : t.head? = some '-'
  · obtain ⟨t, rfl⟩ := List.head?_eq_some_iff.1 hdash
    obtain ⟨name, r, rfl, hname, hr⟩ := Text.exists_run isLongOptionChar t
    exact .inl ⟨name, r, hname, hr, rfl⟩
  · obtain ⟨s, r, rfl, hs, hr⟩ := Text.exists_run Text.isAlphanumeric t
    cases s with
    | cons c cluster => exact .inr (.inl ⟨c, cluster, r, hs, hr, rfl⟩)
    | nil =>
        refine .inr (.inr ⟨?_, hr⟩)
        intro c hc
        refine decide_eq_false ?_
        rintro rfl
        exact hdash hc

theorem ofDash_resume {t s r : Text} (hraw : (ofDash t).lexeme.raw = '-' :: s)
    (hr : (ofDash t).rest.StopsAs r) : ofDash (s ++ r) = ⟨(ofDash t).lexeme, r⟩ := by
  rcases ofDash_cases t with
    ⟨name, r', hname, hstops, rfl⟩ | ⟨c, cluster, r', hcluster, hstops, rfl⟩ | ⟨hdash, hstops⟩
  · rw [ofDash_long hname hstops] at hraw hr ⊢
    obtain rfl := (List.cons.inj hraw).2
    exact ofDash_long hname (hr (by decide) (by decide) (by decide) hstops)
  · rw [ofDash_cluster hcluster hstops] at hraw hr ⊢
    obtain rfl := (List.cons.inj hraw).2
    exact ofDash_cluster hcluster (hr (by decide) (by decide) (by decide) hstops)
  · rw [ofDash_nothing hdash hstops] at hraw hr ⊢
    obtain rfl := (List.cons.inj hraw).2
    exact ofDash_nothing (hr (by decide) (by decide) (by decide) hdash)
      (hr (by decide) (by decide) (by decide) hstops)

/-! ## Any lexeme -/

/-- Only a blank begins a blank lexeme. -/
theorem isBlank_of_kind {c : Char} {t : Text} (h : (first c t).lexeme.kind = .blank) :
    isBlank c = true := by
  rcases first_separates c t with ⟨hc, -⟩ | ⟨-, hkind⟩ | ⟨-, -, hsolid⟩
  · exact hc
  · rw [h] at hkind
    cases hkind
  · exact absurd h hsolid.1

/-- A blank lexeme is made of blanks. -/
theorem isBlank_of_mem_raw {c : Char} {t : Text} (h : (first c t).lexeme.kind = .blank) :
    ∀ d ∈ (first c t).lexeme.raw, isBlank d = true := by
  rw [first_blank (isBlank_of_kind h)]
  intro d hd
  exact List.mem_takeWhile_imp hd

/-- What follows a blank lexeme is not blank. -/
theorem stops_blank_of_kind {c : Char} {t : Text} (h : (first c t).lexeme.kind = .blank) :
    (first c t).rest.Stops isBlank := by
  rw [first_blank (isBlank_of_kind h)]
  exact Text.stops_dropWhile isBlank (c :: t)

/-- A run is read again from its text, before what stops it. -/
theorem run_resume {kind : TokenKind} {belongs : Char → Bool} {t s r : Text}
    (hraw : (run kind belongs t).lexeme.raw = s)
    (hr : (run kind belongs t).rest.Stops belongs → r.Stops belongs) :
    run kind belongs (s ++ r) = ⟨(run kind belongs t).lexeme, r⟩ := by
  obtain ⟨word, r', rfl, hword, hstops⟩ := Text.exists_run belongs t
  rw [run_append hword hstops] at hraw hr ⊢
  obtain rfl : word = s := hraw
  exact run_append hword (hr hstops)

/-- A lexeme that is not a fault is read again from its text, before whatever stops it.  Only blanks
are stopped by what is not blank. -/
theorem first_resume {c : Char} {t s r : Text}
    (hblank : (first c t).lexeme.kind = .blank → r.Stops isBlank)
    (hfault : ∀ cause, (first c t).lexeme.kind ≠ .fault cause)
    (hraw : (first c t).lexeme.raw = c :: s) (hr : (first c t).rest.StopsAs r) :
    first c (s ++ r) = ⟨(first c t).lexeme, r⟩ := by
  revert hblank hfault hraw hr
  apply first_cases (P := fun q => (q.lexeme.kind = .blank → r.Stops isBlank) →
    (∀ cause, q.lexeme.kind ≠ .fault cause) → q.lexeme.raw = c :: s → q.rest.StopsAs r →
    first c (s ++ r) = ⟨q.lexeme, r⟩) c t
  case blank =>
    intro hc hblank _ hraw _
    rw [first_blank hc, ← List.cons_append]
    exact run_resume hraw fun _ => hblank rfl
  case newline =>
    rintro rfl - - hraw -
    obtain rfl := (List.cons.inj hraw).2
    rfl
  case double =>
    rintro rfl - hfault hraw -
    exact ofBody_resume (fun h => doubleQuoted_resume h r) (hfault _) hraw
  case single =>
    rintro rfl - hfault hraw -
    exact ofBody_resume (fun h => singleQuoted_resume h r) (hfault _) hraw
  case dollar =>
    rintro rfl - hfault hraw hr
    exact ofDollar_resume hfault hraw hr
  case equals =>
    rintro rfl - - hraw -
    obtain rfl := (List.cons.inj hraw).2
    rfl
  case dash =>
    rintro rfl - - hraw hr
    exact ofDash_resume hraw hr
  case word =>
    intro hends hdash _ _ hraw hr
    rw [first_word hends hdash, ← List.cons_append]
    exact run_resume hraw (hr (by decide) (by decide) (by decide))

/-- A break after a text does not change what is read from the front of it. -/
theorem first_append {c : Char} {s t : Text} (hblank : (first c s).lexeme.kind ≠ .blank)
    (hfault : ∀ cause, (first c s).lexeme.kind ≠ .fault cause)
    (ht : (first c s).rest ≠ [] ∨ t.Breaks) :
    first c (s ++ t) = ⟨(first c s).lexeme, (first c s).rest ++ t⟩ := by
  obtain ⟨u, hraw⟩ := exists_raw_eq_cons c s
  have hs : s = u ++ (first c s).rest := by
    have hsplit := first_raw_append_rest c s
    rw [hraw, List.cons_append] at hsplit
    exact (List.cons.inj hsplit).2.symm
  have hagain := first_resume (fun h => absurd h hblank) hfault hraw
    (Text.beginAlike_append _ ht).stopsAs
  rwa [← List.append_assoc, ← hs] at hagain

/-- Behind a text without blanks and faults a break does not change how the text is read. -/
theorem ofText_append {s t : Text} (hs : ∀ x ∈ ofText s, x.kind ≠ .blank ∧
    ∀ cause, x.kind ≠ .fault cause) (ht : t.Breaks) : ofText (s ++ t) = ofText s ++ ofText t := by
  fun_induction ofText s with
  | case1 => rfl
  | case2 c s ih =>
      obtain ⟨⟨hblank, hfault⟩, hrest⟩ := List.forall_mem_cons.1 hs
      rw [List.cons_append, ofText_cons, first_append hblank hfault (.inr ht), ih hrest]
      rfl

end Lexeme

end PrefixShell
