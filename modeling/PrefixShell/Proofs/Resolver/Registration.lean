import PrefixShell.Proofs.Resolver.Refinement

/-!
# Registering one more name

What a resolver that learns a new name answers from then on.  The names that the new one has nothing
to do with, because they do not begin it or are known themselves, resolve as before.  A name that
begins it has one more known name to stand for: where it had none it stands for the new one, where it
had one it becomes ambiguous, and where it was ambiguous the new name joins the alternatives.

Nothing here looks at how the names are kept.  Both resolvers are given by their sets of names
(`Refines`), and the second set is the first with one more name in it.

## Main results

* `extensions_insert`: the names with a beginning, when there is one more name.
* `Refines.candidates_insert`: the new name in its place among the candidates.
* `Refines.learns`: what changes with one more name.
* `replay_register`: the same for the resolvers that any calls come to.
-/

namespace PrefixShell.Resolver

/-! ## One more name with a beginning -/

section Extensions

variable {known : Finset Text} {x name : Text}

theorem extensions_insert (h : x <+: name) :
    extensions (Insert.insert name known) x = Insert.insert name (extensions known x) := by
  rw [extensions, Finset.filter_insert, if_pos h]
  rfl

theorem extensions_insert_of_not_prefix (h : ¬x <+: name) :
    extensions (Insert.insert name known) x = extensions known x := by
  rw [extensions, Finset.filter_insert, if_neg h]
  rfl

theorem notMem_extensions (h : name ∉ known) : name ∉ extensions known x :=
  fun hname => h (mem_extensions.1 hname).1

end Extensions

/-! ## What changes -/

/-- What is different after a new name is learned, the known names being those before. -/
structure Learns (known : Finset Text) (abbreviations : Bool) (name : Text) (r r' : Resolver) :
    Prop where
  /-- A name that does not begin the new one, or is known, resolves as before. -/
  apart : ∀ x, ¬x <+: name ∨ x ∈ known → r'.resolve x = r.resolve x
  itself : r'.resolve name = .ok name
  /-- Without abbreviations it does not matter what a name begins. -/
  unabbreviated : abbreviations = false → ∀ x, x ≠ name → r'.resolve x = r.resolve x
  found : abbreviations = true → ∀ x, x <+: name → x ≠ name → x ∉ known → ∀ shown,
    r.resolve x = .error (.commandNotFound shown) → r'.resolve x = .ok name
  doubled : abbreviations = true → ∀ x, x <+: name → x ≠ name → x ∉ known → ∀ other,
    r.resolve x = .ok other →
      r'.resolve x = .error (.ambiguousCommand x (Text.sorted [other, name]))
  /-- The new name is put in its place among the alternatives, which are in strict order. -/
  joined : abbreviations = true → ∀ x, x <+: name → x ≠ name → x ∉ known → ∀ shown alternatives,
    r.resolve x = .error (.ambiguousCommand shown alternatives) →
      ∃ smaller larger, alternatives = smaller ++ larger ∧
        (∀ other ∈ smaller, other < name) ∧ (∀ other ∈ larger, name < other) ∧
        r'.resolve x = .error (.ambiguousCommand x (smaller ++ name :: larger))

namespace Refines

variable {r r' : Resolver} {known : Finset Text} {abbreviations : Bool} {x name : Text}

/-- A new name has its place among the candidates, and the others are those from before. -/
theorem candidates_insert (h : Refines r known abbreviations)
    (h' : Refines r' (Insert.insert name known) abbreviations) (hname : name ∉ known)
    (hx : x <+: name) :
    ∃ smaller larger, r.candidates x = smaller ++ larger ∧
      r'.candidates x = smaller ++ name :: larger ∧
      (∀ other ∈ smaller, other < name) ∧ ∀ other ∈ larger, name < other := by
  have hmem : name ∈ r'.candidates x :=
    (h'.mem_candidates x name).2 ⟨Finset.mem_insert_self name known, hx⟩
  obtain ⟨smaller, larger, hsplit⟩ := List.append_of_mem hmem
  have hsorted := h'.candidates_sorted x
  rw [hsplit] at hsorted
  obtain ⟨-, htail, hacross⟩ := List.pairwise_append.1 hsorted
  have hsmaller : ∀ other ∈ smaller, other < name := fun other hother =>
    hacross other hother name List.mem_cons_self
  have hlarger : ∀ other ∈ larger, name < other := (List.pairwise_cons.1 htail).1
  have hrest : (smaller ++ larger).Sublist (smaller ++ name :: larger) :=
    (List.sublist_cons_self name larger).append_left smaller
  refine ⟨smaller, larger, h.candidates_eq (hsorted.sublist hrest) ?_, hsplit, hsmaller, hlarger⟩
  intro other
  have hlisted := h'.mem_candidates x other
  rw [hsplit, ← mem_extensions, extensions_insert hx] at hlisted
  by_cases hother : other = name
  · subst hother
    refine iff_of_false ?_ (notMem_extensions hname)
    rw [List.mem_append, not_or]
    exact ⟨fun hin => List.lt_irrefl _ (hsmaller _ hin), fun hin => List.lt_irrefl _ (hlarger _ hin)⟩
  · simpa [hother] using hlisted

/-- A name that does not begin the new one, or is known, resolves as before. -/
theorem resolve_insert_apart (h : Refines r known abbreviations)
    (h' : Refines r' (Insert.insert name known) abbreviations) (hx : ¬x <+: name ∨ x ∈ known) :
    r'.resolve x = r.resolve x := by
  by_cases hknown : x ∈ known
  · rw [h.resolve_known x hknown, h'.resolve_known x (Finset.mem_insert_of_mem hknown)]
  · have hbegins : ¬x <+: name := hx.resolve_right hknown
    have hne : x ≠ name := by
      rintro rfl
      exact hbegins List.prefix_rfl
    refine h'.resolve_congr h ?_ fun _ => extensions_insert_of_not_prefix hbegins
    simp [hne]

/-- A name that began some known name begins one more, and so becomes ambiguous or stays so. -/
theorem resolve_insert_of_nonempty (h' : Refines r' (Insert.insert name known) true)
    (hname : name ∉ known) (hx : x ∉ Insert.insert name known) (hbegins : x <+: name)
    (hbegun : (extensions known x).Nonempty) :
    r'.resolve x = .error (.ambiguousCommand x (r'.candidates x)) := by
  refine (h'.resolve_several x hx rfl ?_).1
  have hpos := hbegun.card_pos
  rw [extensions_insert hbegins, Finset.card_insert_of_notMem (notMem_extensions hname)]
  omega

/-- What changes with one more name. -/
theorem learns (h : Refines r known abbreviations)
    (h' : Refines r' (Insert.insert name known) abbreviations) (hname : name ∉ known) :
    Learns known abbreviations name r r' where
  apart := fun _ => h.resolve_insert_apart h'
  itself := h'.resolve_known name (Finset.mem_insert_self name known)
  unabbreviated := by
    rintro rfl x hne
    refine h'.resolve_congr h ?_ fun habbreviations => nomatch habbreviations
    simp [hne]
  found := by
    rintro rfl x hbegins hne - shown hresolve
    cases h.answer hresolve with
    | none hx hnone =>
        refine h'.resolve_one x (by simp [hne, hx]) rfl name ?_
        rw [extensions_insert hbegins, hnone]
        rfl
  doubled := by
    rintro rfl x hbegins hne hx other hresolve
    cases h.answer hresolve with
    | itself hmem => exact absurd hmem hx
    | one _ hone =>
        have hother : other ∈ extensions known x := hone ▸ Finset.mem_singleton_self other
        have hdifferent : other ≠ name := by
          rintro rfl
          exact notMem_extensions hname hother
        have hcandidates : r'.candidates x = Text.sorted [other, name] := by
          refine h'.candidates_eq (Text.sorted_strict (by simp [hdifferent])) ?_
          intro another
          rw [Text.mem_sorted, extensions_insert hbegins, hone]
          simp [or_comm]
        rw [h'.resolve_insert_of_nonempty hname (by simp [hne, hx]) hbegins ⟨other, hother⟩,
          hcandidates]
  joined := by
    rintro rfl x hbegins hne - shown alternatives hresolve
    cases h.answer hresolve with
    | several hx hseveral =>
        have hbegun : (extensions known x).Nonempty := Finset.card_pos.1 (by omega)
        obtain ⟨smaller, larger, hold, hnew, hsmaller, hlarger⟩ :=
          h.candidates_insert h' hname hbegins
        refine ⟨smaller, larger, hold, hsmaller, hlarger, ?_⟩
        rw [h'.resolve_insert_of_nonempty hname (by simp [hne, hx]) hbegins hbegun, hnew]

end Refines

/-- After any calls, registering a name that is new changes what the names resolve to that begin it,
and registering any other changes nothing. -/
theorem replay_register (start : List Text) (accepted : Bool) (calls : List Call) (name : Text) :
    (name ≠ [] ∧ name ∉ learned start calls →
      Learns (learned start calls) (accepting accepted calls) name
        (replay (ofList start accepted) calls)
        ((replay (ofList start accepted) calls).register name).1) ∧
    (name = [] ∨ name ∈ learned start calls →
      ∀ x, ((replay (ofList start accepted) calls).register name).1.resolve x =
        (replay (ofList start accepted) calls).resolve x) := by
  have hbefore := replay_loaded start accepted calls
  have hafter := (hbefore.register name).refines
  have hnil : [] ∉ learned start calls := Finset.notMem_erase [] _
  constructor
  · rintro ⟨hne, hnew⟩
    rw [Finset.erase_eq_of_notMem (by simp [hnil, Ne.symm hne])] at hafter
    exact hbefore.refines.learns hafter hnew
  · intro hold x
    have hsame : (Insert.insert name (learned start calls)).erase [] = learned start calls := by
      rcases hold with rfl | hold
      · exact Finset.erase_insert hnil
      · rw [Finset.insert_eq_of_mem hold, Finset.erase_eq_of_notMem hnil]
    rw [hsame] at hafter
    exact hafter.resolve_congr hbefore.refines Iff.rfl fun _ => rfl

end PrefixShell.Resolver
