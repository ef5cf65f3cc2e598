import PrefixShell.Proofs.Resolver.Refinement

/-!
# Typing more letters

Of two names, one of which goes on where the other ends, the longer begins fewer of the known names.
So it cannot resolve to anything that the shorter one could not have meant: what the shorter one
stands for is kept while the letters still fit, nothing comes of nothing, and of several alternatives
some are left.  The longer name may itself be known, and then it is one of the alternatives.

## Main results

* `Refines.candidates_sublist`: more letters leave some of the candidates.
* `Refines.narrows`: what more letters do to what is answered.
* `replay_narrows`: the same for the resolvers that any calls come to.
-/

namespace PrefixShell.Resolver

section Extensions

variable {x y : Text}

/-- The known names that begin with a longer text also begin with a shorter one. -/
theorem extensions_subset (known : Finset Text) (h : x <+: y) :
    extensions known y ⊆ extensions known x := by
  intro name hname
  obtain ⟨hknown, hprefix⟩ := mem_extensions.1 hname
  exact mem_extensions.2 ⟨hknown, h.trans hprefix⟩

theorem mem_extensions_self {known : Finset Text} (h : y ∈ known) : y ∈ extensions known y :=
  mem_extensions.2 ⟨h, List.prefix_rfl⟩

end Extensions

/-- More letters only narrow what a name resolves to. -/
structure Narrows (r : Resolver) : Prop where
  /-- What a name stands for is kept while the letters fit. -/
  kept : ∀ x y name, x <+: y → r.resolve x = .ok name → y <+: name → r.resolve y = .ok name
  unfound : ∀ x y shown, x <+: y → r.resolve x = .error (.commandNotFound shown) →
    r.resolve y = .error (.commandNotFound y)
  narrowed : ∀ x y shown alternatives, x <+: y →
    r.resolve x = .error (.ambiguousCommand shown alternatives) →
      (∃ name ∈ alternatives, r.resolve y = .ok name) ∨
      (∃ left, left.Sublist alternatives ∧ r.resolve y = .error (.ambiguousCommand y left)) ∨
      r.resolve y = .error (.commandNotFound y)

namespace Refines

variable {r : Resolver} {known : Finset Text} {abbreviations : Bool} {x y : Text}

/-- More letters leave some of the candidates, in their order. -/
theorem candidates_sublist (h : Refines r known abbreviations) (hxy : x <+: y) :
    (r.candidates y).Sublist (r.candidates x) := by
  have hfilter : r.candidates y = (r.candidates x).filter (y <+: ·) := by
    refine h.candidates_eq ((h.candidates_sorted x).filter _) ?_
    intro name
    rw [List.mem_filter, h.mem_candidates, decide_eq_true_iff, mem_extensions, and_assoc,
      and_iff_right_of_imp hxy.trans]
  rw [hfilter]
  exact List.filter_sublist

theorem narrows (h : Refines r known true) : Narrows r where
  kept := by
    intro x y name hxy hresolve hname
    cases h.answer hresolve with
    | itself hx =>
        -- A known name stands for itself, so it has no letters after it that would fit.
        obtain rfl : y = x := hname.eq_of_length_le hxy.length_le
        exact hresolve
    | one hx hone =>
        have hsub := extensions_subset known hxy
        rw [hone] at hsub
        by_cases hy : y ∈ known
        · rw [← Finset.mem_singleton.1 (hsub (mem_extensions_self hy))]
          exact h.resolve_known y hy
        · have hfound : name ∈ extensions known x := hone ▸ Finset.mem_singleton_self name
          have hfits : name ∈ extensions known y :=
            mem_extensions.2 ⟨(mem_extensions.1 hfound).1, hname⟩
          refine h.resolve_one y hy rfl name (hsub.antisymm ?_)
          exact Finset.singleton_subset_iff.2 hfits
  unfound := by
    intro x y shown hxy hresolve
    cases h.answer hresolve with
    | none hx hnone =>
        have hsub := extensions_subset known hxy
        rw [hnone] at hsub
        have hy : y ∉ known := fun hy => Finset.notMem_empty y (hsub (mem_extensions_self hy))
        exact h.resolve_none y hy (.inr (Finset.subset_empty.1 hsub))
  narrowed := by
    intro x y shown alternatives hxy hresolve
    cases h.answer hresolve with
    | several hx _ =>
        have hlisted : ∀ name ∈ extensions known y, name ∈ r.candidates x := by
          intro name hname
          exact (h.mem_candidates x name).2 (mem_extensions.1 (extensions_subset known hxy hname))
        generalize hlonger : r.resolve y = result
        cases h.answer hlonger with
        | itself hy => exact .inl ⟨y, hlisted y (mem_extensions_self hy), rfl⟩
        | none _ _ => exact .inr (.inr rfl)
        | one _ hone =>
            exact .inl ⟨_, hlisted _ (hone ▸ Finset.mem_singleton_self _), rfl⟩
        | several _ _ => exact .inr (.inl ⟨r.candidates y, h.candidates_sublist hxy, rfl⟩)

end Refines

/-- After any calls, more letters only narrow what a name resolves to, where abbreviations are
accepted.  What a name resolves to always resolves to itself. -/
theorem replay_narrows (start : List Text) (accepted : Bool) (calls : List Call) :
    (accepting accepted calls = true → Narrows (replay (ofList start accepted) calls)) ∧
    ∀ x name, (replay (ofList start accepted) calls).resolve x = .ok name →
      (replay (ofList start accepted) calls).resolve name = .ok name := by
  have hloaded := replay_loaded start accepted calls
  constructor
  · intro haccepting
    rw [haccepting] at hloaded
    exact hloaded.refines.narrows
  · intro x name hresolve
    exact resolve_idem hloaded.wellFormed hresolve

end PrefixShell.Resolver
