import Mathlib.Data.List.DropRight
import Mathlib.Data.List.Sort
import PrefixShell.Proofs.Trie.NameSet
import PrefixShell.Resolver

/-!
# A resolver is a set of names and a flag

A resolver keeps its names in a trie, but nothing that it answers tells how they lie there.  After
any calls it answers as a finite set of names would, together with a flag for abbreviations.  The
set is that of the names listed at the last refreshing and of those registered since; the flag is
the one set last.

Whether a name resolves is a matter of how many known names it begins: none, one, or several.  The
set of these is `extensions`, and `Refines` says of each of its sizes what is answered.

## Main results

* `Text.sorted_strict`: names that are all different are put in strict order.
* `mem_candidates`, `candidates_sorted`: the candidates are the known names with a beginning.
* `resolve_of_mem`, `resolve_of_singleton`, `resolve_of_several`: what a name resolves to.
* `resolve_idem`: what a name resolves to resolves to itself.
* `replay_loaded`: the names and the flag that any calls come to.
* `Refines.answer`, `Refines.resolve_congr`: what is answered depends on the known names that begin
  with the text, and on nothing else.
* `replay_refines`: all of it, after any calls on a resolver made from any list.
-/

namespace PrefixShell

/-! ## Strict code point order -/

namespace Text

theorem lt_of_le_of_ne {s t : Text} (hle : le s t = true) (hne : s ≠ t) : s < t := by
  induction s generalizing t with
  | nil =>
      cases t with
      | nil => exact absurd rfl hne
      | cons d t => exact List.nil_lt_cons d t
  | cons c s ih =>
      cases t with
      | nil => cases hle
      | cons d t =>
          rw [le, dictionaryLE_cons] at hle
          rw [List.cons_lt_cons_iff]
          rcases hle with hlt | ⟨hcode, hle⟩
          · exact .inl hlt
          · have hcd : c = d := Char.toNat_inj.1 hcode
            subst hcd
            have hst : s ≠ t := fun h => hne (by rw [h])
            exact .inr ⟨rfl, ih hle hst⟩

/-- Texts that are all different are put in strict order. -/
theorem sorted_strict {ts : List Text} (h : ts.Nodup) : (sorted ts).Pairwise (· < ·) := by
  have hnodup : (sorted ts).Nodup := (sorted_perm ts).nodup_iff.2 h
  refine ((sorted_pairwise ts).and hnodup).imp ?_
  intro s t hst
  exact lt_of_le_of_ne hst.1 hst.2

end Text

/-! ## Tries from lists -/

namespace Trie

/-- The names of a trie made from a list are those in the list, but for the empty one. -/
theorem ofList_names (listed : List Text) :
    WellFormed (ofList listed) ∧ (ofList listed).names = listed.toFinset.erase [] := by
  have hsince : (listed.map Change.insert).rtakeWhile (· ≠ .clear) = listed.map .insert := by
    rw [List.rtakeWhile_eq_self_iff]
    intro c hc
    obtain ⟨name, -, rfl⟩ := List.mem_map.1 hc
    rfl
  have hname : Change.name? ∘ Change.insert = some := rfl
  have hinserted : inserted (listed.map .insert) = listed.toFinset.erase [] := by
    rw [inserted, hsince, List.filterMap_map, hname, List.filterMap_some]
  rw [ofList_eq_replay, ← hinserted]
  exact replay_names (listed.map .insert)

end Trie

namespace Resolver

/-! ## Asking for names -/

/-- The names in a set that begin with a text. -/
def extensions (known : Finset Text) (beginning : Text) : Finset Text :=
  known.filter (beginning <+: ·)

theorem mem_extensions {known : Finset Text} {beginning name : Text} :
    name ∈ extensions known beginning ↔ name ∈ known ∧ beginning <+: name :=
  Finset.mem_filter

/-- A text begins no known name, just one, or several. -/
theorem extensions_cases (known : Finset Text) (beginning : Text) :
    extensions known beginning = ∅ ∨ (∃ name, extensions known beginning = {name}) ∨
      2 ≤ (extensions known beginning).card := by
  rw [← Finset.card_eq_zero, ← Finset.card_eq_one]
  omega

section Answers

variable {r : Resolver} (h : r.names.WellFormed)
include h

theorem count_eq_card : r.count = r.names.names.card := h.count_eq_card_names

theorem contains_iff (name : Text) : r.contains name = true ↔ name ∈ r.names.names :=
  h.contains_iff_mem_names name

theorem mem_candidates (beginning name : Text) :
    name ∈ r.candidates beginning ↔ name ∈ extensions r.names.names beginning := by
  rw [candidates, Text.mem_sorted, mem_extensions]
  exact (Trie.answers_search h beginning).mem_iff h name

theorem candidates_sorted (beginning : Text) : (r.candidates beginning).Pairwise (· < ·) :=
  Text.sorted_strict ((Trie.answers_search h beginning).nodup h)

/-- There are as many candidates as known names with the beginning. -/
theorem length_candidates (beginning : Text) :
    (r.candidates beginning).length = (extensions r.names.names beginning).card := by
  have hnodup : (r.candidates beginning).Nodup :=
    (Text.sorted_perm _).nodup_iff.2 ((Trie.answers_search h beginning).nodup h)
  rw [← List.toFinset_card_of_nodup hnodup]
  congr 1
  ext name
  rw [List.mem_toFinset, mem_candidates h]

/-- The known names are counted as they are listed. -/
theorem length_known : r.known.length = r.count := by
  have hall : extensions r.names.names [] = r.names.names :=
    Finset.filter_true_of_mem fun _ _ => List.nil_prefix
  rw [known, length_candidates h, hall, count_eq_card h]

/-! ## Resolving -/

/-- A known name stands for itself, whatever other names it begins. -/
theorem resolve_of_mem {x : Text} (hx : x ∈ r.names.names) : r.resolve x = .ok x := by
  rw [resolve, if_pos ((contains_iff h x).2 hx)]

theorem not_contains {x : Text} (hx : x ∉ r.names.names) : ¬r.contains x = true := by
  rw [contains_iff h]
  exact hx

/-- An unknown name resolves by its candidates, where abbreviations are accepted. -/
theorem resolve_of_notMem {x : Text} (hx : x ∉ r.names.names) (haccepted : r.abbreviations = true) :
    r.resolve x = match r.candidates x with
      | [] => .error (.commandNotFound x)
      | [name] => .ok name
      | names => .error (.ambiguousCommand x names) :=
  (if_neg (not_contains h hx)).trans (if_pos haccepted)

theorem resolve_of_none {x : Text} (hx : x ∉ r.names.names)
    (hnone : r.abbreviations = false ∨ extensions r.names.names x = ∅) :
    r.resolve x = .error (.commandNotFound x) := by
  cases haccepted : r.abbreviations with
  | false =>
      have hrefused : ¬r.abbreviations = true := by simp [haccepted]
      rw [resolve, if_neg (not_contains h hx), if_neg hrefused]
  | true =>
      have hempty : extensions r.names.names x = ∅ := hnone.resolve_left (by simp [haccepted])
      have hlength := length_candidates h x
      rw [hempty, Finset.card_empty, List.length_eq_zero_iff] at hlength
      rw [resolve_of_notMem h hx haccepted, hlength]

theorem resolve_of_singleton {x name : Text} (hx : x ∉ r.names.names)
    (haccepted : r.abbreviations = true) (hone : extensions r.names.names x = {name}) :
    r.resolve x = .ok name := by
  have hlength := length_candidates h x
  rw [hone, Finset.card_singleton, List.length_eq_one_iff] at hlength
  obtain ⟨found, hfound⟩ := hlength
  have hmem := mem_candidates h x found
  rw [hfound, hone, Finset.mem_singleton] at hmem
  rw [resolve_of_notMem h hx haccepted, hfound, hmem.1 List.mem_cons_self]

theorem resolve_of_several {x : Text} (hx : x ∉ r.names.names)
    (haccepted : r.abbreviations = true) (hseveral : 2 ≤ (extensions r.names.names x).card) :
    r.resolve x = .error (.ambiguousCommand x (r.candidates x)) ∧ 2 ≤ (r.candidates x).length := by
  rw [← length_candidates h x] at hseveral
  refine ⟨?_, hseveral⟩
  rw [resolve_of_notMem h hx haccepted]
  match hfound : r.candidates x with
  | [] => simp [hfound] at hseveral
  | [_] => simp [hfound] at hseveral
  | _ :: _ :: _ => rfl

/-- A name that resolves is known or begins just one known name. -/
theorem resolve_eq_ok_iff {x name : Text} :
    r.resolve x = .ok name ↔
      x ∈ r.names.names ∧ name = x ∨
        x ∉ r.names.names ∧ r.abbreviations = true ∧ extensions r.names.names x = {name} := by
  by_cases hx : x ∈ r.names.names
  · rw [resolve_of_mem h hx, Except.ok.injEq]
    simp [hx, eq_comm (a := name)]
  · cases haccepted : r.abbreviations with
    | false =>
        rw [resolve_of_none h hx (.inl haccepted)]
        simp [hx]
    | true =>
        rcases extensions_cases r.names.names x with hempty | ⟨found, hfound⟩ | hseveral
        · rw [resolve_of_none h hx (.inr hempty), hempty]
          simp [hx, eq_comm]
        · rw [resolve_of_singleton h hx haccepted hfound, hfound]
          simp [hx]
        · rw [(resolve_of_several h hx haccepted hseveral).1]
          have hmany : extensions r.names.names x ≠ {name} := by
            intro hone
            rw [hone, Finset.card_singleton] at hseveral
            omega
          simp [hx, hmany]

/-- What a name resolves to is known. -/
theorem mem_of_resolve {x name : Text} (hresolve : r.resolve x = .ok name) :
    name ∈ r.names.names := by
  rcases (resolve_eq_ok_iff h).1 hresolve with ⟨hx, rfl⟩ | ⟨-, -, hone⟩
  · exact hx
  · have hname : name ∈ extensions r.names.names x := by
      rw [hone]
      exact Finset.mem_singleton_self name
    exact (mem_extensions.1 hname).1

/-- What a name resolves to resolves to itself. -/
theorem resolve_idem {x name : Text} (hresolve : r.resolve x = .ok name) :
    r.resolve name = .ok name :=
  resolve_of_mem h (mem_of_resolve h hresolve)

/-- A name that does not resolve begins no known name, or several. -/
theorem error_of_resolve {x : Text} {error : ShellError} (hresolve : r.resolve x = .error error) :
    error = .commandNotFound x ∨
      error = .ambiguousCommand x (r.candidates x) ∧ 2 ≤ (r.candidates x).length := by
  by_cases hx : x ∈ r.names.names
  · rw [resolve_of_mem h hx] at hresolve
    cases hresolve
  · cases haccepted : r.abbreviations with
    | false =>
        rw [resolve_of_none h hx (.inl haccepted)] at hresolve
        exact .inl (Except.error.inj hresolve).symm
    | true =>
        rcases extensions_cases r.names.names x with hempty | ⟨found, hfound⟩ | hseveral
        · rw [resolve_of_none h hx (.inr hempty)] at hresolve
          exact .inl (Except.error.inj hresolve).symm
        · rw [resolve_of_singleton h hx haccepted hfound] at hresolve
          cases hresolve
        · obtain ⟨hambiguous, hmany⟩ := resolve_of_several h hx haccepted hseveral
          rw [hambiguous] at hresolve
          exact .inr ⟨(Except.error.inj hresolve).symm, hmany⟩

end Answers

/-! ## Calls -/

/-- A call that changes a resolver. -/
inductive Call where
  | register (name : Text)
  /-- Refreshing, with what the registry lists at that time. -/
  | refresh (listed : List Text)
  | setAbbreviations (accepted : Bool)
deriving DecidableEq

namespace Call

def registered? : Call → Option Text
  | register name => some name
  | _ => none

def listed? : Call → Option (List Text)
  | refresh listed => some listed
  | _ => none

def accepted? : Call → Option Bool
  | setAbbreviations accepted => some accepted
  | _ => none

end Call

/-- A resolver after a call. -/
def call (r : Resolver) : Call → Resolver
  | .register name => (r.register name).1
  | .refresh listed => r.refresh listed
  | .setAbbreviations accepted => r.setAbbreviations accepted

/-- A resolver after calls, one after the other. -/
def replay (r : Resolver) (calls : List Call) : Resolver := calls.foldl call r

/-- The names listed at the last refreshing, at first those that the resolver is made from, and the
names registered since. The empty one is no name. -/
def learned (start : List Text) (calls : List Call) : Finset Text :=
  ((calls.filterMap Call.listed?).getLastD start ++
    (calls.rtakeWhile (·.listed?.isNone)).filterMap Call.registered?).toFinset.erase []

/-- Whether abbreviations are accepted: as it was set last, or at first. -/
def accepting (accepted : Bool) (calls : List Call) : Bool :=
  (calls.filterMap Call.accepted?).getLastD accepted

section Calls

variable (start : List Text) (accepted : Bool) (calls : List Call)

theorem learned_nil : learned start [] = start.toFinset.erase [] := by
  rw [learned, List.rtakeWhile_nil, List.filterMap_nil, List.filterMap_nil, List.append_nil]
  rfl

theorem learned_concat_register (name : Text) :
    learned start (calls ++ [.register name]) =
      (Insert.insert name (learned start calls)).erase [] := by
  have hsince : (calls ++ [Call.register name]).rtakeWhile (·.listed?.isNone) =
      calls.rtakeWhile (·.listed?.isNone) ++ [.register name] :=
    List.rtakeWhile_concat_pos _ _ _ rfl
  have hlisted : (calls ++ [Call.register name]).filterMap Call.listed? =
      calls.filterMap Call.listed? := by
    rw [List.filterMap_append]
    exact List.append_nil _
  have hlast : [Call.register name].filterMap Call.registered? = [name] := rfl
  ext other
  rw [learned, learned, hsince, hlisted, List.filterMap_append, hlast]
  simp only [Finset.mem_erase, Finset.mem_insert, List.mem_toFinset, List.mem_append,
    List.mem_singleton]
  tauto

theorem learned_concat_refresh (listed : List Text) :
    learned start (calls ++ [.refresh listed]) = listed.toFinset.erase [] := by
  have hsince : (calls ++ [Call.refresh listed]).rtakeWhile (·.listed?.isNone) = [] :=
    List.rtakeWhile_concat_neg _ _ _ (by simp [Call.listed?])
  have hlisted : (calls ++ [Call.refresh listed]).filterMap Call.listed? =
      calls.filterMap Call.listed? ++ [listed] := by
    rw [List.filterMap_append]
    rfl
  rw [learned, hsince, hlisted, List.getLastD_concat, List.filterMap_nil, List.append_nil]

theorem learned_concat_setAbbreviations (value : Bool) :
    learned start (calls ++ [.setAbbreviations value]) = learned start calls := by
  have hsince : (calls ++ [Call.setAbbreviations value]).rtakeWhile (·.listed?.isNone) =
      calls.rtakeWhile (·.listed?.isNone) ++ [.setAbbreviations value] :=
    List.rtakeWhile_concat_pos _ _ _ rfl
  have hlast : [Call.setAbbreviations value].filterMap Call.registered? = [] := rfl
  have hlisted : (calls ++ [Call.setAbbreviations value]).filterMap Call.listed? =
      calls.filterMap Call.listed? := by
    rw [List.filterMap_append]
    exact List.append_nil _
  rw [learned, learned, hsince, hlisted, List.filterMap_append, hlast, List.append_nil]

/-- The state of a resolver, as a set of names and a flag. -/
structure Loaded (r : Resolver) (known : Finset Text) (abbreviations : Bool) : Prop where
  wellFormed : r.names.WellFormed
  names_eq : r.names.names = known
  abbreviations_eq : r.abbreviations = abbreviations

theorem ofList_loaded : Loaded (ofList start accepted) (start.toFinset.erase []) accepted where
  wellFormed := (Trie.ofList_names start).1
  names_eq := (Trie.ofList_names start).2
  abbreviations_eq := rfl

variable {start accepted calls} {r : Resolver} {known : Finset Text} {abbreviations : Bool}

theorem Loaded.register (h : Loaded r known abbreviations) (name : Text) :
    Loaded (r.call (.register name)) ((Insert.insert name known).erase []) abbreviations where
  wellFormed := Trie.wellFormed_insert h.wellFormed name
  names_eq := by
    have hnil : [] ∉ known := by
      rw [← h.names_eq]
      exact fun hmem => h.wellFormed.ne_nil_of_mem_names hmem rfl
    show (r.names.insert name).1.names = _
    by_cases hne : name = []
    · rw [hne, Trie.insert_nil, Finset.erase_insert hnil]
      exact h.names_eq
    · rw [(Trie.inserted_insert h.wellFormed hne).names_eq, h.names_eq, Finset.erase_eq_of_notMem]
      simp [hnil, Ne.symm hne]
  abbreviations_eq := h.abbreviations_eq

theorem Loaded.refresh (h : Loaded r known abbreviations) (listed : List Text) :
    Loaded (r.call (.refresh listed)) (listed.toFinset.erase []) abbreviations where
  wellFormed := (Trie.ofList_names listed).1
  names_eq := (Trie.ofList_names listed).2
  abbreviations_eq := h.abbreviations_eq

theorem Loaded.setAbbreviations (h : Loaded r known abbreviations) (value : Bool) :
    Loaded (r.call (.setAbbreviations value)) known value where
  wellFormed := h.wellFormed
  names_eq := h.names_eq
  abbreviations_eq := rfl

end Calls

/-- The names and the flag that any calls come to. -/
theorem replay_loaded (start : List Text) (accepted : Bool) (calls : List Call) :
    Loaded (replay (ofList start accepted) calls) (learned start calls)
      (accepting accepted calls) := by
  induction calls using List.reverseRecOn with
  | nil =>
      rw [learned_nil]
      exact ofList_loaded start accepted
  | append_singleton calls c ih =>
      have hreplay : replay (ofList start accepted) (calls ++ [c]) =
          (replay (ofList start accepted) calls).call c := List.foldl_concat _ _ _ _
      have haccepting : accepting accepted (calls ++ [c]) =
          c.accepted?.getD (accepting accepted calls) := by
        rw [accepting, List.filterMap_append]
        cases c with
        | setAbbreviations value => exact List.getLastD_concat
        | register name | refresh listed => exact congrArg (·.getLastD accepted) (List.append_nil _)
      rw [hreplay, haccepting]
      cases c with
      | register name =>
          rw [learned_concat_register]
          exact ih.register name
      | refresh listed =>
          rw [learned_concat_refresh]
          exact ih.refresh listed
      | setAbbreviations value =>
          rw [learned_concat_setAbbreviations]
          exact ih.setAbbreviations value

/-! ## The set and the flag -/

/-- What it is for a resolver to be a set of names and a flag, to all who ask. -/
structure Refines (r : Resolver) (known : Finset Text) (abbreviations : Bool) : Prop where
  count_eq : r.count = known.card
  known_sorted : r.known.Pairwise (· < ·)
  mem_known : ∀ name, name ∈ r.known ↔ name ∈ known
  candidates_sorted : ∀ beginning, (r.candidates beginning).Pairwise (· < ·)
  mem_candidates : ∀ beginning name,
    name ∈ r.candidates beginning ↔ name ∈ known ∧ beginning <+: name
  contains_iff : ∀ name, r.contains name = true ↔ name ∈ known
  /-- A known name stands for itself, whatever else it begins. -/
  resolve_known : ∀ x ∈ known, r.resolve x = .ok x
  resolve_none : ∀ x ∉ known, abbreviations = false ∨ extensions known x = ∅ →
    r.resolve x = .error (.commandNotFound x)
  resolve_one : ∀ x ∉ known, abbreviations = true → ∀ name, extensions known x = {name} →
    r.resolve x = .ok name
  resolve_several : ∀ x ∉ known, abbreviations = true → 2 ≤ (extensions known x).card →
    r.resolve x = .error (.ambiguousCommand x (r.candidates x)) ∧ 2 ≤ (r.candidates x).length
  /-- A command that is resolved gets the name and is otherwise as it was. -/
  resolveCommand_known : ∀ (c : Command) name, r.resolve c.name = .ok name →
    r.resolveCommand c = (none, { c with resolved := some name })
  /-- A command that is not resolved is as it was. -/
  resolveCommand_unknown : ∀ (c : Command) error, r.resolve c.name = .error error →
    r.resolveCommand c = (some error, c)

theorem Loaded.refines {r : Resolver} {known : Finset Text} {abbreviations : Bool}
    (h : Loaded r known abbreviations) : Refines r known abbreviations := by
  obtain ⟨hwf, rfl, rfl⟩ := h
  exact
    { count_eq := count_eq_card hwf
      known_sorted := Resolver.candidates_sorted hwf []
      mem_known := by
        intro name
        rw [known, Resolver.mem_candidates hwf, mem_extensions]
        exact and_iff_left List.nil_prefix
      candidates_sorted := Resolver.candidates_sorted hwf
      mem_candidates := by
        intro beginning name
        rw [Resolver.mem_candidates hwf, mem_extensions]
      contains_iff := Resolver.contains_iff hwf
      resolve_known := fun _ => resolve_of_mem hwf
      resolve_none := fun _ => resolve_of_none hwf
      resolve_one := fun _ hx habbreviations _ => resolve_of_singleton hwf hx habbreviations
      resolve_several := fun _ => resolve_of_several hwf
      resolveCommand_known := fun _ _ => resolveCommand_ok
      resolveCommand_unknown := fun _ _ => resolveCommand_error }

/-- A resolver made from any list answers, after any calls, as the set of the names learned since
it was last refreshed and the flag set last. -/
theorem replay_refines (start : List Text) (accepted : Bool) (calls : List Call) :
    Refines (replay (ofList start accepted) calls) (learned start calls)
      (accepting accepted calls) :=
  (replay_loaded start accepted calls).refines

/-! ## Answers and the reasons for them -/

/-- What a name resolves to where abbreviations are accepted, by the known names that it begins. -/
inductive Answer (r : Resolver) (known : Finset Text) (x : Text) : Except ShellError Text → Prop
  | itself (hx : x ∈ known) : Answer r known x (.ok x)
  | none (hx : x ∉ known) (hnone : extensions known x = ∅) :
      Answer r known x (.error (.commandNotFound x))
  | one {name : Text} (hx : x ∉ known) (hone : extensions known x = {name}) :
      Answer r known x (.ok name)
  | several (hx : x ∉ known) (hseveral : 2 ≤ (extensions known x).card) :
      Answer r known x (.error (.ambiguousCommand x (r.candidates x)))

namespace Refines

variable {r r' : Resolver} {known known' : Finset Text} {abbreviations : Bool} {x : Text}

/-- The candidates are told by their members, as they are in strict order. -/
theorem candidates_eq (h : Refines r known abbreviations) {names : List Text}
    (hsorted : names.Pairwise (· < ·)) (hmem : ∀ name, name ∈ names ↔ name ∈ extensions known x) :
    r.candidates x = names := by
  refine (h.candidates_sorted x).eq_of_mem_iff hsorted ?_
  intro name
  rw [h.mem_candidates, hmem, mem_extensions]

/-- Whatever is answered, the known names that begin with the text give the reason. -/
theorem answer (h : Refines r known true) {result : Except ShellError Text}
    (hresolve : r.resolve x = result) : Answer r known x result := by
  rw [← hresolve]
  by_cases hx : x ∈ known
  · rw [h.resolve_known x hx]
    exact .itself hx
  · rcases extensions_cases known x with hnone | ⟨name, hone⟩ | hseveral
    · rw [h.resolve_none x hx (.inr hnone)]
      exact .none hx hnone
    · rw [h.resolve_one x hx rfl name hone]
      exact .one hx hone
    · rw [(h.resolve_several x hx rfl hseveral).1]
      exact .several hx hseveral

/-- Resolvers resolve a name alike if they know it alike, and know the same names that begin with it
where these are asked for. -/
theorem resolve_congr (h : Refines r known abbreviations) (h' : Refines r' known' abbreviations)
    (hknown : x ∈ known ↔ x ∈ known')
    (hbegun : abbreviations = true → extensions known x = extensions known' x) :
    r.resolve x = r'.resolve x := by
  by_cases hx : x ∈ known
  · rw [h.resolve_known x hx, h'.resolve_known x (hknown.1 hx)]
  · have hx' : x ∉ known' := hknown.not.1 hx
    cases abbreviations with
    | false => rw [h.resolve_none x hx (.inl rfl), h'.resolve_none x hx' (.inl rfl)]
    | true =>
        have hsame := hbegun rfl
        generalize hresolve : r.resolve x = result
        cases h.answer hresolve with
        | itself hmem => exact absurd hmem hx
        | none _ hnone => exact (h'.resolve_none x hx' (.inr (hsame ▸ hnone))).symm
        | one _ hone => exact (h'.resolve_one x hx' rfl _ (hsame ▸ hone)).symm
        | several _ hseveral =>
            have hcandidates : r.candidates x = r'.candidates x := by
              refine h.candidates_eq (h'.candidates_sorted x) ?_
              intro name
              rw [h'.mem_candidates, hsame, mem_extensions]
            rw [hcandidates]
            exact (h'.resolve_several x hx' rfl (hsame ▸ hseveral)).1.symm

end Refines

end Resolver

end PrefixShell
