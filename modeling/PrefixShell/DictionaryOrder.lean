/-!
# Dictionary order

Lists in the order in which a dictionary has them: the first entries that differ decide, and a list
comes before those that go on where it ends. The entries themselves are compared by a code. Texts by
the code points of their characters and names by the values of their bytes are the two uses.

## Main results

* `dictionaryLE_total`, `dictionaryLE_trans`: any two lists are in order, and so are any three.
* `sortBy_perm`, `sortBy_pairwise`: sorting by it only puts the lists in order.
-/

namespace PrefixShell

/-- Whether a list comes before another in dictionary order, or is the same. -/
def dictionaryLE {α : Type} (code : α → Nat) : List α → List α → Bool
  | [], _ => true
  | _ :: _, [] => false
  | a :: s, b :: t => code a < code b || (code a = code b && dictionaryLE code s t)

variable {α β : Type} {code : α → Nat}

theorem dictionaryLE_cons {a b : α} {s t : List α} :
    dictionaryLE code (a :: s) (b :: t) = true ↔
      code a < code b ∨ code a = code b ∧ dictionaryLE code s t = true := by
  simp [dictionaryLE]

theorem dictionaryLE_total (s t : List α) :
    dictionaryLE code s t = true ∨ dictionaryLE code t s = true := by
  induction s generalizing t with
  | nil => exact .inl rfl
  | cons a s ih =>
    cases t with
    | nil => exact .inr rfl
    | cons b t =>
      simp only [dictionaryLE_cons]
      have := ih t
      rcases Nat.lt_trichotomy (code a) (code b) with h | h | h
      · exact .inl (.inl h)
      · rcases this with hst | hts
        · exact .inl (.inr ⟨h, hst⟩)
        · exact .inr (.inr ⟨h.symm, hts⟩)
      · exact .inr (.inl h)

theorem dictionaryLE_trans {s t u : List α} (hst : dictionaryLE code s t = true)
    (htu : dictionaryLE code t u = true) : dictionaryLE code s u = true := by
  induction s generalizing t u with
  | nil => rfl
  | cons a s ih =>
    cases t with
    | nil => cases hst
    | cons b t =>
      cases u with
      | nil => cases htu
      | cons c u =>
        rw [dictionaryLE_cons] at *
        rcases hst with hab | ⟨hab, hst⟩
        · left; omega
        · rcases htu with hbc | ⟨hbc, htu⟩
          · left; omega
          · exact .inr ⟨hab.trans hbc, ih hst htu⟩

/-- Puts things in the dictionary order of their spellings. -/
def sortBy (code : α → Nat) (spelling : β → List α) (xs : List β) : List β :=
  xs.mergeSort fun x y => dictionaryLE code (spelling x) (spelling y)

theorem sortBy_perm (code : α → Nat) (spelling : β → List α) (xs : List β) :
    (sortBy code spelling xs).Perm xs :=
  List.mergeSort_perm xs _

theorem sortBy_pairwise (code : α → Nat) (spelling : β → List α) (xs : List β) :
    (sortBy code spelling xs).Pairwise fun x y =>
      dictionaryLE code (spelling x) (spelling y) = true :=
  List.pairwise_mergeSort (fun _ _ _ => dictionaryLE_trans)
    (fun _ _ => (Bool.or_eq_true _ _).mpr (dictionaryLE_total _ _)) xs

end PrefixShell
