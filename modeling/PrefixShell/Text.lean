import PrefixShell.DictionaryOrder

/-!
# Text

Everything the shell reads, names or prints is a `Text`: the list of its characters. The scanners
walk it from the front, so the list is the form in which a statement about them is said.

## Main results

* `byteLength_append`: the bytes of a text are those of its parts.
* `mem_sorted` and `sorted_pairwise`: sorting keeps the members and puts them in code point order.
* `mem_sortedSet` and `nodup_sortedSet`: the members are kept also where each of them is wanted once.
-/

namespace PrefixShell

/-- A text, as the list of its characters. -/
abbrev Text := List Char

namespace Text

/-- The number of bytes the text takes in UTF-8. -/
def byteLength : Text → Nat
  | [] => 0
  | c :: t => c.utf8Size + byteLength t

@[simp] theorem byteLength_nil : byteLength [] = 0 := rfl

@[simp] theorem byteLength_cons (c : Char) (t : Text) :
    byteLength (c :: t) = c.utf8Size + byteLength t := rfl

theorem byteLength_append (s t : Text) : byteLength (s ++ t) = byteLength s + byteLength t := by
  induction s with
  | nil => simp
  | cons c s ih => simp [ih, Nat.add_assoc]

/-- Whether a text comes before another in code point order, which is also the order of their UTF-8
bytes, or is the same. -/
def le (s t : Text) : Bool := dictionaryLE Char.toNat s t

/-- The texts in code point order. -/
def sorted (ts : List Text) : List Text := sortBy Char.toNat id ts

theorem sorted_perm (ts : List Text) : (sorted ts).Perm ts := sortBy_perm Char.toNat id ts

theorem mem_sorted {t : Text} {ts : List Text} : t ∈ sorted ts ↔ t ∈ ts := (sorted_perm ts).mem_iff

theorem sorted_pairwise (ts : List Text) : (sorted ts).Pairwise fun s t => le s t = true :=
  sortBy_pairwise Char.toNat id ts

/-- The texts in code point order, each of them once. -/
def sortedSet (ts : List Text) : List Text := sorted ts.eraseDups

theorem mem_sortedSet {t : Text} {ts : List Text} : t ∈ sortedSet ts ↔ t ∈ ts := by
  rw [sortedSet, mem_sorted, List.mem_eraseDups]

private theorem nodup_eraseDups : ∀ ts : List Text, ts.eraseDups.Nodup
  | [] => List.nodup_nil
  | t :: ts => by
    rw [List.eraseDups_cons, List.nodup_cons, List.mem_eraseDups]
    exact ⟨by simp, nodup_eraseDups _⟩
termination_by ts => ts.length
decreasing_by exact Nat.lt_succ_of_le (List.length_filter_le _ ts)

theorem nodup_sortedSet (ts : List Text) : (sortedSet ts).Nodup :=
  (sorted_perm _).nodup_iff.2 (nodup_eraseDups ts)

/-- The lines of a text, each ended by a newline. -/
def lines (ts : List Text) : Text := ts.flatMap (· ++ ['\n'])

/-- The decimal digits of a number. -/
def ofNat (n : Nat) : Text := Nat.toDigits 10 n

end Text

end PrefixShell
