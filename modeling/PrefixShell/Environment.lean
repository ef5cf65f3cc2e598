import PrefixShell.FileSystem.Path

/-!
# Environment

The variables of a session, its working directory as the user sees it, and whether the user has
asked to leave.

## Main results

* `Variables.get?_set_self`, `Variables.get?_set_ne`: binding a name changes what this name is bound
  to and nothing else.
* `Variables.readEntry?_entry`: a binding comes back from its entry, if its name is not empty and
  has no `=` after its first character.
-/

namespace PrefixShell

/-! ## Variables -/

/-- Names bound to values. -/
structure Variables where
  bindings : List (Text × Text)
deriving DecidableEq, Repr

namespace Variables

def empty : Variables := ⟨[]⟩

def get? (v : Variables) (name : Text) : Option Text := v.bindings.lookup name

/-- Binds a name to a value, whatever it was bound to. -/
def set (v : Variables) (name value : Text) : Variables :=
  ⟨(name, value) :: v.bindings.filter (·.1 ≠ name)⟩

def size (v : Variables) : Nat := v.bindings.length

/-- Binds names to values one after the other. -/
def ofList (bindings : List (Text × Text)) : Variables :=
  bindings.foldl (fun v (name, value) => v.set name value) empty

@[simp] theorem get?_empty (name : Text) : empty.get? name = none := rfl

@[simp] theorem get?_set_self (v : Variables) (name value : Text) :
    (v.set name value).get? name = some value := by
  simp [get?, set]

theorem get?_set_ne (v : Variables) {name other : Text} (value : Text) (h : other ≠ name) :
    (v.set name value).get? other = v.get? other := by
  have hb : (other == name) = false := by simpa using h
  rw [get?, set, List.lookup_cons, hb, get?]
  induction v.bindings with
  | nil => rfl
  | cons b bs ih =>
    obtain ⟨key, bound⟩ := b
    by_cases hk : key = name
    · have hok : (other == key) = false := by simpa [hk] using h
      simpa [hk, List.lookup_cons, hb] using ih
    · simp only [ne_eq, hk, not_false_eq_true, decide_true, List.filter_cons_of_pos,
        List.lookup_cons]
      split <;> simp_all

/-! ### Entries -/

/-- A binding as one text, in the form in which programs hand them to each other. -/
def entry (name value : Text) : Text := name ++ '=' :: value

/-- The bindings as texts, in the order of their names. -/
def entries (v : Variables) : List Text :=
  (sortBy Char.toNat Prod.fst v.bindings).map fun (name, value) => entry name value

/-- The name and the value in an entry. The name ends at the first `=` that is not its first
character; an entry without such a sign binds nothing. -/
def readEntry? : Text → Option (Text × Text)
  | [] => none
  | c :: t =>
    match t.dropWhile (· ≠ '=') with
    | [] => none
    | _ :: value => some (c :: t.takeWhile (· ≠ '='), value)

/-- The variables in entries; of two for one name the later counts. -/
def ofEntries (entries : List Text) : Variables := ofList (entries.filterMap readEntry?)

/-- The values in the entries that begin with a name and a `=`. There can be several, for a name
that holds a `=` begins with another name and a `=`. -/
def valuesIn (entries : List Text) (name : Text) : List Text :=
  entries.filterMap fun e =>
    if (name ++ ['=']).isPrefixOf e then some (e.drop (name.length + 1)) else none

/-- A binding comes back from its entry, if its name has no `=` after the first character. -/
theorem readEntry?_entry {c : Char} {name : Text} (value : Text) (h : '=' ∉ name) :
    readEntry? (entry (c :: name) value) = some (c :: name, value) := by
  have hp : ∀ d ∈ name, decide (d ≠ '=') = true := fun d hd =>
    decide_eq_true fun he => h (he ▸ hd)
  simp only [entry, List.cons_append, readEntry?]
  rw [List.dropWhile_append_of_pos hp, List.takeWhile_append_of_pos hp]
  simp

end Variables

/-! ## Environment -/

/-- What a session knows about its user. -/
structure Environment where
  vars : Variables
  /-- The working directory, by its path. -/
  currentDirectory : Path
  /-- Whether the session is to end. -/
  shouldExit : Bool := false
  /-- The home directory of the account, for when `HOME` is not bound. -/
  accountHome : Text
deriving DecidableEq, Repr

namespace Environment

def get? (e : Environment) (name : Text) : Option Text := e.vars.get? name

def set (e : Environment) (name value : Text) : Environment :=
  { e with vars := e.vars.set name value }

end Environment

end PrefixShell
