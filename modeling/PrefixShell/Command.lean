import PrefixShell.Text

/-!
# Commands

A command line once it has been read: a name, and after it the items in the order in which they
were given. Everything else that can be asked of a command, such as its arguments, its options or
the words handed to a program, is read off the items.

## Main results

* `args_sublist_argv`: the arguments are among the words handed to a program, in order.
* `option?_eq_getLast?`: the value of an option is the last of those bound to it.
* `mem_optionNames`: the options are those that have a value.
-/

namespace PrefixShell

/-- One thing given after the name of a command. -/
inductive Item where
  /-- An argument, and whether it was quoted. -/
  | argument (value : Text) (quoted : Bool)
  /-- An option with a value. -/
  | binding (option value : Text)
  /-- An option without a value, or a cluster of short ones. -/
  | flag (spelling : Text)
  /-- The `--` after which no more options are read. -/
  | endOfOptions
deriving DecidableEq, Repr

namespace Item

def argument? : Item → Option Text
  | argument value _ => some value
  | _ => none

def quoting? : Item → Option Bool
  | argument _ quoted => some quoted
  | _ => none

/-- An option and the value bound to it. -/
def binding? : Item → Option (Text × Text)
  | binding option value => some (option, value)
  | _ => none

/-- The flags that a spelling stands for: `-abc` is `-a`, `-b` and `-c`. -/
def flagsOf : Text → List Text
  | '-' :: c :: d :: cluster =>
    if c = '-' then ['-' :: c :: d :: cluster] else (c :: d :: cluster).map (['-', ·])
  | spelling => [spelling]

def flags : Item → List Text
  | flag spelling => flagsOf spelling
  | _ => []

/-- The word handed to a program. -/
def word : Item → Text
  | argument value _ => value
  | binding option value => option ++ '=' :: value
  | flag spelling => spelling
  | endOfOptions => ['-', '-']

end Item

/-- A command line that has been read. -/
structure Command where
  /-- The name as it was typed, perhaps abbreviated. -/
  name : Text
  /-- The full name, once it is known. -/
  resolved : Option Text := none
  items : List Item
  /-- The line as it was typed. -/
  rawInput : Text
deriving DecidableEq, Repr

namespace Command

/-- The name that decides which command is run. -/
def target (c : Command) : Text := c.resolved.getD c.name

/-- The arguments that belong to no option. -/
def args (c : Command) : List Text := c.items.filterMap Item.argument?

def argQuoting (c : Command) : List Bool := c.items.filterMap Item.quoting?

/-- The values bound to options, in order. -/
def bindings (c : Command) : List (Text × Text) := c.items.filterMap Item.binding?

/-- The options that a value is bound to. -/
def optionNames (c : Command) : List Text := Text.sortedSet (c.bindings.map (·.1))

/-- All values bound to an option, oldest first. -/
def optionValues (c : Command) (option : Text) : List Text :=
  (c.bindings.filter (·.1 = option)).map (·.2)

/-- The value of an option: the one bound to it last. -/
def option? (c : Command) (option : Text) : Option Text :=
  c.bindings.reverse.lookup option

def flags (c : Command) : List Text := Text.sortedSet (c.items.flatMap Item.flags)

def hasFlag (c : Command) (flag : Text) : Bool := c.flags.contains flag

/-- The words handed to a program. -/
def argv (c : Command) : List Text := c.items.map Item.word

/-! ## How the views hang together -/

theorem length_argQuoting (c : Command) : c.argQuoting.length = c.args.length := by
  simp only [argQuoting, args]
  induction c.items with
  | nil => rfl
  | cons i is ih =>
    cases i with
    | argument value quoted => exact congrArg (· + 1) ih
    | binding | flag | endOfOptions => exact ih

/-- The arguments are among the words handed to a program, in order. -/
theorem args_sublist_argv (c : Command) : c.args.Sublist c.argv := by
  simp only [args, argv]
  induction c.items with
  | nil => exact .slnil
  | cons i is ih =>
    cases i with
    | argument value quoted => exact ih.cons_cons value
    | binding | flag | endOfOptions => exact ih.cons _

section

variable {c d : Command} (h : c.bindings = d.bindings)
include h

/-! Commands with the same bindings have the same values for the same options. -/

theorem optionNames_congr : c.optionNames = d.optionNames := by
  rw [optionNames, optionNames, h]

theorem option?_congr (option : Text) : c.option? option = d.option? option := by
  rw [option?, option?, h]

theorem optionValues_congr (option : Text) : c.optionValues option = d.optionValues option := by
  rw [optionValues, optionValues, h]

end

/-- The value of an option is the last of those bound to it. -/
theorem option?_eq_getLast? (c : Command) (option : Text) :
    c.option? option = (c.optionValues option).getLast? := by
  rw [option?, optionValues, List.getLast?_eq_head?_reverse, ← List.map_reverse,
    ← List.filter_reverse]
  induction c.bindings.reverse with
  | nil => rfl
  | cons b bs ih =>
    obtain ⟨key, value⟩ := b
    by_cases h : key = option
    · simp [h]
    · have h' : (option == key) = false := by simpa using fun e => h e.symm
      simp [List.lookup_cons, h, h', ih]

/-- An option has as many values as there are bindings of it. -/
theorem length_optionValues (c : Command) (option : Text) :
    (c.optionValues option).length = (c.bindings.map (·.1)).count option := by
  rw [optionValues, List.length_map, List.count, List.countP_map, List.countP_eq_length_filter]
  congr 2
  funext b
  by_cases h : b.1 = option <;> simp [h]

/-- The options are those that have a value. -/
theorem mem_optionNames {c : Command} {option : Text} :
    option ∈ c.optionNames ↔ c.optionValues option ≠ [] := by
  rw [optionNames, Text.mem_sortedSet, ← List.count_pos_iff, ← length_optionValues,
    List.length_pos_iff]

end Command

end PrefixShell
