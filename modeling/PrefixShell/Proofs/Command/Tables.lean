import Mathlib.Data.Finset.Basic
import Mathlib.Data.List.Induction
import PrefixShell.Proofs.Command.Terminator
import PrefixShell.Proofs.Command.BareLine

/-!
# The tables of a command

What can be asked of a command is read off the list of what was given after its name.  It can as well
be collected in tables, item by item: an argument is entered in three of them, a value in three others.
That the tables agree with each other is the invariant `Consistent`.  No item that a line can have breaks
it, in whatever order the items come, since no option is spelled with a `=`: where a spelling has one,
it is cut there.

## Main results

* `Tables.Consistent.record`, `Tables.consistent_filled`: the invariant, for an item and for any number.
* `tables_eq_filled`: the views of a command are the tables that its items fill.
* `Part.origin_of_mem_ofWords`: how the options and flags among the words are spelled.
* `parse_consistent`: the tables of every command agree, and its flags are single ones.
-/

namespace PrefixShell

namespace Command

/-- What can be asked of a command, as tables. -/
structure Tables where
  args : List Text := []
  argQuoting : List Bool := []
  /-- The last value of each option. -/
  options : Text → Option Text := fun _ => none
  /-- All values of each option, oldest first. -/
  multiOptions : Text → Option (List Text) := fun _ => none
  flags : Finset Text := ∅
  argv : List Text := []

namespace Tables

/-! ## Filling tables -/

/-- Enters an item. -/
def record (t : Tables) : Item → Tables
  | .argument value quoted =>
    { t with
      args := t.args ++ [value]
      argQuoting := t.argQuoting ++ [quoted]
      argv := t.argv ++ [value] }
  | .binding option value =>
    { t with
      options := Function.update t.options option (some value)
      multiOptions := Function.update t.multiOptions option
        (some ((t.multiOptions option).getD [] ++ [value]))
      argv := t.argv ++ [option ++ '=' :: value] }
  | .flag spelling =>
    { t with
      flags := t.flags ∪ (Item.flagsOf spelling).toFinset
      argv := t.argv ++ [spelling] }
  | .endOfOptions => { t with argv := t.argv ++ [['-', '-']] }

/-- Enters items, one after the other. -/
def filled (items : List Item) : Tables := items.foldl record {}

/-- What it is for tables to agree with each other. -/
structure Consistent (t : Tables) : Prop where
  length_argQuoting : t.argQuoting.length = t.args.length
  args_sublist_argv : t.args.Sublist t.argv
  /-- An option has a value if it has values. -/
  isSome_options : ∀ k, (t.options k).isSome = (t.multiOptions k).isSome
  /-- An option that has values has one at least, and the last of them is its value. -/
  last_value : ∀ k values, t.multiOptions k = some values →
    values ≠ [] ∧ t.options k = values.getLast?
  equals_notMem_option : ∀ k, (t.options k).isSome = true → '=' ∉ k
  equals_notMem_flag : ∀ f ∈ t.flags, '=' ∉ f

end Tables

end Command

/-- Whether an item is spelled without a `=`, if it is an option or a flag. -/
def Item.NoEquals : Item → Prop
  | .binding option _ => '=' ∉ option
  | .flag spelling => '=' ∉ spelling
  | .argument _ _ | .endOfOptions => True

theorem Item.equals_notMem_flagsOf {spelling f : Text} (h : '=' ∉ spelling)
    (hf : f ∈ Item.flagsOf spelling) : '=' ∉ f := by
  unfold flagsOf at hf
  split at hf
  · rename_i c d cluster
    split at hf
    · rwa [List.mem_singleton.1 hf]
    · obtain ⟨letter, hletter, rfl⟩ := List.mem_map.1 hf
      intro hmem
      have heq : '=' = letter := by simpa using hmem
      exact h (heq ▸ List.mem_cons_of_mem _ hletter)
  · rwa [List.mem_singleton.1 hf]

namespace Command

namespace Tables

theorem consistent_empty : Consistent {} where
  length_argQuoting := rfl
  args_sublist_argv := .slnil
  isSome_options := fun _ => rfl
  last_value := nofun
  equals_notMem_option := nofun
  equals_notMem_flag := by simp

variable {t : Tables}

/-- Entering an item keeps the tables in agreement. -/
theorem Consistent.record (h : t.Consistent) {i : Item} (hi : i.NoEquals) :
    (t.record i).Consistent := by
  cases i with
  | argument value quoted =>
      exact
        { h with
          length_argQuoting := by simp [Tables.record, h.length_argQuoting]
          args_sublist_argv := h.args_sublist_argv.append (.refl [value]) }
  | binding option value =>
      refine
        { h with
          args_sublist_argv := h.args_sublist_argv.trans (List.sublist_append_left _ _)
          isSome_options := ?_
          last_value := ?_
          equals_notMem_option := ?_ }
      · intro k
        by_cases hk : k = option
        · subst hk
          simp [Tables.record]
        · simpa [Tables.record, hk] using h.isSome_options k
      · intro k values hvalues
        by_cases hk : k = option
        · subst hk
          simp only [Tables.record, Function.update_self, Option.some.injEq] at hvalues ⊢
          subst hvalues
          simp
        · simp only [Tables.record, Function.update_of_ne hk] at hvalues ⊢
          exact h.last_value k values hvalues
      · intro k hsome
        by_cases hk : k = option
        · exact hk ▸ hi
        · simp only [Tables.record, Function.update_of_ne hk] at hsome
          exact h.equals_notMem_option k hsome
  | flag spelling =>
      refine
        { h with
          args_sublist_argv := h.args_sublist_argv.trans (List.sublist_append_left _ _)
          equals_notMem_flag := ?_ }
      intro f hf
      rcases Finset.mem_union.1 hf with hf | hf
      · exact h.equals_notMem_flag f hf
      · exact Item.equals_notMem_flagsOf hi (List.mem_toFinset.1 hf)
  | endOfOptions =>
      exact
        { h with
          args_sublist_argv := h.args_sublist_argv.trans (List.sublist_append_left _ _) }

/-- Tables that are filled with items agree, if these are spelled without a `=`. -/
theorem consistent_filled {items : List Item} (hitems : ∀ i ∈ items, i.NoEquals) :
    (filled items).Consistent := by
  induction items using List.reverseRecOn with
  | nil => exact consistent_empty
  | append_singleton items i ih =>
      obtain ⟨hitems, hi⟩ := List.forall_mem_append.1 hitems
      rw [filled, List.foldl_append]
      exact (ih hitems).record (hi i List.mem_cons_self)

end Tables

/-! ## The views as tables -/

/-- All values of an option, if there are any. -/
def multiOption? (c : Command) (option : Text) : Option (List Text) :=
  if option ∈ c.optionNames then some (c.optionValues option) else none

/-- What can be asked of a command. -/
def tables (c : Command) : Tables where
  args := c.args
  argQuoting := c.argQuoting
  options := c.option?
  multiOptions := c.multiOption?
  flags := c.flags.toFinset
  argv := c.argv

/-- A command with one more item. -/
def concat (c : Command) (i : Item) : Command := { c with items := c.items ++ [i] }

variable (c : Command)

theorem multiOption?_eq (option : Text) :
    c.multiOption? option =
      if c.optionValues option = [] then none else some (c.optionValues option) := by
  rw [multiOption?]
  by_cases h : c.optionValues option = []
  · rw [if_pos h, if_neg (mt mem_optionNames.1 (not_not_intro h))]
  · rw [if_neg h, if_pos (mem_optionNames.2 h)]

theorem toFinset_flags : c.flags.toFinset = (c.items.flatMap Item.flags).toFinset := by
  ext f
  rw [List.mem_toFinset, List.mem_toFinset, flags, Text.mem_sortedSet]

theorem toFinset_flags_concat (i : Item) :
    (c.concat i).flags.toFinset = c.flags.toFinset ∪ i.flags.toFinset := by
  rw [toFinset_flags, toFinset_flags, concat, List.flatMap_append, List.flatMap_singleton,
    List.toFinset_append]

/-- An item that binds nothing makes no difference to the options. -/
theorem options_concat_of_none {i : Item} (hi : i.binding? = none) :
    (c.concat i).option? = c.option? ∧ (c.concat i).multiOption? = c.multiOption? := by
  have hbindings : (c.concat i).bindings = c.bindings := by
    simp [bindings, concat, hi]
  constructor <;> funext option
  · exact option?_congr hbindings option
  · rw [multiOption?, multiOption?, optionNames_congr hbindings, optionValues_congr hbindings]

/-- A binding is the last one of its option, and no matter to the others. -/
theorem options_concat_binding (option value : Text) :
    (c.concat (.binding option value)).option? =
        Function.update c.option? option (some value) ∧
      (c.concat (.binding option value)).multiOption? =
        Function.update c.multiOption? option
          (some ((c.multiOption? option).getD [] ++ [value])) := by
  have hbindings : (c.concat (.binding option value)).bindings = c.bindings ++ [(option, value)] := by
    simp [bindings, concat, Item.binding?]
  have hvalues (k : Text) : (c.concat (.binding option value)).optionValues k =
      c.optionValues k ++ if option = k then [value] else [] := by
    rw [optionValues, optionValues, hbindings, List.filter_append, List.map_append]
    by_cases hk : option = k <;> simp [hk]
  have hgetD : (c.multiOption? option).getD [] = c.optionValues option := by
    rw [multiOption?_eq]
    by_cases h : c.optionValues option = [] <;> simp [h]
  constructor <;> funext k <;> by_cases hk : k = option
  · subst hk
    rw [option?_eq_getLast?, hvalues, if_pos rfl, Function.update_self, List.getLast?_concat]
  · rw [option?_eq_getLast?, hvalues, if_neg (Ne.symm hk), Function.update_of_ne hk,
      option?_eq_getLast?, List.append_nil]
  · subst hk
    rw [multiOption?_eq, hvalues, if_pos rfl, if_neg (List.concat_ne_nil _ _),
      Function.update_self, hgetD]
  · rw [multiOption?_eq, hvalues, if_neg (Ne.symm hk), Function.update_of_ne hk, multiOption?_eq,
      List.append_nil]

/-- The tables of a command with one more item are its tables with this item entered. -/
theorem tables_concat (i : Item) : (c.concat i).tables = c.tables.record i := by
  have hargs : (c.concat i).args = c.args ++ i.argument?.toList := by
    rw [args, concat, List.filterMap_append, List.filterMap_eq_flatMap_toList _ [i],
      List.flatMap_singleton, args]
  have hquoting : (c.concat i).argQuoting = c.argQuoting ++ i.quoting?.toList := by
    rw [argQuoting, concat, List.filterMap_append, List.filterMap_eq_flatMap_toList _ [i],
      List.flatMap_singleton, argQuoting]
  have hargv : (c.concat i).argv = c.argv ++ [i.word] := List.map_append
  have hnone := c.options_concat_of_none (i := i)
  rw [tables, hargs, hquoting, hargv, toFinset_flags_concat]
  cases i with
  | binding option value =>
      obtain ⟨hoptions, hmulti⟩ := c.options_concat_binding option value
      rw [hoptions, hmulti]
      simp [tables, Tables.record, Item.argument?, Item.quoting?, Item.flags, Item.word]
  | argument | flag | endOfOptions =>
      obtain ⟨hoptions, hmulti⟩ := hnone rfl
      rw [hoptions, hmulti]
      simp [tables, Tables.record, Item.argument?, Item.quoting?, Item.flags, Item.word]

/-- What can be asked of a command are the tables that its items fill. -/
theorem tables_eq_filled : c.tables = Tables.filled c.items := by
  obtain ⟨name, resolved, items, rawInput⟩ := c
  induction items using List.reverseRecOn with
  | nil =>
      have hmulti : (⟨name, resolved, [], rawInput⟩ : Command).multiOption? = fun _ => none := by
        funext option
        rw [multiOption?_eq]
        rfl
      rw [tables, hmulti, toFinset_flags]
      rfl
  | append_singleton items i ih =>
      rw [Tables.filled, List.foldl_append, ← Tables.filled, ← ih]
      exact tables_concat ⟨name, resolved, items, rawInput⟩ i

end Command

/-! ## How options and flags are spelled -/

namespace Part

theorem equals_notMem_of_split_eq_none {t : Text} (h : splitAtEquals? t = none) : '=' ∉ t := by
  unfold splitAtEquals? at h
  split at h
  · rename_i hdrop
    intro hmem
    simpa using List.dropWhile_eq_nil_iff.1 hdrop '=' hmem
  · cases h

theorem equals_notMem_of_split_eq_some {t option typed : Text}
    (h : splitAtEquals? t = some (option, typed)) : '=' ∉ option := by
  unfold splitAtEquals? at h
  split at h
  · cases h
  · cases h
    exact Lexeme.equals_notMem_takeWhile _ (by decide) t

/-- How a part comes from words: an option is spelled without a `=`, and a flag is an option by itself
and no `--`. -/
inductive Origin (ws : List Word) : Part → Prop
  | positional (w : Word) : Origin ws (.positional w)
  | binding {option typed : Text} {value : Word} (hspelled : '=' ∉ option) :
      Origin ws (.binding option typed value)
  | flag {t : Token} (hmem : [t] ∈ ws) (hkind : t.kind = .option) (hspelled : '=' ∉ t.literal)
      (hend : t.literal ≠ ['-', '-']) : Origin ws (.flag t.literal)
  | endOfOptions : Origin ws .endOfOptions

variable {ws ws' : List Word} {part : Part}

theorem Origin.mono (h : Origin ws part) (hsub : ws ⊆ ws') : Origin ws' part := by
  cases h with
  | positional w => exact .positional w
  | binding hspelled => exact .binding hspelled
  | flag hmem hkind hspelled hend => exact .flag (hsub hmem) hkind hspelled hend
  | endOfOptions => exact .endOfOptions

/-- An option is cut at its first `=`, or it has none. -/
theorem origin_of_ofOption {k : Token} {glued : Word} {left : List Word} (hkind : k.kind = .option)
    (hend : ¬(k.literal = ['-', '-'] ∧ glued = []))
    (h : ofOption k.literal glued ws = some (part, left)) : Origin ((k :: glued) :: ws) part := by
  cases hsplit : splitAtEquals? k.literal with
  | some split =>
      obtain ⟨option, typed⟩ := split
      have hspelled := equals_notMem_of_split_eq_some hsplit
      simp only [ofOption, hsplit] at h
      cases h
      exact .binding hspelled
  | none =>
      have hspelled := equals_notMem_of_split_eq_none hsplit
      obtain ⟨taken, -, hmade⟩ := madeOf_ofOption hkind hspelled hend h
      cases hmade with
      | positional => exact .positional _
      | flag _ hname => exact .flag List.mem_cons_self hkind hspelled hname
      | joined | spaced => exact .binding hspelled

theorem origin_of_mem_ofWords : ∀ part ∈ ofWords ws, Origin ws part := by
  have htail {w : Word} {us : List Word} {parts : List Part}
      (ih : ∀ part ∈ parts, Origin us part) : ∀ part ∈ parts, Origin (w :: us) part :=
    fun part hpart => (ih part hpart).mono (List.subset_cons_self w us)
  fun_induction ofWords ws with
  | case1 => exact fun _ hpart => absurd hpart List.not_mem_nil
  | case2 ws ih => exact List.forall_mem_cons.2 ⟨.positional _, htail ih⟩
  | case3 t glued ws hkind ih => exact List.forall_mem_cons.2 ⟨.positional _, htail ih⟩
  | case4 t glued ws hkind hend =>
      refine List.forall_mem_cons.2 ⟨.endOfOptions, List.forall_mem_map.2 ?_⟩
      exact fun w _ => .positional w
  | case5 t glued ws hkind hend part left h hle ih =>
      have hfirst := origin_of_ofOption (Decidable.not_not.1 hkind) hend h
      have hleft : left ⊆ ws := (suffix_of_ofOption h).subset
      exact List.forall_mem_cons.2 ⟨hfirst, htail fun part hpart => (ih part hpart).mono hleft⟩
  | case6 t glued ws hkind hend h ih => exact List.forall_mem_cons.2 ⟨.positional _, htail ih⟩

end Part

/-- No item of a part is spelled with a `=`. -/
theorem Part.Origin.noEquals {ws : List Word} {part : Part} (h : part.Origin ws) (e : Expansion)
    (matching : Text → List Text) : ∀ i ∈ Item.ofPart e matching part, i.NoEquals := by
  cases h with
  | positional w =>
      rw [Item.ofPart_positional]
      exact List.forall_mem_map.2 fun _ _ => trivial
  | binding hspelled => exact List.forall_mem_singleton.2 hspelled
  | flag _ _ hspelled => exact List.forall_mem_singleton.2 hspelled
  | endOfOptions => exact List.forall_mem_singleton.2 trivial

/-- A flag that is not a cluster: a `-` with one letter or digit, or a `--` with a name. -/
inductive Item.SingleFlag : Text → Prop
  | short {c : Char} (hc : Text.isAlphanumeric c = true) : SingleFlag ['-', c]
  | long (c : Char) (name : Text) : SingleFlag ('-' :: '-' :: c :: name)

theorem Rendering.Spelling.singleFlag_of_mem_flags (k : Rendering.Spelling)
    (hend : k.text ≠ ['-', '-']) : ∀ f ∈ k.flags, Item.SingleFlag f := by
  cases k with
  | long name valid =>
      cases name with
      | nil => exact absurd rfl hend
      | cons c name => exact List.forall_mem_singleton.2 (.long c name)
  | short first others valid => exact List.forall_mem_map.2 fun c hc => .short (valid c hc)

/-- No character that ends a word begins an option. -/
theorem Lexeme.endsWord_of_kind_eq_option {c : Char} {t : Text} :
    (first c t).lexeme.kind = .option → endsWord c = false := by
  apply first_cases (P := fun r => r.lexeme.kind = .option → endsWord c = false) c t
  case blank =>
    intro _ h
    cases h
  case newline =>
    intro _ h
    cases h
  case double =>
    intro _ h
    cases hclosed : (doubleQuoted t).closed <;> simp [ofBody, hclosed] at h
  case single =>
    intro _ h
    cases hclosed : (singleQuoted t).closed <;> simp [ofBody, hclosed] at h
  case dollar =>
    intro _ h
    unfold ofDollar at h
    split at h <;> split at h <;> cases h
  case equals =>
    intro _ h
    cases h
  case dash =>
    rintro rfl _
    decide
  case word => exact fun hends _ _ => hends

/-- An option that a line has is the spelling of one. -/
theorem Token.exists_spelling_of_mem {line : Text} {t : Token} (ht : t ∈ Token.ofLine line)
    (hkind : t.kind = .option) : ∃ k : Rendering.Spelling, k.text = t.literal := by
  rcases Token.exists_first_of_mem ht with ⟨c, rest, place, rfl⟩ | ⟨place, rfl⟩
  · have hc : Lexeme.endsWord c = false := Lexeme.endsWord_of_kind_eq_option hkind
    obtain ⟨k, hk⟩ := Lexeme.exists_spelling hc hkind
    exact ⟨k, hk.trans (Lexeme.first_literal hc rest).literal_eq.symm⟩
  · cases hkind

namespace Command

variable {e : Expansion} {matching : Text → List Text} {ts : List Token} {c : Command}

/-- The tables of a command agree with each other, and are those that its items fill.  If it is read
from tokens of lines, its flags are single ones. -/
theorem parse_consistent (h : parse e matching ts = .ok (some c)) :
    c.tables = Tables.filled c.items ∧ c.tables.Consistent ∧
      ((∀ t ∈ ts, ∃ line, t ∈ Token.ofLine line) → ∀ f ∈ c.tables.flags, Item.SingleFlag f) := by
  obtain ⟨-, first, rest, hwords, rfl⟩ := parse_eq_some_iff.1 h
  have horigin : ∀ part ∈ Part.ofWords rest, part.Origin rest := Part.origin_of_mem_ofWords
  refine ⟨tables_eq_filled _, ?_, ?_⟩
  · rw [tables_eq_filled]
    refine Tables.consistent_filled fun i hi => ?_
    obtain ⟨part, hpart, hi⟩ := List.mem_flatMap.1 hi
    exact (horigin part hpart).noEquals e matching i hi
  · intro hlines f hf
    rw [tables, toFinset_flags, flatMap_flags_ofParts, List.mem_toFinset] at hf
    obtain ⟨part, hpart, hf⟩ := List.mem_flatMap.1 hf
    cases horigin part hpart with
    | positional | binding | endOfOptions => cases hf
    | @flag t hmem hkind hspelled hend =>
        have ht : t ∈ readable ts := by
          have hword : [t] ∈ Word.ofTokens (readable ts) := hwords ▸ List.mem_cons_of_mem first hmem
          exact ((Word.mem_of_mem_ofTokens hword).2 t List.mem_cons_self).1
        obtain ⟨line, hline⟩ := hlines t ((List.takeWhile_sublist _).subset ht)
        obtain ⟨k, hk⟩ := Token.exists_spelling_of_mem hline hkind
        have hflags : f ∈ k.flags := by
          rw [← k.flagsOf_text, hk]
          exact hf
        exact k.singleFlag_of_mem_flags (hk ▸ hend) f hflags

/-- A line with flags, a cluster, an option that is given twice, and a `--`. -/
def repeatedOption : Text := "cp -vf --to=/a --deep x --to = /b -- --to=/c".toList

theorem parse_repeatedOption :
    ∃ c, parse ⟨fun _ => none, [], true⟩ (fun _ => []) (Token.ofLine repeatedOption) = .ok (some c) ∧
      (∀ t ∈ Token.ofLine repeatedOption, ∃ line, t ∈ Token.ofLine line) ∧
      c.tables.Consistent ∧ (∀ f ∈ c.tables.flags, Item.SingleFlag f) ∧
      c.tables.multiOptions "--to".toList = some ["/a".toList, "/b".toList] ∧
      c.tables.options "--to".toList = some "/b".toList ∧
      c.flags = ["--deep".toList, "-f".toList, "-v".toList] := by
  obtain ⟨c, hread, hmulti, hoption, hflags⟩ : ∃ c,
      parse ⟨fun _ => none, [], true⟩ (fun _ => []) (Token.ofLine repeatedOption) = .ok (some c) ∧
        c.multiOption? "--to".toList = some ["/a".toList, "/b".toList] ∧
        c.option? "--to".toList = some "/b".toList ∧
        c.flags = ["--deep".toList, "-f".toList, "-v".toList] :=
    ⟨_, by cbv, by cbv, by cbv, by cbv⟩
  have hlines : ∀ t ∈ Token.ofLine repeatedOption, ∃ line, t ∈ Token.ofLine line :=
    fun t ht => ⟨repeatedOption, ht⟩
  obtain ⟨-, hconsistent, hsingle⟩ := parse_consistent hread
  exact ⟨c, hread, hlines, hconsistent, hsingle hlines, hmulti, hoption, hflags⟩

end Command

end PrefixShell
