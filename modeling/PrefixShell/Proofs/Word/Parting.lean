import PrefixShell.Word

/-!
# Parting tokens into words

The words of a list of tokens, read off from its front: a blank is passed over, and tokens up to the
next blank are a word.

## Main results

* `ofTokens_blank`, `ofTokens_append`, `ofTokens_glued`: what the front of a list does to its words.
* `ofTokens_eq_nil_iff`: only blanks have no words.
* `mem_of_mem_ofTokens`: a word is made of tokens of the list, none of them blank.
-/

namespace PrefixShell.Word

@[simp] theorem ofTokens_nil : ofTokens [] = [] := rfl

theorem ofTokens_blank {t : Token} (ht : t.kind = .blank) (ts : List Token) :
    ofTokens (t :: ts) = ofTokens ts := by
  rw [ofTokens, List.splitOnP_cons_eq_if_modifyHead, if_pos (decide_eq_true ht),
    List.filter_cons_of_neg (by simp)]
  rfl

/-- Tokens without a blank are a word, if a blank follows them or nothing. -/
theorem ofTokens_append {w : Word} {ts : List Token} (hne : w ≠ [])
    (hw : ∀ t ∈ w, t.kind ≠ .blank) (hts : ∀ t ∈ ts.head?, t.kind = .blank) :
    ofTokens (w ++ ts) = w :: ofTokens ts := by
  have hsolid : ∀ t ∈ w, decide (t.kind = .blank) = false := by
    intro t ht
    exact decide_eq_false (hw t ht)
  cases ts with
  | nil =>
      rw [List.append_nil, ofTokens, List.splitOnP_eq_singleton hsolid,
        List.filter_cons_of_pos (by simp [hne])]
      rfl
  | cons b ts =>
      have hb : b.kind = .blank := hts b rfl
      rw [ofTokens_blank hb, ofTokens,
        List.splitOnP_append_cons_of_forall_mem hsolid b (decide_eq_true hb),
        List.filter_cons_of_pos (by simp [hne])]
      rfl

/-- A token in front of one that is not a blank belongs to the same word. -/
theorem ofTokens_glued {x t : Token} (hx : x.kind ≠ .blank) (ht : t.kind ≠ .blank)
    (ts : List Token) :
    ofTokens (x :: t :: ts) = (ofTokens (t :: ts)).modifyHead (x :: ·) := by
  obtain ⟨w, ws, hsplit⟩ := List.exists_cons_of_ne_nil
    (List.splitOnP_ne_nil (fun t : Token => decide (t.kind = .blank)) ts)
  have hfirst : (t :: ts).splitOnP (·.kind = .blank) = (t :: w) :: ws := by
    rw [List.splitOnP_cons_eq_if_modifyHead, if_neg (by simp [ht]), hsplit, List.modifyHead_cons]
  rw [ofTokens, ofTokens, List.splitOnP_cons_eq_if_modifyHead, if_neg (by simp [hx]), hfirst,
    List.modifyHead_cons, List.filter_cons_of_pos (by simp), List.filter_cons_of_pos (by simp),
    List.modifyHead_cons]

/-- A token that is not a blank begins a word. -/
theorem ofTokens_cons_ne_nil {t : Token} (ht : t.kind ≠ .blank) (ts : List Token) :
    ofTokens (t :: ts) ≠ [] := by
  rw [ofTokens, List.splitOnP_cons_eq_if_modifyHead, if_neg (by simp [ht])]
  obtain ⟨w, ws, hsplit⟩ := List.exists_cons_of_ne_nil
    (List.splitOnP_ne_nil (fun t : Token => decide (t.kind = .blank)) ts)
  rw [hsplit, List.modifyHead_cons, List.filter_cons_of_pos (by simp)]
  exact List.cons_ne_nil _ _

/-- Only blanks have no words. -/
theorem ofTokens_eq_nil_iff {ts : List Token} :
    ofTokens ts = [] ↔ ∀ t ∈ ts, t.kind = .blank := by
  induction ts with
  | nil => simp
  | cons t ts ih =>
      by_cases ht : t.kind = .blank
      · rw [ofTokens_blank ht, ih, List.forall_mem_cons]
        exact (and_iff_right ht).symm
      · refine iff_of_false (ofTokens_cons_ne_nil ht ts) ?_
        intro hall
        exact ht (hall t List.mem_cons_self)

private theorem mem_of_mem_splitOnP {w : Word} {ts : List Token}
    (hw : w ∈ ts.splitOnP (·.kind = .blank)) : ∀ t ∈ w, t ∈ ts ∧ t.kind ≠ .blank := by
  induction ts generalizing w with
  | nil =>
      rw [List.splitOnP_nil, List.mem_singleton] at hw
      simp [hw]
  | cons b ts ih =>
      rw [List.splitOnP_cons_eq_if_modifyHead] at hw
      split at hw
      · rcases List.mem_cons.1 hw with rfl | hw
        · simp
        · intro t ht
          exact ⟨List.mem_cons_of_mem b (ih hw t ht).1, (ih hw t ht).2⟩
      · rename_i hb
        have hb : b.kind ≠ .blank := by simpa using hb
        obtain ⟨v, vs, hsplit⟩ := List.exists_cons_of_ne_nil
          (List.splitOnP_ne_nil (fun t : Token => decide (t.kind = .blank)) ts)
        rw [hsplit] at hw ih
        rw [List.modifyHead_cons] at hw
        intro t ht
        rcases List.mem_cons.1 hw with rfl | hw
        · rcases List.mem_cons.1 ht with rfl | ht
          · exact ⟨List.mem_cons_self, hb⟩
          · have hv := ih List.mem_cons_self t ht
            exact ⟨List.mem_cons_of_mem b hv.1, hv.2⟩
        · have hv := ih (List.mem_cons_of_mem v hw) t ht
          exact ⟨List.mem_cons_of_mem b hv.1, hv.2⟩

/-- A word is made of tokens of the list, none of them blank. -/
theorem mem_of_mem_ofTokens {w : Word} {ts : List Token} (hw : w ∈ ofTokens ts) :
    w ≠ [] ∧ ∀ t ∈ w, t ∈ ts ∧ t.kind ≠ .blank := by
  obtain ⟨hsplit, hkept⟩ := List.mem_filter.1 hw
  exact ⟨by simpa using hkept, mem_of_mem_splitOnP hsplit⟩

end PrefixShell.Word
