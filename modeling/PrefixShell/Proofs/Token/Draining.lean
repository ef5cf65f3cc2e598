import PrefixShell.Proofs.Token.Partition

/-!
# Draining a lexer

A lexer can be asked in two ways, and the two can be mixed.  Whatever is asked, the tokens come one
after the other as if there were only one way: those answered so far and those still to come are the
tokens of the line.  The two ways differ at the end alone.  `nextToken` answers it as often as it is
asked, while `next` and `tokens` answer it once between them, and whether `nextToken` has done so before
makes no difference to them.

What a single call can do is `Move`: it takes a token, or finds the text used up.  There is no case for a
fault, since a fault takes the rest of the text with it, nor one for tokens that are left once the
iteration is over, since it is over at the end of the text only.

## Main results

* `move_ask`: what a call comes to.
* `Kept.move`, `Kept.replay`: the invariant of a lexer that is asked, for a call and for any number.
* `replay_accounts`: whatever is asked, nothing is lost, and the iteration ends once.
-/

namespace PrefixShell

/-- The tokens that are not the end of the text. -/
def Token.proper (ts : List Token) : List Token := ts.filter (·.kind ≠ .eof)

namespace Token

theorem proper_append (ts us : List Token) : proper (ts ++ us) = proper ts ++ proper us :=
  List.filter_append ts us

theorem proper_cons_of_ne {t : Token} (h : t.kind ≠ .eof) (ts : List Token) :
    proper (t :: ts) = t :: proper ts :=
  List.filter_cons_of_pos (by simpa using h)

/-- A text has its proper tokens and after them its end. -/
theorem tokensFrom_eq (p : Position) (text : Text) :
    tokensFrom p text = proper (tokensFrom p text) ++ [eofAt (p.advanceBy text)] := by
  obtain ⟨body, hbody, hall⟩ := tokensFrom_ends p text
  have hproper : proper body = body :=
    List.filter_eq_self.2 fun t ht => by simpa using (hall t ht).1
  have hend : proper [eofAt (p.advanceBy text)] = [] := rfl
  rw [hbody, proper_append, hproper, hend, List.append_nil]

/-- Among the tokens of a text its end is told by its kind. -/
theorem eq_eofAt_of_mem {p : Position} {text : Text} {t : Token} (ht : t ∈ tokensFrom p text)
    (heof : t.kind = .eof) : t = eofAt (p.advanceBy text) := by
  rw [tokensFrom_eq] at ht
  rcases List.mem_append.1 ht with ht | ht
  · exact absurd heof (by simpa using (List.mem_filter.1 ht).2)
  · exact List.mem_singleton.1 ht

theorem countP_eof_tokensFrom (p : Position) (text : Text) :
    (tokensFrom p text).countP (·.kind = .eof) = 1 := by
  have hproper : (proper (tokensFrom p text)).countP (·.kind = .eof) = 0 :=
    List.countP_eq_zero.2 fun t ht => by simpa using (List.mem_filter.1 ht).2
  rw [tokensFrom_eq, List.countP_append, hproper]
  rfl

/-- Only an empty text has no proper tokens. -/
theorem eq_nil_of_proper_eq_nil {p : Position} {text : Text}
    (h : proper (tokensFrom p text) = []) : text = [] := by
  cases text with
  | nil => rfl
  | cons c t =>
      rw [tokensFrom_cons, proper_cons_of_ne (Lexeme.first_kind_ne_eof c t)] at h
      cases h

end Token

namespace Lexer

/-! ## What is left to iterate over -/

theorem next_eq_none_iff (l : Lexer) : l.next.1 = none ↔ l.ended = true := by
  rw [next]
  cases l.ended <;> simp

theorem mem_tokensFrom_of_mem_tokens {l : Lexer} {t : Token} (ht : t ∈ l.tokens) :
    t ∈ Token.tokensFrom l.place l.rest := by
  rw [tokens] at ht
  split at ht
  · cases ht
  · exact ht

theorem tokens_eq_nil_iff (l : Lexer) : l.tokens = [] ↔ l.ended = true := by
  rw [tokens]
  cases l.ended with
  | true => simp
  | false =>
      rw [Token.tokensFrom_eq]
      simp

/-! ## Calls -/

/-- A way to ask a lexer for a token. -/
inductive Call where
  | next
  | nextToken
deriving DecidableEq

/-- A call and what was answered to it. -/
structure Answer where
  call : Call
  token? : Option Token
deriving DecidableEq

/-- What is answered to a call, and the lexer after it. -/
def ask (l : Lexer) : Call → Option Token × Lexer
  | .next => l.next
  | .nextToken => (some l.nextToken.1, l.nextToken.2)

/-- What is answered to calls, one after the other, and the lexer after them. -/
def replay (l : Lexer) : List Call → List Answer × Lexer
  | [] => ([], l)
  | call :: calls =>
    let (token?, l') := l.ask call
    let (answers, l'') := replay l' calls
    (⟨call, token?⟩ :: answers, l'')

/-- The tokens answered. -/
def answered (answers : List Answer) : List Token := answers.filterMap Answer.token?

/-- Whether `next` has answered the end of the text. -/
def Answer.endsIteration (a : Answer) : Bool :=
  a.call = .next && a.token?.any (·.kind = .eof)

/-- What a call does to a lexer: it takes a token, or else the text is used up. -/
inductive Move : Lexer → Call → Option Token → Lexer → Prop
  | token (c : Char) (t : Text) (p : Position) (call : Call) :
      Move ⟨c :: t, p, false⟩ call (some ((Lexeme.first c t).lexeme.at p))
        ⟨(Lexeme.first c t).rest, p.advanceBy (Lexeme.first c t).lexeme.raw, false⟩
  | ending (p : Position) : Move ⟨[], p, false⟩ .next (some (Token.eofAt p)) ⟨[], p, true⟩
  | nothing (p : Position) : Move ⟨[], p, true⟩ .next none ⟨[], p, true⟩
  | again (p : Position) (ended : Bool) :
      Move ⟨[], p, ended⟩ .nextToken (some (Token.eofAt p)) ⟨[], p, ended⟩

/-- If nothing is left to read once the iteration is over, a call is one of these moves. -/
theorem move_ask {l : Lexer} (hended : l.ended = true → l.rest = []) (call : Call) :
    Move l call (l.ask call).1 (l.ask call).2 := by
  obtain ⟨rest, p, ended⟩ := l
  cases rest with
  | nil =>
      cases call with
      | nextToken => exact .again p ended
      | next =>
          cases ended with
          | false => exact .ending p
          | true => exact .nothing p
  | cons c t =>
      have hgoes : ended = false := by
        cases ended with
        | false => rfl
        | true => cases hended rfl
      subst hgoes
      have hmove := Move.token c t p call
      cases call with
      | nextToken => exact hmove
      | next =>
          have hkind : decide ((Lexeme.first c t).lexeme.kind = .eof) = false :=
            decide_eq_false (Lexeme.first_kind_ne_eof c t)
          show Move _ .next _ ⟨_, _, decide ((Lexeme.first c t).lexeme.kind = .eof)⟩
          rw [hkind]
          exact hmove

/-! ## The invariant -/

/-- What holds of a lexer that has been asked: it is in the middle of the line, or at the end of it,
and the answers account for all that is not left. -/
structure Kept (line : Text) (calls : List Call) (answers : List Answer) (l : Lexer) : Prop where
  place : l.place.advanceBy l.rest = .after line
  rest_of_ended : l.ended = true → l.rest = []
  conserves : Token.proper (answered answers) ++ Token.proper (Token.tokensFrom l.place l.rest) =
    Token.proper (Token.ofLine line)
  end_eq : ∀ t ∈ answered answers, t.kind = .eof → t = Token.eofAt (.after line)
  ends : answers.countP Answer.endsIteration = if l.ended then 1 else 0
  ended_of_none : ⟨.next, none⟩ ∈ answers → l.ended = true
  /-- As long as the iteration goes on, each call of `next` has brought a token. -/
  nexts : l.ended = false → calls.count .next ≤ (Token.proper (answered answers)).length

theorem kept_ofLine (line : Text) : Kept line [] [] (ofLine line) where
  place := Position.start_advanceBy line
  rest_of_ended := nofun
  conserves := rfl
  end_eq := nofun
  ends := rfl
  ended_of_none := nofun
  nexts := fun _ => Nat.zero_le _

variable {line : Text} {calls : List Call} {answers : List Answer} {l l' : Lexer}

theorem answered_concat (answers : List Answer) (a : Answer) :
    answered (answers ++ [a]) = answered answers ++ a.token?.toList := by
  rw [answered, List.filterMap_append]
  cases h : a.token? <;> simp [h, answered]

/-- Where the text is used up, its place is the end of the line. -/
theorem Kept.eofAt_place (h : Kept line calls answers l) (hrest : l.rest = []) :
    Token.eofAt l.place = Token.eofAt (.after line) := by
  have hplace := h.place
  rw [hrest, Position.advanceBy_nil] at hplace
  rw [hplace]

theorem Kept.proper_tokens (h : Kept line calls answers l) :
    Token.proper l.tokens = Token.proper (Token.tokensFrom l.place l.rest) := by
  rw [tokens]
  split
  · rename_i hended
    rw [h.rest_of_ended hended, Token.tokensFrom_nil]
    rfl
  · rfl

theorem Kept.countP_eq_one_iff (h : Kept line calls answers l) :
    answers.countP Answer.endsIteration = 1 ↔ l.ended = true := by
  rw [h.ends]
  cases l.ended <;> simp

/-- A call that takes a token keeps the invariant. -/
theorem Kept.read {c : Char} {t : Text} {p : Position} {call : Call}
    (h : Kept line calls answers ⟨c :: t, p, false⟩) :
    Kept line (calls ++ [call]) (answers ++ [⟨call, some ((Lexeme.first c t).lexeme.at p)⟩])
      ⟨(Lexeme.first c t).rest, p.advanceBy (Lexeme.first c t).lexeme.raw, false⟩ := by
  have hkind : ((Lexeme.first c t).lexeme.at p).kind ≠ .eof := Lexeme.first_kind_ne_eof c t
  have hproper :
      Token.proper (answered (answers ++ [⟨call, some ((Lexeme.first c t).lexeme.at p)⟩])) =
        Token.proper (answered answers) ++ [(Lexeme.first c t).lexeme.at p] := by
    rw [answered_concat, Token.proper_append]
    exact congrArg _ (Token.proper_cons_of_ne hkind [])
  refine
    { place := ?_
      rest_of_ended := nofun
      conserves := ?_
      end_eq := ?_
      ends := ?_
      ended_of_none := ?_
      nexts := ?_ }
  · rw [← Position.advanceBy_append, Lexeme.first_raw_append_rest]
    exact h.place
  · have hall := h.conserves
    rw [Token.tokensFrom_cons, Token.proper_cons_of_ne hkind] at hall
    rw [hproper, List.append_assoc]
    exact hall
  · intro u hu heof
    rw [answered_concat] at hu
    rcases List.mem_append.1 hu with hu | hu
    · exact h.end_eq u hu heof
    · rw [List.mem_singleton.1 hu] at heof
      exact absurd heof hkind
  · have hgoes : Answer.endsIteration ⟨call, some ((Lexeme.first c t).lexeme.at p)⟩ = false := by
      simp [Answer.endsIteration, hkind]
    rw [List.countP_append, h.ends, List.countP_singleton, hgoes]
    rfl
  · intro hmem
    rcases List.mem_append.1 hmem with hmem | hmem
    · exact h.ended_of_none hmem
    · cases List.mem_singleton.1 hmem
  · intro _
    have hnexts := h.nexts rfl
    have hone : [call].count .next ≤ 1 := List.count_le_length
    rw [hproper, List.count_append, List.length_append, List.length_singleton]
    omega

/-- A call that finds the text used up keeps the invariant, if `next` then ends the iteration. -/
theorem Kept.used {p : Position} {ended ended' : Bool} (h : Kept line calls answers ⟨[], p, ended⟩)
    (a : Answer) (htoken : ∀ t ∈ a.token?, t = Token.eofAt p)
    (hends : (if ended then 1 else 0) + [a].countP Answer.endsIteration = if ended' then 1 else 0)
    (hstays : ended = true → ended' = true) (hnext : a.call = .next → ended' = true) :
    Kept line (calls ++ [a.call]) (answers ++ [a]) ⟨[], p, ended'⟩ where
  place := h.place
  rest_of_ended := fun _ => rfl
  conserves := by
    have hnothing : Token.proper a.token?.toList = [] := by
      refine List.filter_eq_nil_iff.2 fun t ht => ?_
      simp [htoken t (Option.mem_toList.1 ht), Token.eofAt]
    rw [answered_concat, Token.proper_append, hnothing, List.append_nil]
    exact h.conserves
  end_eq := by
    intro t ht heof
    rw [answered_concat] at ht
    rcases List.mem_append.1 ht with ht | ht
    · exact h.end_eq t ht heof
    · rw [htoken t (Option.mem_toList.1 ht)]
      exact h.eofAt_place rfl
  ends := by
    rw [List.countP_append, h.ends]
    exact hends
  ended_of_none := by
    intro hmem
    rcases List.mem_append.1 hmem with hmem | hmem
    · exact hstays (h.ended_of_none hmem)
    · exact hnext (congrArg Answer.call (List.mem_singleton.1 hmem)).symm
  nexts := by
    intro hgoes
    have hgoes' : ended' = false := hgoes
    have hother : a.call = .nextToken := by
      cases hcall : a.call with
      | nextToken => rfl
      | next => exact absurd (hnext hcall) (by simp [hgoes'])
    have hnexts := h.nexts (by cases ended <;> simp_all)
    rw [hother, List.count_append, answered_concat, Token.proper_append, List.length_append]
    exact Nat.le_trans hnexts (Nat.le_add_right _ _)

/-- A call keeps the invariant. -/
theorem Kept.move (h : Kept line calls answers l) {call : Call} {token? : Option Token}
    (hmove : Move l call token? l') :
    Kept line (calls ++ [call]) (answers ++ [⟨call, token?⟩]) l' := by
  cases hmove with
  | token c t p => exact h.read
  | ending p =>
      refine h.used ⟨.next, some (Token.eofAt p)⟩ ?_ rfl nofun (fun _ => rfl)
      exact fun t ht => (Option.mem_some.1 ht).symm
  | nothing p => exact h.used ⟨.next, none⟩ nofun rfl (fun _ => rfl) (fun _ => rfl)
  | again p ended =>
      refine h.used ⟨.nextToken, some (Token.eofAt p)⟩ ?_ rfl id nofun
      exact fun t ht => (Option.mem_some.1 ht).symm

/-- Any calls keep the invariant. -/
theorem Kept.replay (h : Kept line calls answers l) (more : List Call) :
    Kept line (calls ++ more) (answers ++ (l.replay more).1) (l.replay more).2 := by
  induction more generalizing calls answers l with
  | nil =>
      rw [Lexer.replay, List.append_nil, List.append_nil]
      exact h
  | cons call more ih =>
      have hrest := ih (h.move (move_ask h.rest_of_ended call))
      rw [List.append_assoc, List.append_assoc] at hrest
      exact hrest

/-! ## What is answered -/

/-- What the answers of a lexer and the lexer after them have to do with the line. -/
structure Accounts (line : Text) (calls : List Call) (answers : List Answer) (l : Lexer) : Prop where
  /-- What has been answered and what is still to come are the tokens of the line, in order. -/
  conserves : Token.proper (answered answers) ++ Token.proper l.tokens =
    Token.proper (Token.ofLine line)
  /-- There is only one end of the text, whoever answers it. -/
  end_eq : ∀ t ∈ answered answers ++ l.tokens, t.kind = .eof → t = Token.eofAt (.after line)
  /-- Once the tokens of the line are used up, `nextToken` answers the end and changes nothing. -/
  nextToken_of_usedUp : Token.proper (answered answers) = Token.proper (Token.ofLine line) →
    l.nextToken = (Token.eofAt (.after line), l)
  /-- The iteration answers the end once, be it that `next` has done so or that `tokens` would. -/
  end_once : answers.countP Answer.endsIteration + l.tokens.countP (·.kind = .eof) = 1
  /-- After that there is nothing more to iterate over, and before that there is. -/
  next_eq_none_iff : l.next.1 = none ↔ answers.countP Answer.endsIteration = 1
  tokens_eq_nil_iff : l.tokens = [] ↔ answers.countP Answer.endsIteration = 1
  /-- Where `next` has answered nothing, it has answered the end before. -/
  end_of_none : ⟨.next, none⟩ ∈ answers → answers.countP Answer.endsIteration = 1
  /-- No more calls of `next` than there are tokens bring the iteration to its end. -/
  exhausts : (Token.ofLine line).length ≤ calls.count .next →
    answers.countP Answer.endsIteration = 1

/-- In whichever way a lexer is asked, nothing of the line is lost or answered twice, and the iteration
over it ends once. -/
theorem replay_accounts (line : Text) (calls : List Call) :
    Accounts line calls ((ofLine line).replay calls).1 ((ofLine line).replay calls).2 := by
  have h : Kept line calls ((ofLine line).replay calls).1 ((ofLine line).replay calls).2 :=
    (kept_ofLine line).replay calls
  generalize ((ofLine line).replay calls).1 = answers at h ⊢
  generalize ((ofLine line).replay calls).2 = l at h ⊢
  have hconserves := h.conserves
  rw [← h.proper_tokens] at hconserves
  refine
    { conserves := hconserves
      end_eq := ?_
      nextToken_of_usedUp := ?_
      end_once := ?_
      next_eq_none_iff := (l.next_eq_none_iff).trans h.countP_eq_one_iff.symm
      tokens_eq_nil_iff := (l.tokens_eq_nil_iff).trans h.countP_eq_one_iff.symm
      end_of_none := fun hmem => h.countP_eq_one_iff.2 (h.ended_of_none hmem)
      exhausts := ?_ }
  · intro t ht heof
    rcases List.mem_append.1 ht with ht | ht
    · exact h.end_eq t ht heof
    · rw [Token.eq_eofAt_of_mem (mem_tokensFrom_of_mem_tokens ht) heof, h.place]
  · intro hall
    have hnone : Token.proper (Token.tokensFrom l.place l.rest) = [] := by
      have hleft := h.conserves
      rw [hall] at hleft
      exact List.append_right_eq_self.1 hleft
    have hrest : l.rest = [] := Token.eq_nil_of_proper_eq_nil hnone
    rw [← h.eofAt_place hrest, nextToken, hrest]
  · rw [h.ends, tokens]
    cases l.ended with
    | false => exact (Nat.zero_add _).trans (Token.countP_eof_tokensFrom _ _)
    | true => rfl
  · intro hcalls
    rw [h.countP_eq_one_iff]
    by_contra hgoes
    have hnexts := h.nexts (Bool.not_eq_true _ ▸ hgoes)
    have hlength := congrArg List.length hconserves
    have hline := congrArg List.length (Token.tokensFrom_eq .start line)
    rw [List.length_append] at hlength hline
    rw [Token.ofLine] at hcalls hlength
    simp only [List.length_singleton] at hline
    omega

/-- That `nextToken` has met the end is no matter to `next`. -/
example : ((ofLine ['a']).replay [.nextToken, .nextToken, .next, .next]).1.map
    (fun a => a.token?.map Token.kind) = [some .word, some .eof, some .eof, none] := by
  decide

end Lexer

end PrefixShell
