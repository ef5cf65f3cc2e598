import PrefixShell.Text

/-!
# UTF-8

The bytes of a text, and the text in bytes that may not be one. Bytes that form no character are
read in the longest pieces that could have begun one, each of which stands for a single unreadable
place.
-/

namespace PrefixShell.Utf8

/-- The bytes of a text. -/
def encode (t : Text) : List UInt8 := t.flatMap String.utf8EncodeChar

/-- What may follow a first byte beyond ASCII: how many bytes, and the range of the next one. -/
structure Continuation where
  count : Nat
  least : Nat
  greatest : Nat

/-- What may follow a first byte beyond ASCII, if it can be a first byte at all. The ranges leave
out longer spellings of shorter characters, the surrogates, and all beyond `U+10FFFF`. -/
def continuation? (first : Nat) : Option Continuation :=
  if first < 0xC2 then none
  else if first < 0xE0 then some ⟨1, 0x80, 0xBF⟩
  else if first = 0xE0 then some ⟨2, 0xA0, 0xBF⟩
  else if first = 0xED then some ⟨2, 0x80, 0x9F⟩
  else if first < 0xF0 then some ⟨2, 0x80, 0xBF⟩
  else if first = 0xF0 then some ⟨3, 0x90, 0xBF⟩
  else if first < 0xF4 then some ⟨3, 0x80, 0xBF⟩
  else if first = 0xF4 then some ⟨3, 0x80, 0x8F⟩
  else none

/-- The bytes in front that continue a character. -/
def continuing (k : Continuation) : List UInt8 → List UInt8
  | [] => []
  | b :: bs =>
    if 0 < k.count && k.least ≤ b.toNat && b.toNat ≤ k.greatest then
      b :: continuing ⟨k.count - 1, 0x80, 0xBF⟩ bs
    else []

/-- The character of a first byte and all the bytes that continue it. -/
def assemble (first : Nat) (rest : List UInt8) : Char :=
  let lead := match rest.length with
    | 1 => first % 0x20
    | 2 => first % 0x10
    | _ => first % 0x08
  Char.ofNat (rest.foldl (fun n b => n * 0x40 + b.toNat % 0x40) lead)

/-- The characters in bytes, and `none` for every piece that is none. -/
def decode : List UInt8 → List (Option Char)
  | [] => []
  | b :: bs =>
    if b.toNat < 0x80 then some (Char.ofNat b.toNat) :: decode bs
    else
      match continuation? b.toNat with
      | none => none :: decode bs
      | some k =>
        let rest := continuing k bs
        let char := if rest.length = k.count then some (assemble b.toNat rest) else none
        char :: decode (bs.drop rest.length)
termination_by bs => bs.length
decreasing_by
  all_goals simp only [List.length_cons, List.length_drop]
  all_goals omega

/-- The text that bytes are, if they are one. -/
def text? (bytes : List UInt8) : Option Text := (decode bytes).mapM id

/-- The text in bytes, with a replacement character for every piece that is none. -/
def display (bytes : List UInt8) : Text := (decode bytes).map (·.getD '\uFFFD')

end PrefixShell.Utf8
