import LuaBundle.Text.Utf8
import LuaBundle.Lua.Character
import LuaBundle.Lua.Token

namespace LuaBundle.Lua

-- The byte that a letter, quote or backslash stands for after a backslash.
def letterEscape? (c : Char) : Option UInt8 :=
  match c with
  | 'a' => some 0x07
  | 'b' => some 0x08
  | 'f' => some 0x0C
  | 'n' => some 0x0A
  | 'r' => some 0x0D
  | 't' => some 0x09
  | 'v' => some 0x0B
  | _ => none

-- The other half of a line break of two characters that starts with `c`.
def breakPartner (c : Char) (s : List Char) : List Char :=
  match s with
  | d :: _ => if isLineBreak d && d ≠ c then [d] else []
  | [] => []

-- The character with code point `n`, and U+FFFD where there is none.
def scalarOrReplacement (n : Nat) : Char :=
  if n.isValidChar then Char.ofNat n else '\uFFFD'

def closingBrace (s : List Char) : List Char :=
  match s with
  | '\x7d' :: _ => ['\x7d']
  | _ => []

-- An escape in a short literal whose backslash has just been taken, with the bytes it denotes:
-- nothing for `\z`, one line feed for any line break, and for a character with no meaning of its
-- own that character. Digits may be missing, and a decimal escape above 255 denotes 255.
def escape (s : List Char) : Reading (List UInt8) :=
  match s with
  | [] => ⟨[], [], []⟩
  | c :: r =>
    match letterEscape? c with
    | some b => ⟨[c], [b], r⟩
    | none =>
      if isLineBreak c then
        let partner := breakPartner c r
        ⟨c :: partner, [0x0A], r.drop partner.length⟩
      else if c = 'z' then
        ⟨c :: r.takeWhile isSpace, [], r.dropWhile isSpace⟩
      else if c = 'x' then
        let digits := (r.take 2).takeWhile isHexDigit
        ⟨c :: digits, [UInt8.ofNat (digitsValue 16 digits)], r.drop digits.length⟩
      else if c.isDigit then
        let digits := (r.take 2).takeWhile Char.isDigit
        ⟨c :: digits, [UInt8.ofNat (min (digitsValue 10 (c :: digits)) 255)], r.drop digits.length⟩
      else if c = 'u' ∧ r.head? = some '\x7b' then
        let digits := (r.drop 1).takeWhile isHexDigit
        let after := (r.drop 1).dropWhile isHexDigit
        let close := closingBrace after
        ⟨c :: '\x7b' :: (digits ++ close),
          String.utf8EncodeChar (scalarOrReplacement (digitsValue 16 digits)),
          after.drop close.length⟩
      else ⟨[c], String.utf8EncodeChar c, r⟩

theorem takeWhile_take_append_drop (p : Char → Bool) (n : Nat) (s : List Char) :
    (s.take n).takeWhile p ++ s.drop ((s.take n).takeWhile p).length = s := by
  have h := (List.takeWhile_prefix (l := s.take n) p).trans (List.take_prefix n s)
  obtain ⟨t, ht⟩ := h
  conv => lhs; rhs; rhs; rw [← ht]
  simpa using ht

theorem closingBrace_append_drop (s : List Char) :
    closingBrace s ++ s.drop (closingBrace s).length = s := by
  unfold closingBrace
  split <;> simp

theorem breakPartner_append_drop (c : Char) (s : List Char) :
    breakPartner c s ++ s.drop (breakPartner c s).length = s := by
  unfold breakPartner
  split
  · split <;> simp
  · rfl

theorem escape_splits (s : List Char) : (escape s).Splits s := by
  fun_cases escape s
  case case1 => rfl
  case case2 => rfl
  case case3 c r _ _ partner => exact congrArg (c :: ·) (breakPartner_append_drop c r)
  case case4 r _ _ => exact congrArg ('z' :: ·) List.takeWhile_append_dropWhile
  case case5 r digits _ _ _ => exact congrArg ('x' :: ·) (takeWhile_take_append_drop _ 2 r)
  case case6 c r _ _ _ _ _ digits => exact congrArg (c :: ·) (takeWhile_take_append_drop _ 2 r)
  case case7 c r _ _ _ _ _ h digits after close =>
    obtain ⟨r, rfl⟩ := List.head?_eq_some_iff.mp h.2
    simp [Reading.Splits, digits, after, close, closingBrace_append_drop]
  case case8 => rfl

-- The characters of a short literal that denote themselves.
def isOrdinary (quote c : Char) : Bool :=
  c ≠ quote && c ≠ '\\' && !isLineBreak c

-- A short literal whose opening quote has just been taken. It stops after the closing quote, and
-- without one before the line break or at the end of the text.
def shortBody (quote : Char) (s : List Char) : Reading (List UInt8) :=
  let plain := s.takeWhile (isOrdinary quote)
  match _h : s.dropWhile (isOrdinary quote) with
  | [] => ⟨plain, Text.encode plain, []⟩
  | c :: r =>
    if c = quote then ⟨plain ++ [c], Text.encode plain, r⟩
    else if c = '\\' then
      let piece := escape r
      let more := shortBody quote piece.rest
      ⟨plain ++ c :: (piece.text ++ more.text), Text.encode plain ++ (piece.value ++ more.value),
        more.rest⟩
    else ⟨plain, Text.encode plain, c :: r⟩
termination_by s.length
decreasing_by
  have h₁ := (escape_splits r).length_rest_le
  have h₂ := (List.dropWhile_sublist (l := s) (isOrdinary quote)).length_le
  simp only [_h, List.length_cons] at h₂
  omega

theorem shortBody_splits (quote : Char) (s : List Char) : (shortBody quote s).Splits s := by
  fun_induction shortBody quote s with
  | case1 s plain h =>
    have hs := List.takeWhile_append_dropWhile (p := isOrdinary quote) (l := s)
    rwa [h] at hs
  | case2 s plain r h =>
    have hs := List.takeWhile_append_dropWhile (p := isOrdinary quote) (l := s)
    rw [h] at hs
    simpa [Reading.Splits] using hs
  | case3 s plain r piece more h hq ih =>
    have hs := List.takeWhile_append_dropWhile (p := isOrdinary quote) (l := s)
    rw [h] at hs
    have he := escape_splits r
    rw [Reading.Splits] at he ih
    simp only [Reading.Splits, List.append_assoc, List.cons_append, more, piece, ih, he]
    exact hs
  | case4 s plain c r h =>
    have hs := List.takeWhile_append_dropWhile (p := isOrdinary quote) (l := s)
    rwa [h] at hs

end LuaBundle.Lua
