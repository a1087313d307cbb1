namespace LuaBundle.Text

-- The bytes of a text in UTF-8.
def encode (s : List Char) : List UInt8 :=
  s.flatMap String.utf8EncodeChar

theorem encode_append (s t : List Char) : encode (s ++ t) = encode s ++ encode t := by
  simp [encode]

namespace Utf8

-- The ranges that the bytes after a first byte come from, one range for each byte; `none` for a
-- byte that no character starts with.
def tails (first : UInt8) : Option (List (UInt8 × UInt8)) :=
  if first < 0x80 then some []
  else if first < 0xC2 then none
  else if first < 0xE0 then some [(0x80, 0xBF)]
  else if first = 0xE0 then some [(0xA0, 0xBF), (0x80, 0xBF)]
  else if first = 0xED then some [(0x80, 0x9F), (0x80, 0xBF)]
  else if first < 0xF0 then some [(0x80, 0xBF), (0x80, 0xBF)]
  else if first = 0xF0 then some [(0x90, 0xBF), (0x80, 0xBF), (0x80, 0xBF)]
  else if first < 0xF4 then some [(0x80, 0xBF), (0x80, 0xBF), (0x80, 0xBF)]
  else if first = 0xF4 then some [(0x80, 0x8F), (0x80, 0xBF), (0x80, 0xBF)]
  else none

-- The bytes at the front that lie in the ranges, in turn.
def fitting : List (UInt8 × UInt8) → List UInt8 → List UInt8
  | (low, high) :: ranges, b :: bytes =>
    if low ≤ b ∧ b ≤ high then b :: fitting ranges bytes else []
  | _, _ => []

-- The code point of a first byte and the bytes that complete it.
def codePoint (first : UInt8) (tail : List UInt8) : Nat :=
  let bits := match tail.length with
    | 0 => first.toNat
    | 1 => first.toNat % 0x20
    | 2 => first.toNat % 0x10
    | _ => first.toNat % 0x08
  tail.foldl (fun n b => n * 0x40 + b.toNat % 0x40) bits

-- One character off the front, or `none` for the longest run of bytes that starts a character and
-- does not complete it (a byte that starts none is such a run), with the bytes after it.
def next (first : UInt8) (bytes : List UInt8) : Option Char × List UInt8 :=
  match tails first with
  | none => (none, bytes)
  | some ranges =>
    let tail := fitting ranges bytes
    let rest := bytes.drop tail.length
    if tail.length = ranges.length then (some (Char.ofNat (codePoint first tail)), rest)
    else (none, rest)

theorem length_next (first : UInt8) (bytes : List UInt8) :
    (next first bytes).2.length ≤ bytes.length := by
  simp only [next]
  split
  · simp
  · split <;> simp

end Utf8

-- The text of bytes, with U+FFFD for each longest run of bytes that starts no complete character.
def decodeLossy (bytes : List UInt8) : List Char :=
  go bytes []
where
  go : List UInt8 → List Char → List Char
    | [], acc => acc.reverse
    | b :: bytes, acc => go (Utf8.next b bytes).2 ((Utf8.next b bytes).1.getD '\uFFFD' :: acc)
  termination_by bytes => bytes.length
  decreasing_by
    have := Utf8.length_next b bytes
    simp only [List.length_cons]
    omega

-- The offset of the first byte that is not part of a complete character.
def invalidAt? (bytes : List UInt8) : Option Nat :=
  go 0 bytes
where
  go (offset : Nat) : List UInt8 → Option Nat
    | [] => none
    | b :: bytes =>
      match (Utf8.next b bytes).1 with
      | none => some offset
      | some c => go (offset + c.utf8Size) (Utf8.next b bytes).2
  termination_by bytes => bytes.length
  decreasing_by
    have := Utf8.length_next b bytes
    simp only [List.length_cons]
    omega

end LuaBundle.Text
