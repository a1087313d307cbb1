namespace LuaBundle.Text.Base64

-- The character for a value below 64.
def digit (n : Nat) : Char :=
  if n < 26 then Char.ofNat ('A'.toNat + n)
  else if n < 52 then Char.ofNat ('a'.toNat + (n - 26))
  else if n < 62 then Char.ofNat ('0'.toNat + (n - 52))
  else if n = 62 then '+'
  else '/'

def pad : Char :=
  '='

-- Three bytes as four characters; one or two bytes at the end are padded.
def group (a : UInt8) (b c : Option UInt8) : List Char :=
  let x := a.toNat
  let y := (b.map UInt8.toNat).getD 0
  let z := (c.map UInt8.toNat).getD 0
  [ digit (x / 4),
    digit (x % 4 * 16 + y / 16),
    if b.isSome then digit (y % 16 * 4 + z / 64) else pad,
    if c.isSome then digit (z % 64) else pad ]

-- Bytes in base 64 with the standard alphabet and padding.
def encode (bytes : List UInt8) : List Char :=
  go bytes []
where
  go : List UInt8 → List Char → List Char
    | [], acc => acc.reverse
    | [a], acc => ((group a none none).reverse ++ acc).reverse
    | [a, b], acc => ((group a (some b) none).reverse ++ acc).reverse
    | a :: b :: c :: rest, acc => go rest ((group a (some b) (some c)).reverse ++ acc)

end LuaBundle.Text.Base64
