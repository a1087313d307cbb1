import LuaBundle.Number.Binary64

namespace LuaBundle.Yaml

-- Plain scalars that readers take for something other than a text.

def isNull (t : String) : Bool :=
  t = "null" || t = "Null" || t = "NULL" || t = "~"

def isBool (t : String) : Bool :=
  ["true", "True", "TRUE", "false", "False", "FALSE"].contains t

-- The digits after a mark of their base, and the base.
def radix? : List Char → Option (Nat × List Char)
  | '0' :: 'x' :: r => some (16, r)
  | '0' :: 'o' :: r => some (8, r)
  | '0' :: 'b' :: r => some (2, r)
  | _ => none

def digitValue (c : Char) : Nat :=
  if c.isDigit then c.toNat - '0'.toNat
  else if 'a' ≤ c && c ≤ 'f' then c.toNat - 'a'.toNat + 10
  else if 'A' ≤ c && c ≤ 'F' then c.toNat - 'A'.toNat + 10
  else 16

-- Whether a text is a number with a mark of its base that is less than a limit.
def isMarkedBelow (limit : Nat) (s : List Char) : Bool :=
  match radix? s with
  | some (base, digits) =>
    !digits.isEmpty && digits.all (digitValue · < base) &&
      digits.foldl (fun n c => base * n + digitValue c) 0 < limit
  | none => false

-- Whole numbers with a mark of their base have 128 bits.
def isMarkedInteger : List Char → Bool
  | '-' :: r => isMarkedBelow (Nat.pow 2 127 + 1) r
  | '+' :: r => isMarkedBelow (Nat.pow 2 128) r
  | s => isMarkedBelow (Nat.pow 2 128) s

def unsigned : List Char → List Char
  | '+' :: r | '-' :: r => r
  | s => s

-- Digits with a zero in front are a text, but one that looks like a number.
def isPaddedNumber (s : List Char) : Bool :=
  match unsigned s with
  | '0' :: c :: r => (c :: r).all Char.isDigit
  | _ => false

def isNumber (s : List Char) : Bool :=
  (Decimal.parse? (unsigned s)).any (·.isBelow Binary64.limit)

def isSpecialNumber (s : List Char) : Bool :=
  let isInfinity := [".inf", ".Inf", ".INF"].contains (String.ofList (unsigned s))
  isInfinity || [".nan", ".NaN", ".NAN"].contains (String.ofList s)

-- Whether a plain scalar would be read as something other than a text, or looks as if it were.
def isAmbiguous (t : String) : Bool :=
  let s := t.toList
  s.isEmpty || isNull t || isBool t || isMarkedInteger s || isPaddedNumber s || isNumber s ||
    isSpecialNumber s

end LuaBundle.Yaml
