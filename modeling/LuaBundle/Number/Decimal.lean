namespace LuaBundle

-- A number written with decimal digits: a coefficient times a power of ten.
structure Decimal where
  coefficient : Nat
  exponent : Int
deriving DecidableEq, Repr

namespace Decimal

-- The number that digits stand for.
def value (digits : List Char) : Nat :=
  digits.foldl (fun n c => 10 * n + (c.toNat - '0'.toNat)) 0

def digits? (s : List Char) : Option Nat :=
  if !s.isEmpty && s.all Char.isDigit then some (value s) else none

-- What follows the digits of a numeral: nothing, or an `e` and a power of ten.
def exponent? : List Char → Option Int
  | [] => some 0
  | c :: r =>
    if c ≠ 'e' && c ≠ 'E' then none
    else
      match r with
      | '-' :: r => (digits? r).map fun n => -(n : Int)
      | '+' :: r => (digits? r).map Int.ofNat
      | r => (digits? r).map Int.ofNat

-- The number that an unsigned numeral stands for. A point may have digits on either side alone.
def parse? (s : List Char) : Option Decimal :=
  let whole := s.takeWhile Char.isDigit
  let (fraction, rest) :=
    match s.dropWhile Char.isDigit with
    | '.' :: r => (r.takeWhile Char.isDigit, r.dropWhile Char.isDigit)
    | r => ([], r)
  if whole.isEmpty && fraction.isEmpty then none
  else (exponent? rest).map fun e => ⟨value (whole ++ fraction), e - fraction.length⟩

-- Whether a number is less than a bound. Powers that settle it by their size are not computed.
def isBelow (d : Decimal) (bound : Nat) : Bool :=
  match d.exponent with
  | .ofNat e =>
    if bound.log2 < e then d.coefficient = 0 && 0 < bound else d.coefficient * Nat.pow 10 e < bound
  | .negSucc e =>
    if d.coefficient.log2 ≤ e then 0 < bound else d.coefficient < bound * Nat.pow 10 (e + 1)

end Decimal
end LuaBundle
