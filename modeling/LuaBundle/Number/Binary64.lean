import LuaBundle.Number.Decimal

namespace LuaBundle

-- A floating point number of 64 bits. A finite one is `significand * 2 ^ exponent` with the least
-- exponent that leaves the significand below `2 ^ 53`.
inductive Binary64
  | nan
  | infinity (isNegative : Bool)
  | finite (isNegative : Bool) (significand : Nat) (exponent : Int)
deriving DecidableEq, Repr

namespace Binary64

-- Significands have 53 bits, and no exponent is below this one.
def precision : Nat :=
  53

def minExponent : Int :=
  -1074

-- The least significand that has all its bits.
def leastLong : Nat :=
  Nat.pow 2 (precision - 1)

-- The least number that is too large to be rounded to a finite one.
def limit : Nat :=
  Nat.pow 2 1024 - Nat.pow 2 970

-- A quotient to the nearest whole number, a half to the even one.
def roundDiv (n d : Nat) : Nat :=
  let q := n / d
  let twice := 2 * (n % d)
  if d < twice || (twice = d && q % 2 = 1) then q + 1 else q

-- A quotient times a power of two, rounded.
def scaled (n d : Nat) : Int → Nat
  | .ofNat k => roundDiv (n * Nat.pow 2 k) d
  | .negSucc k => roundDiv n (d * Nat.pow 2 (k + 1))

-- The finite number that is nearest to a quotient of positive numbers.
def ofQuotient (isNegative : Bool) (n d : Nat) : Binary64 :=
  let guess : Int := (n.log2 : Int) - d.log2 - precision
  let exponent := max minExponent guess
  let isShort := scaled n d (-exponent) < 2 * leastLong
  let exponent := if isShort then exponent else exponent + 1
  let significand := scaled n d (-exponent)
  if significand = 2 * leastLong then finite isNegative leastLong (exponent + 1)
  else finite isNegative significand exponent

def zero (isNegative : Bool) : Binary64 :=
  finite isNegative 0 minExponent

-- The number that is nearest to a decimal one. Powers of ten that settle it by their size are not
-- computed.
def ofDecimal (isNegative : Bool) (d : Decimal) : Binary64 :=
  if d.coefficient = 0 then zero isNegative
  else if !d.isBelow limit then infinity isNegative
  else
    match d.exponent with
    | .ofNat e => ofQuotient isNegative (d.coefficient * Nat.pow 10 e) 1
    | .negSucc e =>
      if d.coefficient.log2 + 1080 < 3 * e then zero isNegative
      else ofQuotient isNegative d.coefficient (Nat.pow 10 (e + 1))

-- The whole number of 64 bits that a float equals, if it equals one.
def toInteger? : Binary64 → Option Int
  | finite isNegative significand exponent =>
    let magnitude? :=
      match exponent with
      | .ofNat e => if 64 < e then none else some (significand * Nat.pow 2 e)
      | .negSucc e =>
        if significand % Nat.pow 2 (e + 1) = 0 then some (significand / Nat.pow 2 (e + 1)) else none
    let value? := magnitude?.map fun m => if isNegative then -(m : Int) else m
    value?.filter fun v => -(Nat.pow 2 63 : Int) ≤ v && v < (Nat.pow 2 63 : Int)
  | _ => none

end Binary64
end LuaBundle
