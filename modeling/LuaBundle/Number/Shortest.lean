import LuaBundle.Number.Binary64

namespace LuaBundle.Binary64

-- The fewest decimal digits that read back.

-- A positive number `significand * 2 ^ exponent` among its neighbours, in quarters of the distance
-- to the next one: the number, and the least and greatest that are rounded to it. Ends belong to it
-- if the significand is even.
structure Interval where
  value : Nat
  low : Nat
  high : Nat
  isClosed : Bool

-- The next smaller number is only half as far away where the exponent changes.
def interval (significand : Nat) (exponent : Int) : Interval where
  value := 4 * significand
  low := 4 * significand - if significand = leastLong && exponent ≠ minExponent then 1 else 2
  high := 4 * significand + 2
  isClosed := significand % 2 = 0

-- The numerator and denominator of a power.
def power (base : Nat) : Int → Nat × Nat
  | .ofNat e => (Nat.pow base e, 1)
  | .negSucc e => (1, Nat.pow base (e + 1))

def Interval.contains (i : Interval) (n unit : Nat) : Bool :=
  if i.isClosed then i.low * unit ≤ n && n ≤ i.high * unit
  else i.low * unit < n && n < i.high * unit

-- The multiple of `10 ^ grid` that is rounded to the number: of the two around it the nearer, and
-- of two equally near the greater.
def pointOn? (i : Interval) (exponent grid : Int) : Option Nat :=
  let (two, half) := power 2 (exponent - 2)
  let (ten, tenth) := power 10 grid
  -- one quarter, and one step of the grid, in a common unit
  let unit := two * tenth
  let step := ten * half
  let below := i.value * unit / step
  let rest := i.value * unit % step
  match i.contains (below * step) unit, i.contains ((below + 1) * step) unit with
  | true, true => some (if step ≤ 2 * rest then below + 1 else below)
  | true, false => some below
  | false, true => some (below + 1)
  | false, false => none

-- A power of ten that is greater than the number.
def topGrid (significand : Nat) (exponent : Int) : Int :=
  (exponent + significand.log2 + 1) * 30103 / 100000 + 2

-- No number needs more than 17 digits, and few powers of ten lie between its first digit and the
-- top.
def maxSteps : Nat :=
  24

-- The decimal number on the coarsest grid that has a point which is rounded to the number.
def shortest (significand : Nat) (exponent : Int) : Decimal :=
  let i := interval significand exponent
  let top := topGrid significand exponent
  let found := (List.range maxSteps).findSome? fun (n : Nat) =>
    let grid := top - n
    (pointOn? i exponent grid).map fun point => Decimal.mk point grid
  found.getD ⟨significand, 0⟩

end LuaBundle.Binary64
