import LuaBundle.Number.Shortest
import LuaBundle.Text.Utf8
import LuaBundle.Text.Visible

namespace LuaBundle.Lua

-- A value that a chunk returns. Each table and each function is one of its own.
inductive Value
  | nil
  | boolean (b : Bool)
  | integer (i : Int)
  | float (x : Binary64)
  | string (bytes : List UInt8)
  | table (entries : List (Value × Value))
  | function

namespace Value

-- A float that is a whole number is the same key as that integer.
def asKey : Value → Value
  | float x =>
    match x.toInteger? with
    | some i => integer i
    | none => float x
  | v => v

def isNil : Value → Bool
  | nil => true
  | _ => false

-- Whether two keys, none of them whole as a float, are one.
def isSameKey : Value → Value → Bool
  | boolean a, boolean b => a = b
  | integer i, integer j => i = j
  | float x, float y => x = y
  | string a, string b => a = b
  | _, _ => false

-- A table after an assignment. A nil value removes its key.
def assign (entries : List (Value × Value)) (key value : Value) : List (Value × Value) :=
  let key := key.asKey
  let others := entries.filter fun e => !(e.1.isSameKey key)
  if value.isNil then others else others ++ [(key, value)]

-- The digits of a float, with the least magnitudes and the greatest ones as powers of ten.
def writeDigits (d : Decimal) : List Char :=
  let digits := Nat.toDigits 10 d.coefficient
  -- the digits before the point
  let whole : Int := digits.length + d.exponent
  if whole < -3 || 16 < whole then
    let fraction := digits.drop 1
    digits.take 1 ++ (if fraction.isEmpty then [] else '.' :: fraction) ++
      'e' :: (toString (whole - 1)).toList
  else
    match whole with
    | .ofNat n =>
      if n = 0 then '0' :: '.' :: digits
      else
        let padded := digits ++ List.replicate (n - digits.length) '0'
        let fraction := padded.drop n
        padded.take n ++ '.' :: if fraction.isEmpty then ['0'] else fraction
    | .negSucc n => '0' :: '.' :: List.replicate (n + 1) '0' ++ digits

def writeFloat : Binary64 → String
  | .nan => "NaN"
  | .infinity isNegative => if isNegative then "-inf" else "inf"
  | .finite isNegative significand exponent =>
    let digits :=
      if significand = 0 then "0.0".toList
      else writeDigits (Binary64.shortest significand exponent)
    String.ofList ((if isNegative then ['-'] else []) ++ digits)

-- Tables inside this many others are left out.
def maxDepth : Nat :=
  8

-- A value as text, with at most `depth` tables inside each other. Entries are in the order of their
-- texts.
def describeTo (depth : Nat) : Value → String
  | nil => "nil"
  | boolean b => if b then "true" else "false"
  | integer i => toString i
  | float x => writeFloat x
  | string bytes => Text.visible (Text.decodeLossy bytes)
  | function => "function"
  | table entries =>
    match depth with
    | 0 => "\x7b...\x7d"
    | depth + 1 =>
      let texts := entries.map fun (k, v) => describeTo depth k ++ "=" ++ describeTo depth v
      "\x7b" ++ String.intercalate "," (texts.mergeSort fun a b => a ≤ b) ++ "\x7d"

def describe (v : Value) : String :=
  v.describeTo maxDepth

end Value
end LuaBundle.Lua
