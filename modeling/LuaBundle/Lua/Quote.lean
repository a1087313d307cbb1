namespace LuaBundle.Lua

def decimalDigit (n : Nat) : Char :=
  Char.ofNat ('0'.toNat + n % 10)

-- A control character as a decimal escape of three digits, so that a digit after it is never read
-- as part of it.
def controlEscape (c : Char) : List Char :=
  let n := c.toNat
  ['\\', decimalDigit (n / 100), decimalDigit (n / 10), decimalDigit n]

def isControl (c : Char) : Bool :=
  c.toNat < 0x20 || c.toNat = 0x7F

def quoteCharacter (c : Char) : List Char :=
  if c = '\\' then ['\\', '\\']
  else if c = '"' then ['\\', '"']
  else if c = '\n' then ['\\', 'n']
  else if c = '\r' then ['\\', 'r']
  else if c = '\t' then ['\\', 't']
  else if isControl c then controlEscape c
  else [c]

-- A text as a literal in double quotes.
def quote (value : String) : String :=
  String.ofList ('"' :: (value.toList.flatMap quoteCharacter ++ ['"']))

end LuaBundle.Lua
