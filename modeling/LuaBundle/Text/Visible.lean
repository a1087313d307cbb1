import LuaBundle.Text.Invisible

namespace LuaBundle.Text

def hexNumber (n : Nat) : List Char :=
  Nat.toDigits 16 n

-- A character between double quotes. What would not be seen is spelled out.
def visibleChar (c : Char) : List Char :=
  match c with
  | '\x00' => ['\\', '0']
  | '\t' => ['\\', 't']
  | '\n' => ['\\', 'n']
  | '\r' => ['\\', 'r']
  | '"' => ['\\', '"']
  | '\\' => ['\\', '\\']
  | c => if isInvisible c then ['\\', 'u', '\x7b'] ++ hexNumber c.toNat ++ ['\x7d'] else [c]

def visible (s : List Char) : String :=
  String.ofList ('"' :: s.flatMap visibleChar ++ ['"'])

end LuaBundle.Text
