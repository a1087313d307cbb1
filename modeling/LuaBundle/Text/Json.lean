namespace LuaBundle.Text

-- What is printed as JSON.
inductive Json
  | text (t : String)
  | list (items : List Json)
  | record (entries : List (String × Json))

namespace Json

def hexDigit (n : Nat) : Char :=
  Nat.digitChar (n % 16)

def escape (c : Char) : List Char :=
  match c with
  | '"' => ['\\', '"']
  | '\\' => ['\\', '\\']
  | '\n' => ['\\', 'n']
  | '\r' => ['\\', 'r']
  | '\t' => ['\\', 't']
  | '\x08' => ['\\', 'b']
  | '\x0C' => ['\\', 'f']
  | c =>
    if c.toNat < 0x20 then ['\\', 'u', '0', '0', hexDigit (c.toNat / 16), hexDigit c.toNat] else [c]

def quote (t : String) : String :=
  String.ofList ('"' :: t.toList.flatMap escape ++ ['"'])

def newLine (indent : Nat) : String :=
  String.ofList ('\n' :: List.replicate (2 * indent) ' ')

mutual

-- A value with each item on a line of its own, `indent` levels deep.
def pretty (indent : Nat) : Json → String
  | text t => quote t
  | list [] => "[]"
  | list (j :: rest) =>
    "[" ++ newLine (indent + 1) ++ pretty (indent + 1) j ++ prettyItems (indent + 1) rest ++
      newLine indent ++ "]"
  | record [] => "\x7b\x7d"
  | record ((key, j) :: rest) =>
    "\x7b" ++ newLine (indent + 1) ++ quote key ++ ": " ++ pretty (indent + 1) j ++
      prettyEntries (indent + 1) rest ++ newLine indent ++ "\x7d"

def prettyItems (indent : Nat) : List Json → String
  | [] => ""
  | j :: rest => "," ++ newLine indent ++ pretty indent j ++ prettyItems indent rest

def prettyEntries (indent : Nat) : List (String × Json) → String
  | [] => ""
  | (key, j) :: rest =>
    "," ++ newLine indent ++ quote key ++ ": " ++ pretty indent j ++ prettyEntries indent rest

end

end Json
end LuaBundle.Text
