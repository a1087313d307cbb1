namespace LuaBundle.Lua

-- What a token says. Strings carry the text they denote, numerals nothing.
inductive Kind
  | name (text : String)
  | str (value : String)
  | number
  | symbol (text : String)
deriving DecidableEq, Repr

-- A token with the byte offsets at which it starts and stops.
structure Token where
  kind : Kind
  start : Nat
  stop : Nat
deriving DecidableEq, Repr

namespace Token

def isName (t : Token) (text : String) : Bool :=
  t.kind = .name text

def isSymbol (t : Token) (text : String) : Bool :=
  t.kind = .symbol text

def isOpening (t : Token) : Bool :=
  t.isSymbol "(" || t.isSymbol "\x7b" || t.isSymbol "["

def isClosing (t : Token) : Bool :=
  t.isSymbol ")" || t.isSymbol "\x7d" || t.isSymbol "]"

end Token

-- What a reader finds at the front of a text: the characters it takes, what they say and the text
-- after them.
structure Reading (α : Type) where
  text : List Char
  value : α
  rest : List Char

-- A reading of `s` takes a front part of it and leaves the rest.
def Reading.Splits {α : Type} (r : Reading α) (s : List Char) : Prop :=
  r.text ++ r.rest = s

theorem Reading.Splits.length_rest_le {α : Type} {r : Reading α} {s : List Char} (h : r.Splits s) :
    r.rest.length ≤ s.length := by
  rw [← h]
  simp

end LuaBundle.Lua
