namespace LuaBundle

-- A range of bytes in a source, with the line and column of its first byte, both counted from 1 in
-- 32 bits.
structure Span where
  start : Nat
  stop : Nat
  line : UInt32
  column : UInt32
deriving DecidableEq, Repr

namespace Span

def length (s : Span) : Nat :=
  s.stop - s.start

def isEmpty (s : Span) : Bool :=
  s.start = s.stop

-- Where the span begins, as it is shown to people.
def place (s : Span) : String :=
  s!"{s.line}:{s.column}"

end Span
end LuaBundle
