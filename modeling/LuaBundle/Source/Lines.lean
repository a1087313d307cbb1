import LuaBundle.Source.Span

namespace LuaBundle

-- The byte offsets at which the lines of a source start. Only a line feed ends a line.
structure Lines where
  starts : List Nat

namespace Lines

def of (source : String) : Lines where
  starts := 0 :: after 0 source.toList
where
  after (offset : Nat) : List Char → List Nat
    | [] => []
    | c :: r =>
      let next := offset + c.utf8Size
      if c = '\n' then next :: after next r else after next r

-- The starts of the lines up to a byte offset. The last of them is the line of the offset.
def upTo (lines : Lines) (offset : Nat) : List Nat :=
  lines.starts.takeWhile (· ≤ offset)

-- Line and column of a byte offset, both counted from 1. What 32 bits cannot hold is cut off.
def position (lines : Lines) (offset : Nat) : UInt32 × UInt32 :=
  let upTo := lines.upTo offset
  (.ofNat upTo.length, .ofNat (offset - upTo.getLastD 0 + 1))

-- The offset of the line feed that ends the line of `offset`, or the size of the source on the
-- last line.
def lineEnd (lines : Lines) (offset size : Nat) : Nat :=
  match lines.starts.dropWhile (· ≤ offset) with
  | next :: _ => next - 1
  | [] => size

def span (lines : Lines) (start stop : Nat) : Span :=
  let (line, column) := lines.position start
  ⟨start, stop, line, column⟩

end Lines
end LuaBundle
