import LuaBundle.Text.Size
import LuaBundle.Lua.Quote
import LuaBundle.Source.Span

namespace LuaBundle

-- The name of the function that bundled modules are required by.
def requireName : String :=
  "__require"

-- A call with a bundled module's id.
def requireCall (id : String) : String :=
  requireName ++ "(" ++ Lua.quote id ++ ")"

namespace Embed

-- A text that starts at the byte offset `start`, with the spans replaced and all else kept.
def splice (start : Nat) (s : List Char) : List (Span × List Char) → List Char
  | [] => s
  | (span, replacement) :: more =>
    let (kept, rest) := Text.cut (span.start - start) s
    let (_, rest) := Text.cut (span.stop - span.start) rest
    kept ++ (replacement ++ splice span.stop rest more)

def byteOrderMark : Char :=
  '\uFEFF'

end Embed

-- A source as it stands in a function body: without its byte order mark, with a first line that
-- starts with `#` made a comment, and with the calls at the given spans turned into calls with the
-- given ids.
def embed (source : String) (calls : List (Span × String)) : String :=
  let s := source.toList
  let mark := s.takeWhile (· = Embed.byteOrderMark) |>.take 1
  let program := s.drop mark.length
  let comment := if program.head? = some '#' then ['-', '-'] else []
  let replacements := calls.map fun (span, id) => (span, (requireCall id).toList)
  String.ofList (comment ++ Embed.splice (Text.size mark) program replacements)

end LuaBundle
