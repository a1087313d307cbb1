import LuaBundle.Text.Utf8

namespace LuaBundle

-- A string as the operating system has it: any bytes, which are mostly but not always UTF-8.
structure OsString where
  bytes : List UInt8
deriving DecidableEq, Hashable, Repr

namespace OsString

def ofString (s : String) : OsString :=
  ⟨Text.encode s.toList⟩

instance : Coe String OsString :=
  ⟨ofString⟩

-- The string for people, with U+FFFD in the place of what is not UTF-8.
def text (s : OsString) : String :=
  String.ofList (Text.decodeLossy s.bytes)

-- The text that has just these bytes. A string that is not UTF-8 has none.
def str? (s : OsString) : Option String :=
  if ofString s.text = s then some s.text else none

end OsString
end LuaBundle
