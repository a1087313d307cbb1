import LuaBundle.Text.Base64

namespace LuaBundle.Bundle

-- A chunk that returns a text which needs no escapes.
def wrap (encoded : String) : String :=
  "local CodeString = '" ++ encoded ++ "'\nreturn CodeString"

-- A chunk that returns the bundle in base 64.
def stringify (bundle : String) : String :=
  wrap (String.ofList (Text.Base64.encode bundle.toUTF8.toList))

end LuaBundle.Bundle
