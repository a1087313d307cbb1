import LuaBundle.Path.Basic

namespace LuaBundle

-- How references are resolved: the directories to search beside a module's own, the names that
-- the host provides, and the ending of source files without its dot.
structure Options where
  searchPaths : List Path
  externals : List String
  extension : String
deriving DecidableEq, Repr

-- What a command line adds to options.
structure Overrides where
  searchPaths : List Path
  externals : List String
  extension : Option String
deriving DecidableEq, Repr

namespace Options

def default : Options where
  searchPaths := []
  externals := []
  extension := "lua"

def isExternal (o : Options) (reference : String) : Bool :=
  o.externals.contains reference

def addSearchPath (paths : List Path) (p : Path) : List Path :=
  if paths.any (· ≈ p) then paths else paths ++ [p]

def addExternal (names : List String) (name : String) : List String :=
  if names.contains name then names else names ++ [name]

-- Lists grow by what they do not hold yet, and the extension is replaced.
def merge (o : Options) (overrides : Overrides) : Options where
  searchPaths := overrides.searchPaths.foldl addSearchPath o.searchPaths
  externals := overrides.externals.foldl addExternal o.externals
  extension := overrides.extension.getD o.extension

end Options
end LuaBundle
