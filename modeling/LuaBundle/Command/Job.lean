import LuaBundle.Project.Basic

namespace LuaBundle

-- One piece of work: a bundle to print, or a bundle to write with what goes beside it.
inductive Job
  | print (entry : Path)
  | target (target : Target)
deriving DecidableEq, Repr

namespace Job

def entry : Job → Path
  | print entry => entry
  | target t => t.entry

def name : Job → String
  | print entry => entry.text
  | target t => t.displayName

-- Where a bundle goes when only its entry is given: `src/main.lua` to `src/main.bundle.lua`.
def defaultOutput (entry : Path) : Path :=
  entry.withFileName ((entry.fileStem?.getD "bundle").text ++ ".bundle.lua")

end Job
end LuaBundle
