import LuaBundle.Bundle.Prelude
import LuaBundle.Module.Cycles
import LuaBundle.Module.Discovery

namespace LuaBundle

namespace Bundle

-- A body that ends in a line of its own, so that a comment at its end swallows nothing.
def lineEnded (body : String) : String :=
  if body.isEmpty || body.toList.getLast? = some '\n' then body else body ++ "\n"

-- A module as a function under its id, with its file name from the directory `root`.
def unit (root : Path) (m : Module) : String :=
  "-- Module: " ++ m.id.text ++ "\n" ++
    "__define(" ++ Lua.quote m.id.text ++ ", " ++ Lua.quote (m.path.relativeTo root) ++
      ", function(...)\n" ++
    lineEnded m.body ++
    "end)\n\n"

-- The directory that file names are given from: that of the entry.
def root (g : Graph) : Path :=
  (g.entryModule?.map (·.path.parent)).getD .empty

def footer (entry : ModuleId) : String :=
  "-- Execute entry point\n" ++ "return " ++ requireCall entry.text ++ "\n"

-- One chunk that holds every module of a graph and runs the entry.
def emit (g : Graph) : String :=
  header ++ "\n" ++ prelude ++ "\n" ++ String.join (g.modules.map (unit (root g))) ++ footer g.entry

end Bundle

-- The bundle of an entry.
def bundle (files : FiniteFiles) (options : Options) (entry : Path) : Outcome String :=
  let o := buildGraph files options entry
  { o with result := o.result.map Bundle.emit }

namespace Bundle

-- What the log says while a graph is built: the remarks, and once it is there its cycles.
def graphEvents (o : Outcome Graph) : List Event :=
  o.diagnostics.map (·.event) ++
    match o.result with
    | .ok g => g.circularGroups.map fun group => ⟨.warning, Graph.cycleMessage group⟩
    | .error _ => []

-- What the log says while a bundle is made.
def events (entry : Path) (o : Outcome Graph) : List Event :=
  graphEvents o ++
    match o.result with
    | .ok g => [⟨.info, s!"Bundled {g.size} module(s) from {entry.text}"⟩]
    | .error _ => []

end Bundle
end LuaBundle
