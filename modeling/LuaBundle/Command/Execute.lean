import LuaBundle.Command.Graphs
import LuaBundle.Command.Starter

namespace LuaBundle.Arguments

-- What a command line comes to in a tree. Starting a project leaves all else it asks for undone.
def execute (a : Arguments) (t : Tree) : Report :=
  if a.init then Starter.run t ⟨"."⟩
  else
    match a.work t with
    | .error f => ⟨t, "", [], some f⟩
    | .ok w => if a.graph then w.printGraphs t a.json else w.run t

end LuaBundle.Arguments
