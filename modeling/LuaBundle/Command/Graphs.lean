import LuaBundle.Command.Run
import LuaBundle.Text.Json

namespace LuaBundle

open Text (Json)

namespace Graph

-- A graph for the eye: each module with what it requires, then the cycles.
def describe (name : String) (g : Graph) : String :=
  s!"{name} ({g.size} modules)\n" ++
    String.join (g.modules.map module) ++
    String.join (g.circularGroups.map fun group =>
      "  cycle: " ++ String.intercalate " -> " (group.map (·.text)) ++ "\n")
where
  module (m : Module) : String :=
    s!"  {m.id.text}\n" ++ String.join (m.dependencies.map fun id => s!"    -> {id.text}\n")

-- A graph for other programs. Keys are in alphabetical order.
def toJson (name : String) (g : Graph) : Json :=
  .record [
    ("cycles", .list (g.circularGroups.map ids)),
    ("entry", id g.entry),
    ("modules", .list (g.modules.map module)),
    ("name", .text name)]
where
  id (i : ModuleId) : Json :=
    .text i.text
  ids (is : List ModuleId) : Json :=
    .list (is.map id)
  module (m : Module) : Json :=
    .record [
      ("dependencies", ids m.dependencies),
      ("id", id m.id),
      ("path", .text m.path.text)]

end Graph

namespace Work

-- The graphs of all jobs with their names, and what the log says. The first failure ends it.
def graphs (options : Options) (t : Tree) : List Job →
    Except Failure (List (String × Graph)) × List Event
  | [] => (.ok [], [])
  | job :: jobs =>
    let o := buildGraph t.fileSystem options job.entry
    match o.result with
    | .error e => (.error (.bundle e), Bundle.graphEvents o)
    | .ok g =>
      let (rest, events) := graphs options t jobs
      (rest.map ((job.name, g) :: ·), Bundle.graphEvents o ++ events)

def printGraphs (w : Work) (t : Tree) (asJson : Bool) : Report :=
  let (result, events) := graphs w.options t w.jobs
  match result with
  | .error f => ⟨t, "", events, some f⟩
  | .ok gs =>
    let output :=
      if asJson then Json.pretty 0 (.list (gs.map fun (name, g) => g.toJson name)) ++ "\n"
      else String.join (gs.map fun (name, g) => g.describe name)
    ⟨t, output, events, none⟩

end Work
end LuaBundle
