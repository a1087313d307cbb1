import LuaBundle.Command.Arguments
import LuaBundle.Command.Failure
import LuaBundle.Command.Job
import LuaBundle.Project.Load

namespace LuaBundle

-- What is to be bundled, and how references are resolved.
structure Work where
  options : Options
  jobs : List Job

namespace Arguments

-- The project file that a command line names, or the usual one if it names no entries either.
def loadProject (a : Arguments) (t : Tree) : Except Failure (Option Project) :=
  match a.project with
  | some file => (Project.load t file).map some |>.mapError (.namedProject file)
  | none =>
    if !a.entries.isEmpty then .ok none
    else if t.holds projectFile then (Project.load t projectFile).map some |>.mapError .project
    else .error .noEntries

-- Whether the command line says where a bundle goes.
def hasOutput (a : Arguments) : Bool :=
  a.output.isSome || a.stringify.isSome

-- The jobs for the entries of the command line, or for the targets of the project without any.
def jobs (a : Arguments) (p : Option Project) : Except Failure (List Job) :=
  match a.entries with
  | [] =>
    if a.hasOutput then .error .outputWithoutEntry
    else
      match (p.map (·.targets)).getD [] with
      | [] => .error .noTargets
      | targets => .ok (targets.map .target)
  | [entry] =>
    if a.hasOutput then
      .ok [.target ⟨none, entry, a.output.getD (Job.defaultOutput entry), [], a.stringify⟩]
    else .ok [.print entry]
  | entries =>
    if a.hasOutput then .error .outputForSeveralEntries else .ok (entries.map .print)

def work (a : Arguments) (t : Tree) : Except Failure Work := do
  let p ← a.loadProject t
  let options := ((p.map (·.options)).getD Options.default).merge a.overrides
  return ⟨options, ← a.jobs p⟩

end Arguments
end LuaBundle
