import LuaBundle.Project.Decode
import LuaBundle.Yaml.Write

namespace LuaBundle.Project

open Yaml (Value)

namespace Encode

def path (p : Path) : Value :=
  .text p.text

def option {α : Type} (value : α → Value) : Option α → Value
  | some a => value a
  | none => .null

def options (o : Options) : Value :=
  .record [
    ("searchPaths", .list (o.searchPaths.map path)),
    ("externals", .list (o.externals.map .text)),
    ("extension", .text o.extension)]

def copyFile (c : CopyFile) : Value :=
  .record [("from", path c.source), ("to", path c.destination)]

def target (t : Target) : Value :=
  .record [
    ("name", option .text t.name),
    ("entry", path t.entry),
    ("output", path t.output),
    ("copy", .list (t.copies.map copyFile)),
    ("stringify", option path t.stringify)]

def project (p : Project) : List (String × Value) :=
  [("bundlerOptions", options p.options), ("targets", .list (p.targets.map target))]

end Encode

-- A project as the text of a project file. A path that is not UTF-8 cannot be written.
def toYaml (p : Project) : Except ProjectError String :=
  if p.paths.all (·.str?.isSome) then .ok (Yaml.write (Encode.project p)) else .error .unwritable

end LuaBundle.Project
