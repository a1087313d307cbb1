import LuaBundle.File.System
import LuaBundle.Source.Requires
import LuaBundle.Source.Embed

namespace LuaBundle

-- The name of a module inside a bundle.
structure ModuleId where
  text : String
deriving DecidableEq, Repr

-- A static call with the file it resolves to and the id of that file's module.
structure Reference where
  literal : String
  span : Span
  path : Path
  target : ModuleId
deriving DecidableEq, Repr

-- A file of the bundle, with the references of its source in source order.
structure Module where
  id : ModuleId
  path : Path
  source : String
  references : List Reference
deriving DecidableEq, Repr

namespace Module

-- The modules it requires, each once, in the order of their first reference.
def dependencies (m : Module) : List ModuleId :=
  (m.references.map (·.target)).eraseDups

-- Its source with each reference made a call of the bundled module.
def body (m : Module) : String :=
  embed m.source (m.references.map fun r => (r.span, r.target.text))

end Module

-- Why a bundle cannot be made.
inductive BundleError
  | unresolved (reference : String) (requester : Path)
  | dynamic (requester : Path) (call : DynamicCall)
  | file (path : Path) (cause : FileError)
deriving DecidableEq, Repr

namespace BundleError

def message : BundleError → String
  | unresolved reference requester =>
    s!"cannot resolve module '{reference}' required from {requester.text}"
  | dynamic requester c =>
    s!"non-static require in {requester.text}:{c.span.place}: `{c.call}` (the argument must be a string literal)"
  | file path cause => s!"IO error on {path.text}: {cause.message}"

end BundleError
end LuaBundle
