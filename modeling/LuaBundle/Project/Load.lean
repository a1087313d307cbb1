import LuaBundle.File.Tree.Basic
import LuaBundle.Project.Decode

namespace LuaBundle.Project

-- The project in a file, with its paths taken from the directory of the file as it was spelled.
def load (t : Tree) (file : Path) : Except ProjectError Project := do
  let source ← (t.readText file).mapError (.file file)
  let p ← parse source
  return p.rebase file.parent

end LuaBundle.Project
