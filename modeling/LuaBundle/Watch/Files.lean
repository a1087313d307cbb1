import LuaBundle.Command.Run

namespace LuaBundle.Watch

-- A list with one more path, unless it names a place that is listed.
def addPath (paths : List Path) (p : Path) : List Path :=
  if paths.any (· ≈ p) then paths else paths ++ [p]

-- The files that a job depends on: its modules, or its entry if it has no graph.
def jobFiles (options : Options) (t : Tree) (job : Job) : List Path × List Event :=
  let o := buildGraph t.fileSystem options job.entry
  match o.result with
  | .ok g => (g.modules.map (·.path), Bundle.graphEvents o)
  | .error e =>
    let entry := (t.canonicalize job.entry).toOption.getD job.entry
    ([entry], Bundle.graphEvents o ++ [⟨.warning, s!"{job.name}: {e.message}"⟩])

-- The files that work depends on, each once, and what the log says.
def files (w : Work) (t : Tree) : List Path × List Event :=
  let found := w.jobs.map (jobFiles w.options t)
  ((found.flatMap (·.1)).foldl addPath [], found.flatMap (·.2))

-- The directories of files, each once.
def directories (files : List Path) : List Path :=
  (files.filterMap Path.parent?).foldl addPath []

end LuaBundle.Watch
