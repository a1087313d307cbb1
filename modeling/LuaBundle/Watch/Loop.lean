import LuaBundle.Watch.Debounce
import LuaBundle.Watch.Files

namespace LuaBundle

-- What a watch goes by: the files that the work depends on, the directories that tell of changes,
-- and the burst of changes that may be going on.
structure Watcher where
  files : List Path
  directories : List Path
  debouncer : Debouncer
deriving DecidableEq, Repr

namespace Watcher

-- How long nothing may change before the work is done again.
def quiet : Nat :=
  100

-- Do the work, and look up anew what it depends on in the tree that it leaves. Work that fails is
-- told of and no more. A directory that tells of changes goes on to do so.
def turn (directories : List Path) (d : Debouncer) (line : String) (w : Work) (t : Tree) :
    Watcher × Report :=
  let r := w.run t
  let (files, events) := Watch.files w r.tree
  let failed := r.failure.toList.map fun f => ⟨.error, f.line⟩
  (⟨files, (Watch.directories files).foldl Watch.addPath directories, d⟩,
    { r with output := line ++ r.output, events := r.events ++ failed ++ events, failure := none })

def start (w : Work) (t : Tree) : Watcher × Report :=
  turn [] (.of quiet) "Watching for changes... (Press Ctrl+C to stop)\n" w t

-- News of paths at which something was made or changed. What counts is where they lead, as far as
-- they lead anywhere.
def hear (v : Watcher) (t : Tree) (now : Nat) (changed : List Path) : Watcher :=
  if changed.any fun p => v.files.any (· ≈ (t.canonicalize p).toOption.getD p) then
    { v with debouncer := v.debouncer.touch now }
  else v

-- The work is done again once a burst of changes is over.
def round (v : Watcher) (w : Work) (t : Tree) (now : Nat) : Watcher × Option Report :=
  match v.debouncer.ready now with
  | (false, d) => ({ v with debouncer := d }, none)
  | (true, d) =>
    let (v, r) := turn v.directories d "\nModule changed, re-bundling...\n" w t
    (v, some r)

end Watcher
end LuaBundle
