import LuaBundle.Command.Execute
import LuaBundle.Command.Help
import LuaBundle.Path.Clean
import LuaBundle.Watch.Loop
import Std.Data.HashMap

-- The command line. Files are read into a tree, commands run on the tree, and what they have changed
-- is written back.

namespace LuaBundle.Disk

def location (path : String) : Location :=
  (Path.components ⟨path⟩).filterMap fun c =>
    match c with
    | .name n => some n
    | _ => none

-- What stands at an absolute path and below. What cannot be read is left out.
partial def scan (path : String) (found : Array (Location × Entry)) :
    IO (Array (Location × Entry)) := do
  let full := (← IO.currentDir) / path
  try
    match (← full.symlinkMetadata).type with
    | .dir =>
      let mut found := found.push (location path, .directory)
      for e in ← full.readDir do
        found ← scan (path ++ "/" ++ e.fileName) found
      return found
    | .file => return found.push (location path, .file (← IO.FS.readBinFile full))
    | .symlink => return found.push (location path, .link ⟨(← IO.FS.realPath full).toString⟩)
    | .other => return found
  catch _ => return found

def linkTargets (found : Array (Location × Entry)) : List String :=
  found.toList.filterMap fun (_, e) =>
    match e with
    | .link target => some target.text
    | _ => none

-- What stands at several paths, and where the links among it lead. The root is never read as a
-- whole.
partial def gather (roots : List Location) (found : Array (Location × Entry)) :
    List String → IO (List Location × Array (Location × Entry))
  | [] => return (roots, found)
  | path :: rest => do
    let place := location path
    if place.isEmpty || roots.any (·.isPrefixOf place) then gather roots found rest
    else
      let more ← scan path #[]
      gather (place :: roots) (found ++ more) (linkTargets more ++ rest)

-- The working directory and other directories as a tree.
def tree (directories : List Path) : IO Tree := do
  let here := (← IO.currentDir).toString
  let absolute := directories.map fun d => (Path.join ⟨here⟩ d).clean.text
  let (roots, found) ← gather [] #[] (here :: absolute)
  let around := (location here :: roots).flatMap Location.around
  return ⟨found.toList ++ around.map fun l => (l, .directory), location here⟩

def isSame : Entry → Entry → Bool
  | .directory, .directory => true
  | .file a, .file b => a.data == b.data
  | .link a, .link b => a = b
  | _, _ => false

-- Bring the disk to what a command has made of a tree.
def update (before after : Tree) : IO Unit := do
  let old := Std.HashMap.ofList before.entries.reverse
  let changed := after.entries.filter fun (place, e) => !(old[place]?.any (isSame e))
  for (place, e) in changed.mergeSort fun a b => decide (a.1.length ≤ b.1.length) do
    match e with
    | .directory => IO.FS.createDirAll place.path.text
    | .file content => IO.FS.writeBinFile place.path.text content
    | .link _ => pure ()

-- When files were last changed, as far as they are there.
def stamps (files : List Path) : IO (List (Option (Int × UInt32))) := do
  let here ← IO.currentDir
  files.mapM fun p => do
    try
      let m ← (here / p.text).metadata
      return some (m.modified.sec, m.modified.nsec)
    catch _ => return none

end LuaBundle.Disk

namespace LuaBundle.Arguments

-- The directories that a command line names, and with its work those that the work names.
def directories (a : Arguments) (w : Option Work) : List Path :=
  let named := a.entries ++ a.output.toList ++ a.project.toList ++ a.stringify.toList
  let jobs := (w.map (·.jobs)).getD []
  let written := jobs.flatMap fun job =>
    match job with
    | .print entry => [entry]
    | .target t => t.paths
  let searched := jobs.flatMap fun job =>
    ((w.map (·.options.searchPaths)).getD []).map job.entry.parent.join
  (named ++ written).map Path.parent ++ searched

-- The tree that a command line works on.
def tree (a : Arguments) : IO Tree := do
  let t ← Disk.tree (a.directories none)
  match a.work t with
  | .ok w => Disk.tree (a.directories (some w))
  | .error _ => return t

def threshold : IO (Option Level) := do
  match ← IO.getEnv "LUAPACK_LOG" with
  | some "off" => return none
  | some "error" => return some .error
  | some "warn" => return some .warning
  | _ => return some .info

def log (events : List Event) : IO Unit := do
  let threshold ← threshold
  for e in events do
    if e.passes threshold then IO.eprintln e.line

-- Print what a command has come to and keep what it has made.
def deliver (before : Tree) (r : Report) : IO Unit := do
  log r.events
  IO.print r.output
  (← IO.getStdout).flush
  Disk.update before r.tree

-- Tell the watcher which of its files have changed, and do the work again when it is time.
partial def watchFiles (a : Arguments) (w : Work) (v : Watcher)
    (last : List (Option (Int × UInt32))) : IO Unit := do
  IO.sleep 50
  let stamps ← Disk.stamps v.files
  let time ← IO.monoMsNow
  let changed := (v.files.zip (last.zip stamps)).filterMap fun (p, before, after) =>
    if before = after then none else some p
  let v ← if changed.isEmpty then pure v else pure (v.hear (← a.tree) time changed)
  if (v.debouncer.ready time).1 then
    let t ← a.tree
    let (v, r) := v.round w t time
    r.forM (deliver t)
    watchFiles a w v (← Disk.stamps v.files)
  else watchFiles a w v stamps

end LuaBundle.Arguments

open LuaBundle

def main (arguments : List String) : IO UInt32 := do
  match Arguments.parse arguments with
  | .error u =>
    if u.status = 0 then IO.print u.message else IO.eprint u.message
    return u.status.toUInt32
  | .ok a =>
    let t ← a.tree
    match a.work t, a.watch && !a.init && !a.graph with
    | .ok w, true =>
      let (v, r) := Watcher.start w t
      Arguments.deliver t r
      a.watchFiles w v (← Disk.stamps v.files)
      return 0
    | _, _ =>
      let r := a.execute t
      Arguments.deliver t r
      match r.failure with
      | none => return 0
      | some f =>
        IO.eprint f.report
        return 1
