import LuaBundle.Bundle.Emit
import LuaBundle.Bundle.Stringified
import LuaBundle.Command.Work

namespace LuaBundle

-- What a command has come to: the tree it leaves, what it printed and logged, and why it failed.
structure Report where
  tree : Tree
  output : String
  events : List Event
  failure : Option Failure

namespace Target

-- What is to be done with the bundle of a target: first the bundle, then the copies in order, and
-- last the bundle as a text.
def changes (t : Target) (bundle : String) : List Change :=
  Change.writing t.output bundle ++
    t.copies.flatMap (fun c => Change.withParents c.destination (.copy c.source c.destination)) ++
    match t.stringify with
    | some p => Change.writing p (Bundle.stringify bundle)
    | none => []

end Target

namespace Job

-- Nothing is written unless the whole bundle is there.
def run (options : Options) (t : Tree) (job : Job) : Report :=
  let o := buildGraph t.fileSystem options job.entry
  let events := Bundle.events job.entry o
  match job with
  | .print _ =>
    match o.result with
    | .error e => ⟨t, "", events, some (.bundle e)⟩
    | .ok g => ⟨t, Bundle.emit g, events, none⟩
  | .target goal =>
    let events := ⟨.info, s!"Bundling {goal.displayName}..."⟩ :: events
    match o.result with
    | .error e => ⟨t, "", events, some (.bundle e)⟩
    | .ok g =>
      match Change.applyAll t (goal.changes (Bundle.emit g)) with
      | (t, some (c, e)) => ⟨t, "", events, some (.change c e)⟩
      | (t, none) =>
        ⟨t, "", events ++ [⟨.info, s!"Done bundling {goal.displayName}"⟩], none⟩

def failureEvent? (job : Job) (r : Report) : Option Event :=
  r.failure.map fun f => ⟨.error, s!"{job.name}: {f.line}"⟩

-- Jobs in turn. One that fails stops none of the others.
def runEach (options : Options) (t : Tree) : List Job → Tree × List (Job × Report)
  | [] => (t, [])
  | job :: jobs =>
    let r := job.run options t
    let (t, rest) := runEach options r.tree jobs
    (t, (job, r) :: rest)

end Job

-- All jobs of a piece of work. Bundles are printed in the order of their jobs.
def Work.run (w : Work) (t : Tree) : Report :=
  let (t, reports) := Job.runEach w.options t w.jobs
  let failures := reports.filterMap fun (job, r) => job.failureEvent? r
  { tree := t
    output := String.join (reports.map (·.2.output))
    events := reports.flatMap (·.2.events) ++ failures
    failure :=
      if failures.isEmpty then none else some (.failedTargets failures.length w.jobs.length) }

end LuaBundle
