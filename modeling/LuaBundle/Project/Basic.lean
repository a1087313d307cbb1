import LuaBundle.Options

namespace LuaBundle

-- A file that is copied beside a bundle.
structure CopyFile where
  source : Path
  destination : Path
deriving DecidableEq, Repr

-- An entry and where its bundle goes.
structure Target where
  name : Option String
  entry : Path
  output : Path
  copies : List CopyFile
  stringify : Option Path
deriving DecidableEq, Repr

-- What a project file says.
structure Project where
  options : Options
  targets : List Target
deriving DecidableEq, Repr

namespace Target

-- The name a target goes by: its own, or the stem of its entry.
def displayName (t : Target) : String :=
  t.name.getD ((t.entry.fileStem?.getD t.entry.toOsString).text)

-- The paths that it spells.
def paths (t : Target) : List Path :=
  t.entry :: t.output :: t.copies.flatMap (fun c => [c.source, c.destination]) ++ t.stringify.toList

-- Relative paths are meant from the directory of the project file.
def rebase (t : Target) (directory : Path) : Target where
  name := t.name
  entry := directory.join t.entry
  output := directory.join t.output
  copies := t.copies.map fun c => ⟨directory.join c.source, directory.join c.destination⟩
  stringify := t.stringify.map directory.join

end Target

namespace Project

def paths (p : Project) : List Path :=
  p.options.searchPaths ++ p.targets.flatMap Target.paths

-- What makes a project file unusable although it can be read.
inductive Fault
  | emptyExtension
  | emptyEntry (target : String)
  | sharedOutput (output : Path)
deriving DecidableEq, Repr

def Fault.message : Fault → String
  | emptyExtension => "extension must not be empty"
  | emptyEntry target => s!"target '{target}' has an empty entry"
  | sharedOutput output => s!"output {output.text} is used by more than one target"

-- Targets are checked in order, each against the outputs before it.
def checkTargets (outputs : List Path) : List Target → Except Fault Unit
  | [] => .ok ()
  | t :: rest =>
    if t.entry.isEmpty then .error (.emptyEntry t.displayName)
    else if outputs.any (· ≈ t.output) then .error (.sharedOutput t.output)
    else checkTargets (t.output :: outputs) rest

def validate (p : Project) : Except Fault Unit :=
  if p.options.extension.isEmpty then .error .emptyExtension else checkTargets [] p.targets

def rebase (p : Project) (directory : Path) : Project :=
  { p with targets := p.targets.map (·.rebase directory) }

end Project
end LuaBundle
