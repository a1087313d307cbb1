import LuaBundle.File.Tree.Change
import LuaBundle.Module.Basic
import LuaBundle.Project.Decode

namespace LuaBundle

-- Why a command fails.
inductive Failure
  | bundle (cause : BundleError)
  | project (cause : ProjectError)
  -- the project file that the command line names
  | namedProject (path : Path) (cause : ProjectError)
  | change (change : Change) (cause : FileError)
  -- a starter file that cannot be written
  | starter (cause : FileError)
  | projectExists (path : Path)
  | noEntries
  | outputWithoutEntry
  | outputForSeveralEntries
  | noTargets
  | failedTargets (failed total : Nat)

-- The name a project file has unless the command line says otherwise.
def projectFile : Path :=
  ⟨"luapack.yaml"⟩

def Change.failure : Change → String
  | makeDirectories p => s!"Failed to create {p.text}"
  | write p _ => s!"Failed to write {p.text}"
  | copy source destination => s!"Failed to copy {source.text} to {destination.text}"

-- What stands behind a failure, outermost first.
def BundleError.chain (e : BundleError) : List String :=
  match e with
  | .file _ cause => [e.message, cause.message]
  | _ => [e.message]

def ProjectError.chain (e : ProjectError) : List String :=
  match e with
  | .file _ cause => [e.message, cause.message]
  | _ => [e.message]

namespace Failure

def chain : Failure → List String
  | bundle cause => cause.chain
  | project cause => cause.chain
  | namedProject path cause => s!"Failed to load {path.text}" :: cause.chain
  | change c cause => [c.failure, cause.message]
  | starter cause => [cause.message]
  | projectExists path => [s!"{path.text} already exists"]
  | noEntries =>
    [s!"No entry files given and no {projectFile.text} found. Use --help for usage information."]
  | outputWithoutEntry => ["--output and --stringify need an entry file"]
  | outputForSeveralEntries => ["--output and --stringify take a single entry file"]
  | noTargets => ["The project file defines no targets"]
  | failedTargets failed total => [s!"{failed} of {total} target(s) failed"]

-- A failure in one line.
def line (f : Failure) : String :=
  String.intercalate ": " f.chain

-- A text behind a mark, with its further lines below its first.
def hang (mark text : String) : String :=
  let indent := '\n' :: mark.toList.map fun _ => ' '
  mark ++ String.ofList (text.toList.flatMap fun c => if c = '\n' then indent else [c]) ++ "\n"

-- A failure as the last words of a command: a single cause stands alone, several are numbered.
def report (f : Failure) : String :=
  match f.chain with
  | [] => ""
  | [outermost] => s!"Error: {outermost}\n"
  | [outermost, cause] => s!"Error: {outermost}\n\nCaused by:\n" ++ hang "    " cause
  | outermost :: causes =>
    s!"Error: {outermost}\n\nCaused by:\n" ++
      String.join (causes.zipIdx.map fun (cause, n) => hang s!"    {n}: " cause)

end Failure
end LuaBundle
