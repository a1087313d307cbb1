import LuaBundle.File.System
import LuaBundle.Project.Basic
import LuaBundle.Yaml.Implicit
import LuaBundle.Yaml.Read

namespace LuaBundle.Project

open Yaml (Document Node isNull)

-- Why a text describes no project.
inductive Malformed
  | unreadable (problem : Yaml.Problem)
  | notText
  | notSequence
  | notMapping
  | notNull
  | missingKey (key : String)
  | repeatedKey (key : String)
deriving DecidableEq, Repr

def Malformed.message : Malformed → String
  | unreadable problem => problem.message
  | notText => "invalid type: expected a string"
  | notSequence => "invalid type: expected a sequence"
  | notMapping => "invalid type: expected a mapping"
  | notNull => "invalid value: expected null"
  | missingKey key => s!"missing field `{key}`"
  | repeatedKey key => s!"duplicate field `{key}`"

namespace Decode

-- Any scalar is the text it is written with.
def text (d : Document) (n : Node) : Except Malformed String :=
  match d.resolve n with
  | .scalar _ _ t => .ok t
  | _ => .error .notText

def path (d : Document) (n : Node) : Except Malformed Path :=
  (text d n).map Path.ofString

-- An empty value is an empty list.
def list {α : Type} (item : Document → Node → Except Malformed α) (d : Document) (n : Node) :
    Except Malformed (List α) :=
  match d.resolve n with
  | .sequence items => items.mapM (item d)
  | .scalar true _ "" => .ok []
  | _ => .error .notSequence

def nullTag : String :=
  "tag:yaml.org,2002:null"

-- Quotes and tags make a text of what would else be nothing.
def option {α : Type} (value : Document → Node → Except Malformed α) (d : Document) (n : Node) :
    Except Malformed (Option α) :=
  match d.resolve n with
  | .scalar true none t => if t = "" || isNull t then .ok none else (value d n).map some
  | .scalar true (some tag) t =>
    if tag = nullTag then if isNull t then .ok none else .error .notNull
    else (value d n).map some
  | _ => (value d n).map some

-- The values that a mapping gives to known keys. Other keys are ignored, and an empty value is an
-- empty mapping.
def fields (known : List String) (d : Document) (n : Node) :
    Except Malformed (List (String × Node)) :=
  match d.resolve n with
  | .mapping entries => entries.foldlM add []
  | .scalar true _ "" => .ok []
  | _ => .error .notMapping
where
  add (found : List (String × Node)) (entry : Node × Node) :
      Except Malformed (List (String × Node)) := do
    let key ← text d entry.1
    if key ∉ known then return found
    if (found.lookup key).isSome then throw (.repeatedKey key)
    return (key, entry.2) :: found

def required {α : Type} (value : Document → Node → Except Malformed α) (d : Document)
    (found : List (String × Node)) (key : String) : Except Malformed α :=
  match found.lookup key with
  | some n => value d n
  | none => .error (.missingKey key)

def optional {α : Type} (value : Document → Node → Except Malformed α) (default : α) (d : Document)
    (found : List (String × Node)) (key : String) : Except Malformed α :=
  match found.lookup key with
  | some n => value d n
  | none => .ok default

def options (d : Document) (n : Node) : Except Malformed Options := do
  let found ← fields ["searchPaths", "externals", "extension"] d n
  return {
    searchPaths := ← optional (list path) Options.default.searchPaths d found "searchPaths"
    externals := ← optional (list text) Options.default.externals d found "externals"
    extension := ← optional text Options.default.extension d found "extension" }

def copyFile (d : Document) (n : Node) : Except Malformed CopyFile := do
  let found ← fields ["from", "to"] d n
  return { source := ← required path d found "from", destination := ← required path d found "to" }

def target (d : Document) (n : Node) : Except Malformed Target := do
  let found ← fields ["name", "entry", "output", "copy", "stringify"] d n
  return {
    name := ← optional (option text) none d found "name"
    entry := ← required path d found "entry"
    output := ← required path d found "output"
    copies := ← optional (list copyFile) [] d found "copy"
    stringify := ← optional (option path) none d found "stringify" }

-- What the document leaves out has its default.
def project (d : Document) : Except Malformed Project := do
  let found ← fields ["bundlerOptions", "targets"] d (d.root.getD .absent)
  return {
    options := ← optional options Options.default d found "bundlerOptions"
    targets := ← optional (list target) [] d found "targets" }

end Decode
end Project

-- Why there is no usable project.
inductive ProjectError
  | file (path : Path) (cause : FileError)
  | malformed (cause : Project.Malformed)
  | invalid (fault : Project.Fault)
  -- a path that is not UTF-8, which no text spells
  | unwritable
deriving DecidableEq, Repr

def ProjectError.message : ProjectError → String
  | file path cause => s!"IO error on {path.text}: {cause.message}"
  | malformed cause => s!"Configuration error: {cause.message}"
  | invalid fault => s!"Configuration error: {fault.message}"
  | unwritable => "Configuration error: path contains invalid UTF-8 characters"

namespace Project

-- The usable project that a text describes.
def parse (source : String) : Except ProjectError Project := do
  let d ← (Yaml.read source).mapError fun p => .malformed (.unreadable p)
  let p ← (Decode.project d).mapError .malformed
  p.validate.mapError .invalid
  return p

end Project
end LuaBundle
