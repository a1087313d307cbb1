import LuaBundle.Options

namespace LuaBundle

-- What a command line can set.
inductive Setting
  | entries
  | output
  | project
  | stringify
  | searchPaths
  | externals
  | extension
  | graph
  | json
  | watch
  | init
  | help
  | version
deriving DecidableEq, Repr

namespace Setting

def ofLong? (name : String) : Option Setting :=
  [("output", output), ("project", project), ("stringify", stringify),
    ("search-path", searchPaths), ("external", externals), ("extension", extension),
    ("graph", graph), ("json", json), ("watch", watch), ("init", init), ("help", help),
    ("version", version)].lookup name

def ofShort? : Char → Option Setting
  | 'o' => some output
  | 'p' => some project
  | 'I' => some searchPaths
  | 'w' => some watch
  | 'h' => some help
  | 'V' => some version
  | _ => none

def takesValue : Setting → Bool
  | entries | output | project | stringify | searchPaths | externals | extension => true
  | _ => false

def isRepeatable : Setting → Bool
  | entries | searchPaths | externals => true
  | _ => false

-- Paths have at least one character.
def allowsEmpty : Setting → Bool
  | externals | extension => true
  | _ => false

end Setting

-- Why a command line is not carried out.
inductive Usage
  | unknownArgument (argument : String)
  | invalidValue (setting : Setting)
  | argumentConflict (setting : Setting)
  | missingRequiredArgument
  | tooManyValues (setting : Setting)
  | help
  | version
deriving DecidableEq, Repr

-- What a command line asks for.
structure Arguments where
  entries : List Path
  output : Option Path
  project : Option Path
  stringify : Option Path
  overrides : Overrides
  graph : Bool
  json : Bool
  watch : Bool
  init : Bool
deriving DecidableEq, Repr

-- A command line that is being read: what was given, in order, and the setting that more values may
-- follow. That setting is checked when the next one is met.
structure CommandLine where
  given : List (Setting × List String)
  pending : Option (Setting × List String)

namespace CommandLine

def record (given : List (Setting × List String)) (setting : Setting) (values : List String) :
    Except Usage (List (Setting × List String)) :=
  if setting = .help then .error .help
  else if setting = .version then .error .version
  else if setting.takesValue && values.isEmpty then .error (.invalidValue setting)
  else if !setting.isRepeatable && given.any (·.1 = setting) then .error (.argumentConflict setting)
  else if !setting.allowsEmpty && values.any (·.isEmpty) then .error (.invalidValue setting)
  else .ok (given ++ [(setting, values)])

-- What was given, with the setting that waited for values.
def settle (l : CommandLine) : Except Usage (List (Setting × List String)) :=
  match l.pending with
  | some (setting, values) => record l.given setting values
  | none => .ok l.given

-- A setting with all its values.
def add (l : CommandLine) (setting : Setting) (values : List String) : Except Usage CommandLine := do
  return ⟨← record (← l.settle) setting values, none⟩

-- A setting with values to come.
def await (l : CommandLine) (setting : Setting) : Except Usage CommandLine := do
  return ⟨← l.settle, some (setting, [])⟩

-- An argument after its two dashes. A value may follow an equals sign.
def readLong (l : CommandLine) (body : List Char) : Except Usage CommandLine :=
  let name := String.ofList (body.takeWhile (· ≠ '='))
  match Setting.ofLong? name, body.dropWhile (· ≠ '=') with
  | none, _ => .error (.unknownArgument ("--" ++ name))
  | some setting, '=' :: value =>
    if setting.takesValue then l.add setting [String.ofList value]
    else .error (.tooManyValues setting)
  | some setting, _ => if setting.takesValue then l.await setting else l.add setting []

-- Letters after a dash. What follows the letter of a setting with a value is its value.
def readShort (l : CommandLine) : List Char → Except Usage CommandLine
  | [] => .ok l
  | c :: rest =>
    match Setting.ofShort? c with
    | none => .error (.unknownArgument (String.ofList ['-', c]))
    | some setting =>
      if setting.takesValue then
        match rest with
        | [] => l.await setting
        | '=' :: value => l.add setting [String.ofList value]
        | value => l.add setting [String.ofList value]
      else do
        (← l.add setting []).readShort rest

-- A value: that of a setting that waits for one, or an entry.
def readValue (l : CommandLine) (value : String) : Except Usage CommandLine :=
  match l.pending with
  | some (.entries, values) => .ok { l with pending := some (.entries, values ++ [value]) }
  | some (setting, []) => .ok { l with pending := some (setting, [value]) }
  | _ => do
    return ⟨← l.settle, some (.entries, [value])⟩

-- An argument after `--` is an entry whatever it looks like.
def readEntry (l : CommandLine) (value : String) : Except Usage CommandLine :=
  match l.pending with
  | some (.entries, values) => .ok { l with pending := some (.entries, values ++ [value]) }
  | _ => do
    return ⟨← l.settle, some (.entries, [value])⟩

def read (l : CommandLine) : List String → Except Usage CommandLine
  | [] => .ok l
  | argument :: rest =>
    match argument.toList with
    | ['-', '-'] => rest.foldlM readEntry l
    | '-' :: '-' :: body => do
      (← l.readLong body).read rest
    | '-' :: c :: letters => do
      (← l.readShort (c :: letters)).read rest
    | _ => do
      (← l.readValue argument).read rest

def values (given : List (Setting × List String)) (setting : Setting) : List String :=
  (given.filter (·.1 = setting)).flatMap (·.2)

def has (given : List (Setting × List String)) (setting : Setting) : Bool :=
  given.any (·.1 = setting)

end CommandLine

namespace Arguments

open CommandLine in
def ofGiven (given : List (Setting × List String)) : Arguments where
  entries := (values given .entries).map Path.ofString
  output := (values given .output).head?.map Path.ofString
  project := (values given .project).head?.map Path.ofString
  stringify := (values given .stringify).head?.map Path.ofString
  overrides :=
    { searchPaths := (values given .searchPaths).map Path.ofString
      externals := values given .externals
      extension := (values given .extension).head? }
  graph := has given .graph
  json := has given .json
  watch := has given .watch
  init := has given .init

-- What a command line asks for. `--json` says how to print a graph and needs one.
def parse (arguments : List String) : Except Usage Arguments := do
  let l ← (CommandLine.mk [] none).read arguments
  let a := ofGiven (← l.settle)
  if a.json && !a.graph then throw .missingRequiredArgument
  return a

end Arguments
end LuaBundle
