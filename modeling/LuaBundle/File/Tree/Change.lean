import LuaBundle.File.Tree.Basic

namespace LuaBundle

namespace Tree

def put (t : Tree) (place : Location) (e : Entry) : Tree :=
  { t with entries := (place, e) :: t.entries.filter (·.1 ≠ place) }

-- Where a file can be written: a file that is there, or a new name.
def locateFile (t : Tree) (p : Path) : Except FileError Location := do
  let place ← t.locate true p
  if t.hasDirectory place then throw (.system .isDirectory)
  return place

def write (t : Tree) (p : Path) (content : ByteArray) : Except FileError Tree := do
  return t.put (← t.locateFile p) (.file content)

-- A file is emptied before it is written, so that one copied onto itself ends up empty.
def copy (t : Tree) (source destination : Path) : Except FileError Tree := do
  let place ← t.locate false source
  match t.get? place with
  | some (.file content) =>
    let target ← t.locateFile destination
    return t.put target (.file (if target = place then .empty else content))
  | _ => throw .notRegular

-- The last step of a path, and the steps before it. Separators at the end do not count.
def lastStep? (p : Path) : Option (List OsString × OsString) :=
  match (segments p).reverse.dropWhile fun s : OsString => s = "" with
  | [] => none
  | last :: before => some (before.reverse, last)

def makeDirectory (t : Tree) (p : Path) : Except FileError Tree := do
  if p.bytes.contains 0 then throw .nulInPath
  if p.isEmpty then throw (.system .noEntry)
  if pathLimit ≤ p.bytes.length then throw (.system .nameTooLong)
  match lastStep? p with
  | none => throw (.system .alreadyExists)
  | some (before, last) =>
    let parent ← (t.walk false maxLinks (start t.here p) before).mapError .system
    if !t.hasDirectory parent then throw (.system .notDirectory)
    if last = "." || last = ".." then throw (.system .alreadyExists)
    if maxName < last.bytes.length then throw (.system .nameTooLong)
    if (t.get? (parent ++ [last])).isSome then throw (.system .alreadyExists)
    return t.put (parent ++ [last]) .directory

-- A path, and those of the directories around it, innermost first.
def ancestors (p : Path) : List Path :=
  let components := p.components
  p :: (List.range (components.length - 1)).reverse.map fun n => .ofComponents (components.take (n + 1))

-- Make a directory, after those around it if need be. What was made before a failure stays.
def makeDirectories (t : Tree) : List Path → Tree × Option FileError
  | [] => (t, none)
  | p :: around =>
    match t.makeDirectory p with
    | .ok t => (t, none)
    | .error (.system .noEntry) =>
      match t.makeDirectories around with
      | (t, some e) => (t, some e)
      | (t, none) =>
        match t.makeDirectory p with
        | .ok t => (t, none)
        | .error e => (t, if t.isDirectory p then none else some e)
    | .error e => (t, if t.isDirectory p then none else some e)

end Tree

-- One thing done to a tree.
inductive Change
  | makeDirectories (p : Path)
  | write (p : Path) (content : ByteArray)
  | copy (source destination : Path)

namespace Change

-- A change that fails leaves the tree alone, but for directories on the way to one that cannot be
-- made.
def apply (t : Tree) : Change → Tree × Option FileError
  | makeDirectories p => t.makeDirectories (Tree.ancestors p)
  | write p content => settle (t.write p content)
  | copy source destination => settle (t.copy source destination)
where
  settle : Except FileError Tree → Tree × Option FileError
    | .ok t => (t, none)
    | .error e => (t, some e)

-- A change to a file after the directories that the file needs.
def withParents (p : Path) (c : Change) : List Change :=
  match p.parent? with
  | some directory => if directory.isEmpty then [c] else [.makeDirectories directory, c]
  | none => [c]

def writing (p : Path) (text : String) : List Change :=
  withParents p (.write p text.toUTF8)

-- Changes in turn, until one fails.
def applyAll (t : Tree) : List Change → Tree × Option (Change × FileError)
  | [] => (t, none)
  | c :: rest =>
    match c.apply t with
    | (t, some e) => (t, some (c, e))
    | (t, none) => applyAll t rest

end Change
end LuaBundle
