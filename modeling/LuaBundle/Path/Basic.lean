import LuaBundle.Text.OsString

namespace LuaBundle

-- A path with the spelling it was given. `/` alone separates; a backslash is a byte like any other.
structure Path extends OsString
deriving DecidableEq, Repr

-- What a path consists of. A `.` counts only at the very start of a relative path.
inductive Component
  | root
  | here
  | up
  | name (spelling : OsString)
deriving DecidableEq, Repr

namespace Component

def spelling : Component → OsString
  | root => "/"
  | here => "."
  | up => ".."
  | name n => n

end Component

namespace Path

def ofString (s : String) : Path :=
  ⟨s⟩

def empty : Path :=
  ⟨""⟩

abbrev slash : UInt8 :=
  0x2F

abbrev dot : UInt8 :=
  0x2E

def isEmpty (p : Path) : Bool :=
  p.bytes.isEmpty

def isAbsolute (p : Path) : Bool :=
  p.bytes.head? = some slash

-- The start of a path, if that is a component of its own, and the bytes after it.
def parts : List UInt8 → List Component × List UInt8
  | [] => ([], [])
  | b :: r =>
    if b = slash then ([.root], r)
    else if b = dot && r.head?.all (· = slash) then ([.here], r)
    else ([], b :: r)

-- Segments that no component comes from: repeated separators and `.` inside a path.
def isVoid (segment : List UInt8) : Bool :=
  segment = [] || segment = [dot]

def Segment.component (segment : List UInt8) : Component :=
  if segment = [dot, dot] then .up else .name ⟨segment⟩

def components (p : Path) : List Component :=
  let (start, body) := parts p.bytes
  start ++ ((body.splitOn slash).filter (!isVoid ·)).map Segment.component

-- Paths with the same components name the same place, however they are spelled.
instance : Setoid Path where
  r p q := p.components = q.components
  iseqv := ⟨fun _ => rfl, Eq.symm, Eq.trans⟩

instance (p q : Path) : Decidable (p ≈ q) :=
  inferInstanceAs (Decidable (p.components = q.components))

-- An absolute path stands for itself, wherever it is taken from.
def join (base p : Path) : Path :=
  if p.isAbsolute then p
  else if base.isEmpty || base.bytes.getLast? = some slash then ⟨⟨base.bytes ++ p.bytes⟩⟩
  else ⟨⟨base.bytes ++ slash :: p.bytes⟩⟩

-- The path without its last component, as it was spelled. The root and the empty path have none.
def parent? (p : Path) : Option Path :=
  let (start, body) := parts p.bytes
  match (body.splitOn slash).reverse.dropWhile isVoid with
  | [] => if start = [.here] then some empty else none
  | _ :: before =>
    let kept := (before.dropWhile isVoid).reverse
    some ⟨⟨start.flatMap (·.spelling.bytes) ++ [slash].intercalate kept⟩⟩

def parent (p : Path) : Path :=
  p.parent?.getD empty

def fileName? (p : Path) : Option OsString :=
  match p.components.getLast? with
  | some (.name n) => some n
  | _ => none

-- The file name up to its last dot. A dot in first position starts no ending.
def fileStem? (p : Path) : Option OsString :=
  p.fileName?.map fun n =>
    match (n.bytes.reverse.dropWhile (· ≠ dot)).drop 1 with
    | [] => n
    | before => ⟨before.reverse⟩

def withFileName (p : Path) (name : OsString) : Path :=
  (if p.fileName?.isSome then p.parent else p).join ⟨name⟩

-- The path with an ending after its last byte.
def withEnding (p : Path) (ending : OsString) : Path :=
  ⟨⟨p.bytes ++ ending.bytes⟩⟩

-- The path with its components joined by single separators.
def ofComponents : List Component → Path
  | .root :: rest => ⟨⟨slash :: spell rest⟩⟩
  | all => ⟨⟨spell all⟩⟩
where
  spell (components : List Component) : List UInt8 :=
    [slash].intercalate (components.map (·.spelling.bytes))

-- The path as text for people, with `/` for every backslash.
def slashed (p : Path) : String :=
  String.ofList (p.text.toList.map fun c => if c = '\\' then '/' else c)

end Path
end LuaBundle
