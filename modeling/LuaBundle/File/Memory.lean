import LuaBundle.File.System
import LuaBundle.Path.Clean

namespace LuaBundle

-- Files and links held in memory. Both are kept under clean paths, so that `/p/./a.lua` and
-- `/p/lib/../a.lua` are one file, and a link stands for one whole path.
structure Memory where
  files : List (Path × String)
  links : List (Path × Path)

namespace Memory

def empty : Memory :=
  ⟨[], []⟩

def put {α : Type} (key : Path) (value : α) (table : List (Path × α)) : List (Path × α) :=
  (key, value) :: table.filter (·.1 ≠ key)

def addFile (m : Memory) (path : Path) (content : String) : Memory :=
  { m with files := put path.clean content m.files }

def addLink (m : Memory) (link target : Path) : Memory :=
  { m with links := put link.clean target.clean m.links }

-- No chain of links is followed further than this.
def maxHops : Nat :=
  32

-- The place where a chain of links that starts at a clean path ends.
def follow (m : Memory) (hops : Nat) (path : Path) : Path :=
  match hops with
  | 0 => path
  | hops + 1 =>
    match m.links.lookup path with
    | some target => follow m hops target
    | none => path

def resolve (m : Memory) (path : Path) : Path :=
  m.follow maxHops path.clean

def content? (m : Memory) (path : Path) : Option String :=
  m.files.lookup (m.resolve path)

def isFile (m : Memory) (path : Path) : Bool :=
  (m.content? path).isSome

def read (m : Memory) (path : Path) : Except FileError String :=
  match m.content? path with
  | some content => .ok content
  | none => .error (.missing path)

def canonicalize (m : Memory) (path : Path) : Except FileError Path :=
  if m.isFile path then .ok (m.resolve path) else .error (.missing path)

theorem mem_keys_of_lookup_isSome {α : Type} {key : Path} {table : List (Path × α)}
    (h : (table.lookup key).isSome) : key ∈ table.map (·.1) := by
  induction table with
  | nil => simp at h
  | cons entry table ih =>
    obtain ⟨k, v⟩ := entry
    rw [List.lookup_cons] at h
    split at h
    case h_1 hk => simp_all
    case h_2 => simp [ih h]

theorem mem_files_of_canonicalize {m : Memory} {p q : Path} (h : m.canonicalize p = .ok q) :
    q ∈ m.files.map (·.1) := by
  unfold canonicalize at h
  split at h
  case isTrue hf =>
    obtain rfl := by simpa using h
    exact mem_keys_of_lookup_isSome hf
  case isFalse => simp at h

def fileSystem (m : Memory) : FiniteFiles where
  isFile := m.isFile
  read := m.read
  canonicalize := m.canonicalize
  known := m.files.map (·.1)
  mem_known := mem_files_of_canonicalize

end Memory
end LuaBundle
